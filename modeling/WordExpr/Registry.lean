import WordExpr.Tree.Walk

/-!
# Registries of variables

A `Registry` gives every distinct name one number (`VarId`), in the order in which the names
are first seen, and one value cell.

* `canonicalName`          the nonempty words over `a` to `z`, shorter words first and words of one
                           length in alphabetical order: `a`, …, `z`, `aa`, `ab`, …, `zz`, `aaa`, …
* `Registry.intern`        the number of a name, new if the name is not there, and one more
                           occurrence of it;
* `Registry.lookup`        the number of a current name;
* `Registry.canonicalize`  renames every variable by the place where it was first seen;
* `Tree.consolidate`       makes the registry of a tree: it interns the names at the leaves from
                           left to right, puts their numbers in their place and renames the
                           variables canonically. Nothing else of the tree changes.

`index` holds one entry for each variable, its current name with its number.
-/

namespace WordExpr

/-! ## canonical names -/

def letter (n : Nat) : Char := Char.ofNat ('a'.toNat + n)

/-- the word of number `n - 1`, and no letters for 0 -/
def nameChars (n : Nat) : List Char :=
  if n = 0 then [] else nameChars ((n - 1) / 26) ++ [letter ((n - 1) % 26)]
termination_by n
decreasing_by omega

def canonicalName (order : Nat) : String := String.ofList (nameChars (order + 1))

/-! ## registries -/

structure Variable where
  /-- as written -/
  spelling : String
  /-- as it is called now -/
  name : String
  occurrences : Nat
  firstSeen : Nat
deriving DecidableEq, Repr

namespace Variable

def seenAgain (v : Variable) : Variable := { v with occurrences := v.occurrences + 1 }
def renamed (v : Variable) : Variable := { v with name := canonicalName v.firstSeen }

end Variable

structure Registry where
  index : List (String × VarId) := []
  vars : List Variable := []
  cells : List UInt64 := []
deriving DecidableEq, Repr

namespace Registry

def size (r : Registry) : Nat := r.vars.length
def isEmpty (r : Registry) : Bool := r.vars.isEmpty
def get? (r : Registry) (id : VarId) : Option Variable := r.vars[id]?
def lookup (r : Registry) (name : String) : Option VarId := r.index.lookup name
def nameOf (r : Registry) (id : VarId) : Option String := (r.get? id).map (·.name)

/-- all occurrences of all variables -/
def slots (r : Registry) : Nat := (r.vars.map (·.occurrences)).foldr (· + ·) 0

/-! ### names -/

def intern (r : Registry) (name : String) : VarId × Registry :=
  match r.lookup name with
  | some id => (id, { r with vars := r.vars.modify id Variable.seenAgain })
  | none =>
    let id := r.size
    (id,
      { index := (name, id) :: r.index
        vars := r.vars ++ [⟨name, name, 1, id⟩]
        cells := r.cells ++ [0] })

def canonicalize (r : Registry) : Registry :=
  let vars := r.vars.map Variable.renamed
  { r with vars, index := vars.zipIdx.map (fun (v, id) => (v.name, id)) }

/-! ### cells -/

def value? (r : Registry) (id : VarId) : Option UInt64 := r.cells[id]?

def setValue (r : Registry) (id : VarId) (v : UInt64) : Registry :=
  { r with cells := r.cells.set id v }

/-- every cell to zero -/
def reset (r : Registry) : Registry := { r with cells := r.cells.map (fun _ => 0) }

end Registry

/-! ## consolidation -/

namespace Tree

/-- the name at a leaf, if it has one, makes way for its number -/
def internLeaf (state : Tree × Registry) (id : NodeId) : Tree × Registry :=
  let (t, r) := state
  match (t.node id).symbol with
  | some (.term name) =>
    let (v, r) := r.intern name
    (t.modify id (fun n => { n with symbol := some (.variable v) }), r)
  | _ => (t, r)

def consolidate (t : Tree) : Tree × Registry :=
  let (t, r) := t.leaves.foldl internLeaf (t, {})
  (t, r.canonicalize)

end Tree

end WordExpr
