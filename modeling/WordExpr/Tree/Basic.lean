import WordExpr.Tree.Symbol

/-!
# Expression trees in an arena

The nodes of a `Tree` live in one array and refer to each other by their place in it
(`NodeId`). A node is

* a leaf      a name, constant or variable without children;
* a binary    an operator with a left and a right child;
* a group     no symbol and one child, on the left (a bracket pair).

Any node may carry two flags, `minus` and `complement`: its value is negated first and
complemented second. Nodes are never freed, so a tree may hold nodes that its root does not
reach; `Tree.size` counts them too.
-/

namespace WordExpr

/-- the place of a node in its arena -/
abbrev NodeId := Nat

structure Node where
  parent : Option NodeId := none
  left : Option NodeId := none
  right : Option NodeId := none
  symbol : Option Symbol := none
  minus : Bool := false
  complement : Bool := false
deriving DecidableEq, Repr

namespace Node

def group : Node := {}
def leaf (s : Symbol) : Node := { symbol := some s }
def binary (op : Operator) : Node := { symbol := some (.operator op) }

def operator? (n : Node) : Option Operator := n.symbol.bind Symbol.operator?
def isGroup (n : Node) : Bool := n.symbol.isNone
def hasUnary (n : Node) : Bool := n.minus || n.complement

def isLeaf (n : Node) : Bool :=
  n.left.isNone && n.right.isNone && n.symbol.any (·.operator?.isNone)

end Node

structure Tree where
  nodes : Array Node
  root : NodeId
deriving DecidableEq, Repr

namespace Tree

/-- one empty group, the root -/
def single : Tree := ⟨#[.group], 0⟩

def size (t : Tree) : Nat := t.nodes.size

/-- an empty group where there is no such node -/
def node (t : Tree) (id : NodeId) : Node := t.nodes[id]?.getD .group

/-! ## growing and linking -/

def alloc (t : Tree) (n : Node) : NodeId × Tree := (t.size, { t with nodes := t.nodes.push n })

def modify (t : Tree) (id : NodeId) (f : Node → Node) : Tree :=
  { t with nodes := t.nodes.modify id f }

/-- makes a node the root and cuts it off from its parent -/
def setRoot (t : Tree) (id : NodeId) : Tree :=
  { t.modify id (fun n => { n with parent := none }) with root := id }

def setLeft (t : Tree) (parent child : NodeId) : Tree :=
  (t.modify parent (fun n => { n with left := some child })).modify child
    (fun n => { n with parent := some parent })

def setRight (t : Tree) (parent child : NodeId) : Tree :=
  (t.modify parent (fun n => { n with right := some child })).modify child
    (fun n => { n with parent := some parent })

/-- puts `new` where `parent` holds `old`, and tells whether it held it -/
def exchange (t : Tree) (parent old new : NodeId) : Bool × Tree :=
  if (t.node parent).left = some old then (true, t.setLeft parent new)
  else if (t.node parent).right = some old then (true, t.setRight parent new)
  else (false, t)

theorem size_modify (t : Tree) (id : NodeId) (f : Node → Node) :
    (t.modify id f).size = t.size := by
  simp [size, modify]

theorem node_modify (t : Tree) (id i : NodeId) (f : Node → Node) (hi : i < t.size) :
    (t.modify id f).node i = if id = i then f (t.node i) else t.node i := by
  have h : i < t.nodes.size := hi
  simp only [node, modify, Array.getElem?_modify]
  split <;> simp [h]

theorem node_alloc (t : Tree) (n : Node) (i : NodeId) :
    (t.alloc n).2.node i = if i = t.size then n else t.node i := by
  unfold node alloc size
  by_cases h : i = t.nodes.size <;> simp [Array.getElem?_push, h]

/-! ## upwards -/

/-- follows parent links while `goes` holds of the parent, `fuel` links at most -/
def ascendFrom (t : Tree) (goes : Node → Bool) (fuel : Nat) (id : NodeId) : NodeId :=
  match fuel with
  | 0 => id
  | fuel + 1 =>
    match (t.node id).parent with
    | none => id
    | some up => if goes (t.node up) then t.ascendFrom goes fuel up else id

/-- A way up that meets no node twice has fewer links than there are nodes. -/
def ascend (t : Tree) (goes : Node → Bool) (id : NodeId) : NodeId := t.ascendFrom goes t.size id

def findRoot (t : Tree) (id : NodeId) : NodeId := t.ascend (fun _ => true) id

end Tree

end WordExpr
