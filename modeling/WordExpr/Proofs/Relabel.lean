import WordExpr.Proofs.Formula

/-!
# New atoms at the leaves

`relabel g` puts the atom `g a` in the place of every atom `a`, in a symbol, a node, an outline, a
tree or a formula. Operators, flags and links stay, so everything that goes by them does too:
walks (`Tree.outline_relabel`, `Tree.leaves_relabel`), ways up (`Tree.ascend_relabel`) and the
operations that make and link nodes.
-/

namespace WordExpr

variable (g : Atom → Atom)

/-! ## symbols and nodes -/

namespace Symbol

def relabel (s : Symbol) : Symbol :=
  match s.atom? with
  | some a => (g a).symbol
  | none => s

theorem relabel_symbol (a : Atom) : a.symbol.relabel g = (g a).symbol := by
  unfold relabel
  rw [a.atom?_symbol]

theorem operator?_relabel (s : Symbol) : (s.relabel g).operator? = s.operator? := by
  cases s <;> first | exact Atom.operator?_symbol _ | rfl

theorem relabel_relabel (h : Atom → Atom) (s : Symbol) :
    (s.relabel g).relabel h = s.relabel (h ∘ g) := by
  cases s <;> first | exact relabel_symbol h _ | rfl

end Symbol

namespace Node

def relabel (n : Node) : Node := { n with symbol := n.symbol.map (Symbol.relabel g) }

theorem parent_relabel (n : Node) : (n.relabel g).parent = n.parent := rfl

theorem left_relabel (n : Node) : (n.relabel g).left = n.left := rfl

theorem right_relabel (n : Node) : (n.relabel g).right = n.right := rfl

theorem operator?_relabel (n : Node) : (n.relabel g).operator? = n.operator? := by
  show (n.symbol.map _).bind _ = n.symbol.bind _
  cases n.symbol with
  | none => rfl
  | some s => exact s.operator?_relabel g

theorem isGroup_relabel (n : Node) : (n.relabel g).isGroup = n.isGroup :=
  Option.isNone_map ..

theorem isLeaf_relabel (n : Node) : (n.relabel g).isLeaf = n.isLeaf := by
  show (_ && (n.symbol.map _).any _) = (_ && n.symbol.any _)
  cases n.symbol with
  | none => rfl
  | some s =>
    show (_ && (s.relabel g).operator?.isNone) = (_ && s.operator?.isNone)
    rw [s.operator?_relabel g]
    rfl

theorem relabel_relabel (h : Atom → Atom) (n : Node) :
    (n.relabel g).relabel h = n.relabel (h ∘ g) := by
  show { n with symbol := (n.symbol.map _).map _ } = { n with symbol := n.symbol.map _ }
  rw [Option.map_map]
  congr 2
  exact funext (Symbol.relabel_relabel g h)

/-- two maps that agree on the atom of a node give the same node -/
theorem relabel_congr {g h : Atom → Atom} {n : Node}
    (e : ∀ a : Atom, n.symbol = some a.symbol → g a = h a) : n.relabel g = n.relabel h := by
  have hs : n.symbol.map (Symbol.relabel g) = n.symbol.map (Symbol.relabel h) := by
    cases hn : n.symbol with
    | none => rfl
    | some s =>
      show some (s.relabel g) = some (s.relabel h)
      cases ha : s.atom? with
      | none => rw [Symbol.relabel, Symbol.relabel, ha]
      | some a =>
        have hs : a.symbol = s := Symbol.symbol_of_atom? ha
        unfold Symbol.relabel
        rw [ha]
        show some (g a).symbol = some (h a).symbol
        rw [e a (by rw [hn, hs])]
  unfold relabel
  rw [hs]

theorem relabel_of_symbol {n : Node} {a : Atom} (h : n.symbol = some a.symbol) (g : Atom → Atom) :
    n.relabel g = { n with symbol := some (g a).symbol } := by
  unfold relabel
  rw [h, Option.map_some, Symbol.relabel_symbol]

theorem relabel_eq_self {g : Atom → Atom} {n : Node}
    (h : ∀ a : Atom, n.symbol = some a.symbol → g a = a) : n.relabel g = n := by
  have hs : n.symbol.map (Symbol.relabel g) = n.symbol := by
    cases hn : n.symbol with
    | none => rfl
    | some s =>
      rw [Option.map_some, Symbol.relabel]
      cases ha : s.atom? with
      | none => rfl
      | some a =>
        have hsa : a.symbol = s := Symbol.symbol_of_atom? ha
        show some (g a).symbol = some s
        rw [h a (by rw [hn, hsa]), hsa]
  unfold relabel
  rw [hs]

end Node

/-! ## outlines and formulas -/

namespace Outline

def relabel : Outline → Outline
  | empty => empty
  | node id n l r => node id (n.relabel g) l.relabel r.relabel

theorem toList_relabel (o : Outline) : (o.relabel g).toList = o.toList := by
  induction o with
  | empty => rfl
  | node id n l r ihl ihr => rw [relabel, toList, ihl, ihr, toList]

end Outline

namespace Formula

def relabel : Formula → Formula
  | leaf f a => leaf f (g a)
  | group f x => group f x.relabel
  | binary f op x y => binary f op x.relabel y.relabel

theorem every_relabel {P : Atom → Prop} {g : Atom → Atom} {x : Formula} :
    (x.relabel g).Every P ↔ x.Every (fun a => P (g a)) := by
  induction x with
  | leaf f a => rfl
  | group f x ih => exact ih
  | binary f op x y ihx ihy => exact and_congr ihx ihy

end Formula

namespace Outline

theorem isEmpty_relabel (o : Outline) : (o.relabel g).isEmpty = o.isEmpty := by
  cases o <;> rfl

/-- an atom stands alone -/
theorem formula?_of_symbol {n : Node} {a : Atom} (h : n.symbol = some a.symbol) (id : NodeId)
    (l r : Outline) : (node id n l r).formula? =
      if l.isEmpty && r.isEmpty then some (.leaf n.flags a) else none := by
  unfold formula?
  rw [h]
  cases a <;> rfl

theorem formula?_relabel (o : Outline) :
    (o.relabel g).formula? = o.formula?.map (Formula.relabel g) := by
  induction o with
  | empty => rfl
  | node id n l r ihl ihr =>
    cases hs : n.symbol with
    | none =>
      have hn : (n.relabel g).symbol = none := by rw [Node.relabel, hs]; rfl
      unfold relabel formula?
      rw [hn, hs]
      show (if (r.relabel g).isEmpty then _ else _) = Option.map _ (if r.isEmpty then _ else _)
      rw [isEmpty_relabel, ihl]
      cases r.isEmpty with
      | false => rfl
      | true => cases l.formula? <;> rfl
    | some s =>
      cases ha : s.atom? with
      | some a =>
        have hsa : n.symbol = some a.symbol := by rw [hs, Symbol.symbol_of_atom? ha]
        have hn : (n.relabel g).symbol = some (g a).symbol := by rw [Node.relabel_of_symbol hsa]
        rw [relabel, formula?_of_symbol hn, formula?_of_symbol hsa, isEmpty_relabel,
          isEmpty_relabel]
        split <;> rfl
      | none =>
        cases s with
        | operator op =>
          have hn : (n.relabel g).symbol = some (.operator op) := by rw [Node.relabel, hs]; rfl
          unfold relabel formula?
          rw [hn, hs, ihl, ihr]
          cases l.formula? <;> cases r.formula? <;> rfl
        | term | constant | «variable» => cases ha

end Outline

/-! ## trees -/

namespace Tree

def relabel (t : Tree) : Tree := { t with nodes := t.nodes.map (Node.relabel g) }

variable (t : Tree)

theorem size_relabel : (t.relabel g).size = t.size := Array.size_map ..

theorem node_relabel (id : NodeId) : (t.relabel g).node id = (t.node id).relabel g := by
  show (t.nodes.map _)[id]?.getD _ = (t.nodes[id]?.getD _).relabel g
  rw [Array.getElem?_map]
  cases t.nodes[id]? <;> rfl

theorem ext_node {t t' : Tree} (hsize : t.size = t'.size) (hroot : t.root = t'.root)
    (hnode : ∀ i < t.size, t.node i = t'.node i) : t = t' := by
  obtain ⟨nodes, root⟩ := t
  obtain ⟨nodes', root'⟩ := t'
  cases hroot
  congr 1
  refine Array.ext hsize ?_
  intro i hi hi'
  have hn := hnode i hi
  simpa [node, hi, hi'] using hn

theorem relabel_relabel (h : Atom → Atom) : (t.relabel g).relabel h = t.relabel (h ∘ g) := by
  refine ext_node ?_ rfl ?_
  · simp only [size_relabel]
  · intro i _
    simp only [node_relabel, Node.relabel_relabel]

theorem relabel_congr {g h : Atom → Atom} {t : Tree}
    (e : ∀ i < t.size, ∀ a : Atom, (t.node i).symbol = some a.symbol → g a = h a) :
    t.relabel g = t.relabel h := by
  refine ext_node ?_ rfl ?_
  · simp only [size_relabel]
  · intro i hi
    rw [node_relabel, node_relabel]
    exact Node.relabel_congr (e i (by rwa [size_relabel] at hi))

/-! ## walks -/

theorem outlineFrom_relabel (fuel : Nat) (place : Option NodeId) :
    (t.relabel g).outlineFrom fuel place = (t.outlineFrom fuel place).relabel g := by
  induction fuel generalizing place with
  | zero => cases place <;> rfl
  | succ fuel ih =>
    cases place with
    | none => rfl
    | some id =>
      simp only [outlineFrom, node_relabel, Outline.relabel, ← ih]
      rfl

theorem outline_relabel : (t.relabel g).outline = t.outline.relabel g := by
  unfold outline outlineAt
  rw [size_relabel]
  exact t.outlineFrom_relabel g t.size _

theorem preorder_relabel : (t.relabel g).preorder = t.preorder := by
  rw [preorder, preorder, size_relabel, visitAll_visit, visitAll_visit, visitAll_nil, visitAll_nil,
    outlineFrom_relabel, Outline.toList_relabel]
  rfl

theorem leaves_relabel : (t.relabel g).leaves = t.leaves := by
  unfold leaves
  rw [preorder_relabel]
  congr 1
  funext id
  rw [node_relabel, Node.isLeaf_relabel]

theorem ascendFrom_relabel {goes : Node → Bool} (hg : ∀ n : Node, goes (n.relabel g) = goes n)
    (fuel : Nat) (id : NodeId) :
    (t.relabel g).ascendFrom goes fuel id = t.ascendFrom goes fuel id := by
  induction fuel generalizing id with
  | zero => rfl
  | succ fuel ih =>
    unfold ascendFrom
    rw [node_relabel, Node.parent_relabel]
    cases (t.node id).parent with
    | none => rfl
    | some up =>
      show (if goes ((t.relabel g).node up) then _ else id) = _
      rw [node_relabel, hg, ih]

theorem ascend_relabel {goes : Node → Bool} (hg : ∀ n : Node, goes (n.relabel g) = goes n)
    (id : NodeId) : (t.relabel g).ascend goes id = t.ascend goes id := by
  unfold ascend
  rw [size_relabel]
  exact t.ascendFrom_relabel g hg t.size id

/-! ## growing and linking -/

theorem single_relabel : single.relabel g = single := by
  have hnodes : (#[.group] : Array Node).map (Node.relabel g) = #[.group] :=
    List.map_toArray
  unfold relabel single
  rw [hnodes]

theorem alloc_relabel (n : Node) :
    (t.relabel g).alloc (n.relabel g) = ((t.alloc n).1, (t.alloc n).2.relabel g) := by
  have hnodes : (t.nodes.map (Node.relabel g)).push (n.relabel g) =
      (t.nodes.push n).map (Node.relabel g) := Array.map_push.symm
  unfold alloc
  rw [size_relabel]
  show (t.size, (⟨(t.nodes.map _).push _, t.root⟩ : Tree)) = _
  rw [hnodes]
  rfl

theorem modify_relabel (f : Node → Node) (hf : ∀ n : Node, f (n.relabel g) = (f n).relabel g)
    (id : NodeId) : (t.relabel g).modify id f = (t.modify id f).relabel g := by
  refine ext_node ?_ rfl ?_
  · simp only [size_relabel, size_modify]
  · intro i hi
    have hi' : i < t.size := by simpa only [size_relabel, size_modify] using hi
    rw [node_modify _ _ _ _ (by rwa [size_relabel]), node_relabel, node_relabel,
      node_modify _ _ _ _ hi']
    split
    · exact hf _
    · rfl

theorem setLeft_relabel (parent child : NodeId) :
    (t.relabel g).setLeft parent child = (t.setLeft parent child).relabel g := by
  rw [setLeft, modify_relabel g t (fun n => { n with left := some child }) (fun _ => rfl),
    modify_relabel g _ (fun n => { n with parent := some parent }) (fun _ => rfl)]
  rfl

theorem setRight_relabel (parent child : NodeId) :
    (t.relabel g).setRight parent child = (t.setRight parent child).relabel g := by
  rw [setRight, modify_relabel g t (fun n => { n with right := some child }) (fun _ => rfl),
    modify_relabel g _ (fun n => { n with parent := some parent }) (fun _ => rfl)]
  rfl

theorem setRoot_relabel (id : NodeId) :
    (t.relabel g).setRoot id = (t.setRoot id).relabel g := by
  rw [setRoot, modify_relabel g t (fun n => { n with parent := none }) (fun _ => rfl)]
  rfl

theorem exchange_relabel (parent old new : NodeId) :
    (t.relabel g).exchange parent old new =
      ((t.exchange parent old new).1, (t.exchange parent old new).2.relabel g) := by
  unfold exchange
  rw [node_relabel, setLeft_relabel, setRight_relabel]
  show (if (t.node parent).left = some old then _ else
    if (t.node parent).right = some old then _ else _) = _
  split
  · rfl
  · split <;> rfl

end Tree

end WordExpr
