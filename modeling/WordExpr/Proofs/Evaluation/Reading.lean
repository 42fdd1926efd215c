import Mathlib.Data.Set.Finite.Basic
import WordExpr.Proofs.Evaluation.Meaning

/-!
# Reading a formula off an arena

* `Tree.Reads t id x`   the links of the arena below the node `id` read as the formula `x`;
* `Tree.Child`          the links that count: a leaf has none that does, a group only its left one;
* `Node.Sound`          a node that the evaluator expects: a leaf without children whose word the
                        registry has, a group with a left child, or an operator with both.

An arena without a cycle whose nodes are all sound reads as a formula (`Tree.exists_reads`), and a
node reads as at most one formula (`Tree.Reads.unique`), which is lower than the arena is large
(`Tree.Reads.height_lt`). `Tree.Descends` is a test that no arena with a cycle passes.
-/

namespace WordExpr

/-! ## readings -/

inductive Tree.Reads (t : Tree) : NodeId → Formula → Prop where
  | leaf {id : NodeId} {a : Atom} (hs : (t.node id).symbol = some a.symbol)
    (hl : (t.node id).left = none) (hr : (t.node id).right = none) :
    Reads t id (.leaf (t.node id).flags a)
  | group {id c : NodeId} {x : Formula} (hs : (t.node id).symbol = none)
    (hl : (t.node id).left = some c) (h : Reads t c x) : Reads t id (.group (t.node id).flags x)
  | binary {id c d : NodeId} {op : Operator} {x y : Formula}
    (hs : (t.node id).symbol = some (.operator op)) (hl : (t.node id).left = some c)
    (hr : (t.node id).right = some d) (h : Reads t c x) (h' : Reads t d y) :
    Reads t id (.binary (t.node id).flags op x y)

/-- links from a root to the deepest leaf -/
def Formula.height : Formula → Nat
  | leaf _ _ => 0
  | group _ x => x.height + 1
  | binary _ _ x y => max x.height y.height + 1

theorem Tree.node_of_size_le (t : Tree) {id : NodeId} (h : t.size ≤ id) : t.node id = .group := by
  rw [node, Array.getElem?_eq_none h]
  rfl

namespace Tree.Reads

variable {t : Tree} {id : NodeId} {x y : Formula}

theorem lt_size (h : t.Reads id x) : id < t.size := by
  by_contra hid
  have hn := t.node_of_size_le (Nat.le_of_not_lt hid)
  cases h with
  | leaf hs => rw [hn] at hs; cases hs
  | group hs hl => rw [hn] at hl; cases hl
  | binary hs => rw [hn] at hs; cases hs

theorem unique (hx : t.Reads id x) (hy : t.Reads id y) : x = y := by
  induction hx generalizing y with
  | @leaf id a hs hl hr =>
    cases hy with
    | @leaf _ b hs' =>
      have hab : a.symbol.atom? = b.symbol.atom? := by rw [Option.some.inj (hs.symm.trans hs')]
      rw [a.atom?_symbol, b.atom?_symbol] at hab
      rw [Option.some.inj hab]
    | group hs' hl' => cases hl.symm.trans hl'
    | binary hs' hl' => cases hl.symm.trans hl'
  | group hs hl h ih =>
    cases hy with
    | leaf hs' hl' => cases hl.symm.trans hl'
    | group hs' hl' h' =>
      cases hl.symm.trans hl'
      rw [ih h']
    | binary hs' => cases hs.symm.trans hs'
  | binary hs hl hr h h' ih ih' =>
    cases hy with
    | leaf hs' hl' => cases hl.symm.trans hl'
    | group hs' => cases hs.symm.trans hs'
    | binary hs' hl' hr' k k' =>
      cases hs.symm.trans hs'
      cases hl.symm.trans hl'
      cases hr.symm.trans hr'
      rw [ih k, ih' k']

/-! ## height -/

/-- the nodes of a way down to a deepest leaf, all different -/
def Chain (t : Tree) (x : Formula) (ids : List NodeId) : Prop :=
  ids.length = x.height + 1 ∧ ids.Nodup ∧ ∀ i ∈ ids, ∃ y, t.Reads i y ∧ y.height ≤ x.height

theorem Chain.cons {ids : List NodeId} (hc : Chain t y ids) (h : t.Reads id x)
    (hx : x.height = y.height + 1) : Chain t x (id :: ids) := by
  obtain ⟨hlen, hnodup, hread⟩ := hc
  refine ⟨by rw [List.length_cons, hlen, hx], List.nodup_cons.mpr ⟨?_, hnodup⟩, ?_⟩
  · -- the node itself is higher than all nodes below it
    intro hid
    obtain ⟨z, hz, hle⟩ := hread id hid
    rw [hz.unique h] at hle
    omega
  · intro i hi
    rcases List.mem_cons.mp hi with rfl | hi
    · exact ⟨x, h, Nat.le_refl _⟩
    · obtain ⟨z, hz, hle⟩ := hread i hi
      exact ⟨z, hz, by omega⟩

theorem exists_chain (h : t.Reads id x) : ∃ ids, Chain t x ids := by
  induction h with
  | @leaf id a hs hl hr =>
    refine ⟨[id], rfl, List.nodup_singleton id, ?_⟩
    intro i hi
    rw [List.mem_singleton.mp hi]
    exact ⟨_, .leaf hs hl hr, Nat.le_refl _⟩
  | group hs hl h ih =>
    obtain ⟨ids, hc⟩ := ih
    exact ⟨_, hc.cons (.group hs hl h) rfl⟩
  | @binary id c d op x y hs hl hr h h' ih ih' =>
    have hread := Reads.binary hs hl hr h h'
    rcases Nat.le_total x.height y.height with hle | hle
    · obtain ⟨ids, hc⟩ := ih'
      exact ⟨_, hc.cons hread (by rw [Formula.height, Nat.max_eq_right hle])⟩
    · obtain ⟨ids, hc⟩ := ih
      exact ⟨_, hc.cons hread (by rw [Formula.height, Nat.max_eq_left hle])⟩

theorem height_lt (h : t.Reads id x) : x.height < t.size := by
  obtain ⟨ids, hlen, hnodup, hread⟩ := h.exists_chain
  have hsub : ids ⊆ List.range t.size := by
    intro i hi
    obtain ⟨y, hy, -⟩ := hread i hi
    exact List.mem_range.mpr hy.lt_size
  have hle := (hnodup.subperm hsub).length_le
  rw [hlen, List.length_range] at hle
  exact hle

end Tree.Reads

/-! ## arenas without a cycle -/

namespace Tree

def Child (t : Tree) (i j : NodeId) : Prop :=
  (t.node i).left = some j ∨ ((t.node i).isGroup = false ∧ (t.node i).right = some j)

theorem child_left {t : Tree} {i j : NodeId} (hl : (t.node i).left = some j) : t.Child i j :=
  .inl hl

theorem child_right {t : Tree} {i j : NodeId} {op : Operator}
    (hs : (t.node i).symbol = some (.operator op)) (hr : (t.node i).right = some j) :
    t.Child i j :=
  .inr ⟨by rw [Node.isGroup, hs]; rfl, hr⟩

def Reaches (t : Tree) : NodeId → NodeId → Prop := Relation.ReflTransGen t.Child

/-- no node below `id` is below itself -/
def Acyclic (t : Tree) (id : NodeId) : Prop :=
  ∀ j, t.Reaches id j → ¬ Relation.TransGen t.Child j j

/-- every link leads to a later place of the arena -/
def Descends (t : Tree) : Prop :=
  ∀ i < t.size, (∀ j ∈ (t.node i).left, i < j ∧ j < t.size) ∧
    ∀ j ∈ (t.node i).right, i < j ∧ j < t.size

instance (t : Tree) : Decidable t.Descends :=
  inferInstanceAs (Decidable (∀ i < t.size, (∀ j ∈ (t.node i).left, i < j ∧ j < t.size) ∧
    ∀ j ∈ (t.node i).right, i < j ∧ j < t.size))

namespace Descends

variable {t : Tree} {i j : NodeId}

theorem child (h : t.Descends) (hij : t.Child i j) : i < j ∧ j < t.size := by
  by_cases hi : i < t.size
  · rcases hij with hl | ⟨-, hr⟩
    · exact (h i hi).1 j hl
    · exact (h i hi).2 j hr
  · rw [Child, t.node_of_size_le (Nat.le_of_not_lt hi)] at hij
    rcases hij with hl | ⟨-, hr⟩
    · cases hl
    · cases hr

theorem lt_size (h : t.Descends) (hi : i < t.size) (hij : t.Reaches i j) : j < t.size := by
  cases hij with
  | refl => exact hi
  | tail _ hc => exact (h.child hc).2

theorem acyclic (h : t.Descends) (id : NodeId) : t.Acyclic id := by
  intro j _ hcycle
  have hlt : ∀ k, Relation.TransGen t.Child j k → j < k := by
    intro k hk
    induction hk with
    | single hc => exact (h.child hc).1
    | tail _ hc ih => exact Nat.lt_trans ih (h.child hc).1
  exact Nat.lt_irrefl j (hlt j hcycle)

end Descends

end Tree

inductive Node.Sound (r : Registry) (n : Node) : Prop where
  | leaf {a : Atom} {v : UInt64} (hs : n.symbol = some a.symbol) (hl : n.left = none)
    (hr : n.right = none) (ha : r.word? a = some v)
  | group {c : NodeId} (hs : n.symbol = none) (hl : n.left = some c)
  | binary {op : Operator} {c d : NodeId} (hs : n.symbol = some (.operator op))
    (hop : op.isBinary) (hl : n.left = some c) (hr : n.right = some d)

namespace Tree

variable {t : Tree} {r : Registry} {id : NodeId}

theorem lt_size_of_sound (h : (t.node id).Sound r) : id < t.size := by
  by_contra hid
  have hn := t.node_of_size_le (Nat.le_of_not_lt hid)
  rw [hn] at h
  cases h with
  | leaf hs => cases hs
  | group hs hl => cases hl
  | binary hs => cases hs

theorem exists_reads (hac : t.Acyclic id)
    (hs : ∀ j, t.Reaches id j → (t.node j).Sound r) : ∃ x, t.Reads id x ∧ x.Registered r := by
  -- the nodes below `id` are finitely many, so being below is well-founded on them
  let Below := { j // t.Reaches id j }
  have hfin : Finite Below :=
    (Set.finite_lt_nat t.size).subset (fun j hj => lt_size_of_sound (hs j hj))
  let R : Below → Below → Prop := fun a b => Relation.TransGen t.Child b.1 a.1
  have htrans : IsTrans Below R := ⟨fun a b c hab hbc => hbc.trans hab⟩
  have hirrefl : Std.Irrefl R := ⟨fun a => hac a.1 a.2⟩
  have hwf : WellFounded R := Finite.wellFounded_of_trans_of_irrefl R
  suffices h : ∀ b : Below, ∃ x, t.Reads b.1 x ∧ x.Registered r from h ⟨id, .refl⟩
  intro b
  induction b using hwf.induction with
  | h b ih =>
    obtain ⟨j, hj⟩ := b
    have hdown : ∀ c, t.Child j c → ∃ x, t.Reads c x ∧ x.Registered r :=
      fun c hc => ih ⟨c, hj.tail hc⟩ (.single hc)
    cases hs j hj with
    | leaf hsym hl hr ha => exact ⟨_, .leaf hsym hl hr, _, ha⟩
    | group hsym hl =>
      obtain ⟨x, hx, hreg⟩ := hdown _ (child_left hl)
      exact ⟨_, .group hsym hl hx, hreg⟩
    | binary hsym hop hl hr =>
      obtain ⟨x, hx, hregx⟩ := hdown _ (child_left hl)
      obtain ⟨y, hy, hregy⟩ := hdown _ (child_right hsym hr)
      exact ⟨_, .binary hsym hl hr hx hy, hregx, hregy⟩

end Tree

end WordExpr
