import Mathlib.Logic.Function.Iterate
import WordExpr.Proofs.Spanning

/-!
# The order of the stack walk

* `Tree.DepthFirst`    the nodes below a place by recursion: the node there, its left subtree, its
                       right one. No other list is that (`DepthFirst.unique`), and the links of an
                       arena form a finite tree when there is one without repetitions
                       (`treelike_iff_exists_depthFirst`);
* `Tree.LeftOf`        the paths to two nodes part, and the one to the first goes to the left;
* `Tree.turn`          one turn of the walk, however many are made: the node on top of the stack is
                       visited, and its children take its place;
* `Tree.Forest`        the nodes that a stack still leads to, one subtree behind the other. A turn
                       visits the first of them and leaves the others (`Forest.turn`).

`Tree.depthFirst_preorder` says that the stack walk follows the recursion.
-/

namespace WordExpr

namespace Tree

variable {t : Tree} {o : Outline} {place : Option NodeId} {ids : List NodeId} {i : NodeId}

/-! ## the recursion -/

inductive DepthFirst (t : Tree) : Option NodeId → List NodeId → Prop where
  | missing : t.DepthFirst none []
  | node {id : NodeId} {l r : List NodeId} (hid : id < t.size)
    (hl : t.DepthFirst (t.node id).left l) (hr : t.DepthFirst (t.node id).right r) :
    t.DepthFirst (some id) (id :: (l ++ r))

/-- where the arena has the nodes of an outline, the recursion finds them -/
theorem depthFirst_toList (hl : o.Linked) (hlt : ∀ e ∈ o.entries, e.1 < t.size)
    (hn : ∀ e ∈ o.entries, t.node e.1 = e.2) : t.DepthFirst o.id? o.toList := by
  induction o with
  | empty => exact .missing
  | node id n l r ihl ihr =>
    obtain ⟨el, er, hll, hlr⟩ := hl
    rw [Outline.entries, List.forall_mem_cons, List.forall_mem_append] at hlt hn
    obtain ⟨hid, hltl, hltr⟩ := hlt
    obtain ⟨hnode, hnl, hnr⟩ := hn
    have hnode : t.node id = n := hnode
    refine .node hid ?_ ?_
    · rw [hnode, el]
      exact ihl hll hltl hnl
    · rw [hnode, er]
      exact ihr hlr hltr hnr

namespace DepthFirst

theorem exists_outline (h : t.DepthFirst place ids) : ∃ o : Outline, o.id? = place ∧
    o.toList = ids ∧ o.Linked ∧ (∀ e ∈ o.entries, e.1 < t.size) ∧
    ∀ e ∈ o.entries, t.node e.1 = e.2 := by
  induction h with
  | missing => exact ⟨.empty, rfl, rfl, trivial, List.forall_mem_nil _, List.forall_mem_nil _⟩
  | @node id _ _ hid _ _ ihl ihr =>
    obtain ⟨l, el, rfl, hll, hltl, hnl⟩ := ihl
    obtain ⟨r, er, rfl, hlr, hltr, hnr⟩ := ihr
    refine ⟨.node id (t.node id) l r, rfl, rfl, ⟨el.symm, er.symm, hll, hlr⟩, ?_, ?_⟩
    · rw [Outline.entries, List.forall_mem_cons, List.forall_mem_append]
      exact ⟨hid, hltl, hltr⟩
    · rw [Outline.entries, List.forall_mem_cons, List.forall_mem_append]
      exact ⟨rfl, hnl, hnr⟩

theorem unique {ids' : List NodeId} (h : t.DepthFirst place ids) (h' : t.DepthFirst place ids') :
    ids = ids' := by
  induction h generalizing ids' with
  | missing =>
    cases h'
    rfl
  | node hid hl hr ihl ihr =>
    cases h' with
    | node hid' hl' hr' => rw [ihl hl', ihr hr']

/-- the nodes that paths lead to -/
theorem mem_iff (h : t.DepthFirst place ids) :
    i ∈ ids ↔ ∃ path, t.follow path place = some i := by
  obtain ⟨o, rfl, rfl, hl, -, hn⟩ := h.exists_outline
  exact (exists_follow_iff hl hn).symm

/-- the nodes below a node are side by side -/
theorem exists_isInfix {path : List Side} (h : t.DepthFirst place ids)
    (hp : t.follow path place = some i) : ∃ sub, t.DepthFirst (some i) sub ∧ sub <:+: ids := by
  induction h generalizing path with
  | missing => cases (t.follow_none path).symm.trans hp
  | @node id l r hid hl hr ihl ihr =>
    rcases path with _ | ⟨_ | _, path⟩
    · cases hp
      exact ⟨_, .node hid hl hr, List.infix_refl _⟩
    · obtain ⟨sub, hsub, hin⟩ := ihl hp
      have hleft : l <:+: id :: (l ++ r) := ⟨[id], r, rfl⟩
      exact ⟨sub, hsub, hin.trans hleft⟩
    · obtain ⟨sub, hsub, hin⟩ := ihr hp
      have hright : r <:+: id :: (l ++ r) := ⟨id :: l, [], List.append_nil _⟩
      exact ⟨sub, hsub, hin.trans hright⟩

end DepthFirst

theorem Spans.nodup_preorder (h : t.Spans o) : t.preorder.Nodup := by
  rw [h.preorder_eq]
  exact h.nodup

theorem Spans.depthFirst (h : t.Spans o) : t.DepthFirst (some t.root) t.preorder := by
  rw [h.preorder_eq, ← h.root]
  exact depthFirst_toList h.linked h.holds.lt h.holds.node

/-- the links form a finite tree exactly when the recursion ends and meets no node twice -/
theorem treelike_iff_exists_depthFirst :
    t.Treelike ↔ ∃ ids, t.DepthFirst (some t.root) ids ∧ ids.Nodup := by
  constructor
  · intro h
    exact ⟨t.preorder, h.spans.depthFirst, h.spans.nodup_preorder⟩
  · rintro ⟨_, h, hnd⟩
    obtain ⟨o, hroot, rfl, hlinked, hlt, hn⟩ := h.exists_outline
    rw [← o.map_entries] at hnd
    exact Spans.treelike ⟨hroot, hlinked, hlt, hn, hnd⟩

/-! ## left and right -/

def LeftOf (t : Tree) (place : Option NodeId) (i j : NodeId) : Prop :=
  ∃ p q r, t.follow (p ++ .left :: q) place = some i ∧ t.follow (p ++ .right :: r) place = some j

/-- the one node is on the way to the other -/
def Above (t : Tree) (place : Option NodeId) (i j : NodeId) : Prop :=
  ∃ p side q, t.follow p place = some i ∧ t.follow (p ++ side :: q) place = some j

section

variable {id j : NodeId}

theorem LeftOf.of_child (side : Side) (h : t.LeftOf ((t.node id).child side) i j) :
    t.LeftOf (some id) i j := by
  obtain ⟨p, q, r, hi, hj⟩ := h
  exact ⟨side :: p, q, r, hi, hj⟩

theorem Above.of_child (side : Side) (h : t.Above ((t.node id).child side) i j) :
    t.Above (some id) i j := by
  obtain ⟨p, last, q, hi, hj⟩ := h
  exact ⟨side :: p, last, q, hi, hj⟩

theorem follow_child_of_isLeaf (h : (t.node i).isLeaf = true) (side : Side) (path : List Side) :
    t.follow (side :: path) (some i) = none := by
  rw [Node.isLeaf, Bool.and_eq_true, Bool.and_eq_true, Option.isNone_iff_eq_none,
    Option.isNone_iff_eq_none] at h
  obtain ⟨⟨hl, hr⟩, -⟩ := h
  cases side with
  | left => rw [follow_left, hl, follow_none]
  | right => rw [follow_right, hr, follow_none]

theorem not_above_of_isLeaf (h : (t.node i).isLeaf = true) : ¬ t.Above place i j := by
  rintro ⟨p, side, q, hi, hj⟩
  rw [follow_append, hi, follow_child_of_isLeaf h] at hj
  cases hj

end

/-- of two nodes the first one is above or on the left -/
theorem DepthFirst.pairwise (h : t.DepthFirst place ids) :
    ids.Pairwise fun i j => t.Above place i j ∨ t.LeftOf place i j := by
  induction h with
  | missing => exact .nil
  | @node id l r hid hl hr ihl ihr =>
    rw [List.pairwise_cons, List.pairwise_append]
    refine ⟨?_, ?_, ?_, ?_⟩
    -- the node is above all others, and its left subtree is on the left of its right one
    · intro j hj
      rcases List.mem_append.mp hj with hj | hj
      · obtain ⟨path, hpath⟩ := hl.mem_iff.mp hj
        exact .inl ⟨[], .left, path, rfl, hpath⟩
      · obtain ⟨path, hpath⟩ := hr.mem_iff.mp hj
        exact .inl ⟨[], .right, path, rfl, hpath⟩
    · exact ihl.imp (Or.imp (Above.of_child .left) (LeftOf.of_child .left))
    · exact ihr.imp (Or.imp (Above.of_child .right) (LeftOf.of_child .right))
    · intro i hi j hj
      obtain ⟨p, hp⟩ := hl.mem_iff.mp hi
      obtain ⟨q, hq⟩ := hr.mem_iff.mp hj
      exact .inr ⟨[], p, q, hp, hq⟩

end Tree

/-! ## turns of the walk -/

/-- the nodes that a walk has visited, and the stack of those it still has to, the next one first -/
structure Walker where
  order : List NodeId
  stack : List NodeId
deriving DecidableEq, Repr

namespace Tree

variable {t : Tree} {place : Option NodeId} {stack ids rest : List NodeId} {w : Walker}

/-- The children of the node on top go on the stack, the left one on top. On an empty stack the walk
has ended. -/
def turn (t : Tree) (w : Walker) : Walker :=
  match w.stack with
  | [] => w
  | id :: stack =>
    ⟨w.order ++ [id], (t.node id).left.toList ++ ((t.node id).right.toList ++ stack)⟩

/-- a walk from the root after `k` turns -/
def walked (t : Tree) (k : Nat) : Walker := t.turn^[k] ⟨[], [t.root]⟩

inductive Forest (t : Tree) : List NodeId → List NodeId → Prop where
  | nil : t.Forest [] []
  | cons {id : NodeId} {ids stack rest : List NodeId} (h : t.DepthFirst (some id) ids)
    (hs : t.Forest stack rest) : t.Forest (id :: stack) (ids ++ rest)

namespace Forest

/-- a child that is missing adds nothing to the stack and to what it leads to -/
theorem push (hs : t.Forest stack rest) (h : t.DepthFirst place ids) :
    t.Forest (place.toList ++ stack) (ids ++ rest) := by
  cases h with
  | missing => exact hs
  | node hid hl hr => exact .cons (.node hid hl hr) hs

theorem head?_eq (h : t.Forest stack ids) : stack.head? = ids.head? := by
  cases h with
  | nil => rfl
  | cons h hs =>
    cases h
    rfl

theorem turn (h : t.Forest w.stack ids) :
    (t.turn w).order = w.order ++ ids.take 1 ∧ t.Forest (t.turn w).stack (ids.drop 1) := by
  obtain ⟨order, stack⟩ := w
  cases h with
  | nil => exact ⟨(List.append_nil order).symm, .nil⟩
  | cons h hs =>
    cases h with
    | @node id l r hid hl hr =>
      refine ⟨rfl, ?_⟩
      show t.Forest _ ((l ++ r) ++ _)
      rw [List.append_assoc]
      exact (hs.push hr).push hl

/-- after `k` turns the first `k` nodes have been visited, and the others are ahead -/
theorem turns (h : t.Forest w.stack ids) (k : Nat) :
    (t.turn^[k] w).order = w.order ++ ids.take k ∧ t.Forest (t.turn^[k] w).stack (ids.drop k) := by
  induction k with
  | zero => exact ⟨(List.append_nil _).symm, h⟩
  | succ k ih =>
    obtain ⟨horder, hstack⟩ := ih
    obtain ⟨horder', hstack'⟩ := hstack.turn
    rw [Function.iterate_succ_apply', horder', horder, List.append_assoc, ← List.take_add]
    rw [List.drop_drop] at hstack'
    exact ⟨rfl, hstack'⟩

end Forest

theorem DepthFirst.walked (h : t.DepthFirst (some t.root) ids) (k : Nat) :
    (t.walked k).order = ids.take k ∧ (t.walked k).stack.head? = ids[k]? := by
  have hstart : t.Forest [t.root] (ids ++ []) := .cons h .nil
  rw [List.append_nil] at hstart
  obtain ⟨horder, hstack⟩ := Forest.turns (w := ⟨[], [t.root]⟩) hstart k
  exact ⟨horder, hstack.head?_eq.trans List.head?_drop⟩

/-- the walk ends after as many turns as there are nodes, and not before -/
theorem DepthFirst.stack_walked_eq_nil_iff (h : t.DepthFirst (some t.root) ids) (k : Nat) :
    (t.walked k).stack = [] ↔ ids.length ≤ k := by
  obtain ⟨-, htop⟩ := h.walked k
  rw [← List.head?_eq_none_iff, htop, List.getElem?_eq_none_iff]

/-- **The stack walk lists what the recursion lists.** In an arena whose links form a finite tree
these are the nodes that paths lead to, each of them once. Without a bound the walk makes as many
turns as there are such nodes and ends: after `k` turns the first `k` of them have been visited, and
the next one is on top of the stack. The nodes below any node are side by side, in the order of the
recursion from there, and the leaves stand from left to right. -/
theorem depthFirst_preorder (h : t.Treelike) :
    t.DepthFirst (some t.root) t.preorder ∧ t.preorder.Nodup ∧ (∀ i ∈ t.preorder, i < t.size) ∧
    (∀ i, i ∈ t.preorder ↔ ∃ path, t.follow path (some t.root) = some i) ∧
    (∀ k, (t.walked k).order = t.preorder.take k ∧
      (t.walked k).stack.head? = t.preorder[k]? ∧
      ((t.walked k).stack = [] ↔ t.preorder.length ≤ k)) ∧
    (∀ path i, t.follow path (some t.root) = some i → ∃ sub, t.DepthFirst (some i) sub ∧
      (∀ j, j ∈ sub ↔ ∃ path, t.follow path (some i) = some j) ∧ sub <:+: t.preorder) ∧
    (∀ i, i ∈ t.leaves ↔
      (∃ path, t.follow path (some t.root) = some i) ∧ (t.node i).isLeaf = true) ∧
    t.leaves.Pairwise (t.LeftOf (some t.root)) := by
  have hlist := h.spans.depthFirst
  refine ⟨hlist, h.spans.nodup_preorder, fun i hi => ?_, fun i => hlist.mem_iff, fun k => ?_,
    fun path i hp => ?_, fun i => ?_, ?_⟩
  · obtain ⟨path, hp⟩ := hlist.mem_iff.mp hi
    exact h.inside path i hp
  · obtain ⟨horder, htop⟩ := hlist.walked k
    exact ⟨horder, htop, hlist.stack_walked_eq_nil_iff k⟩
  · obtain ⟨sub, hsub, hin⟩ := hlist.exists_isInfix hp
    exact ⟨sub, hsub, fun j => hsub.mem_iff, hin⟩
  · rw [← hlist.mem_iff]
    exact List.mem_filter
  -- nothing is below a leaf, so of two leaves the first one is on the left
  · have hpairs : t.leaves.Pairwise fun i j =>
        t.Above (some t.root) i j ∨ t.LeftOf (some t.root) i j := hlist.pairwise.filter _
    refine hpairs.imp_of_mem fun hi _ hij => ?_
    obtain ⟨-, hleaf⟩ := List.mem_filter.mp hi
    exact hij.resolve_left (not_above_of_isLeaf hleaf)

/-- the tree of `(a + b) * ~c`, its nodes out of order and one beside it that points into it -/
theorem depthFirst_preorder_detached : ∃ t : Tree,
    t = ⟨#[{ parent := some 4, symbol := some (.term "c"), complement := true },
      { left := some 0, right := some 5, symbol := some (.operator .sub) },
      { parent := some 5, symbol := some (.term "b") },
      { parent := some 5, symbol := some (.term "a") },
      { left := some 6, right := some 0, symbol := some (.operator .mul) },
      { parent := some 6, left := some 3, right := some 2, symbol := some (.operator .add) },
      { parent := some 4, left := some 5 }], 4⟩ ∧
    t.Treelike ∧ t.preorder = [4, 6, 5, 3, 2, 0] ∧ (t.walked 3).order = [4, 6, 5] ∧
    (t.walked 6).stack = [] ∧ t.leaves = [3, 2, 0] ∧ t.LeftOf (some 4) 3 0 := by
  refine ⟨_, rfl, ?_⟩
  generalize ht : (Tree.mk _ _) = t
  have hlist : t.DepthFirst (some t.root) [4, 6, 5, 3, 2, 0] := by
    subst ht
    refine .node (l := [6, 5, 3, 2]) (r := [0]) (by decide) ?_ ?_
    · refine .node (l := [5, 3, 2]) (r := []) (by decide) ?_ .missing
      refine .node (l := [3]) (r := [2]) (by decide) ?_ ?_
      · exact .node (l := []) (r := []) (by decide) .missing .missing
      · exact .node (l := []) (r := []) (by decide) .missing .missing
    · exact .node (l := []) (r := []) (by decide) .missing .missing
  have htree : t.Treelike := treelike_iff_exists_depthFirst.mpr ⟨_, hlist, by decide⟩
  obtain ⟨hrec, -, -, -, hturns, -, -, hleft⟩ := depthFirst_preorder htree
  have hpre := hrec.unique hlist
  have hleaves : t.leaves = [3, 2, 0] := by
    rw [leaves, hpre, ← ht]
    decide
  rw [hleaves] at hleft
  rw [hpre] at hturns
  refine ⟨htree, hpre, (hturns 3).1, (hturns 6).2.2.mpr (Nat.le_refl 6), hleaves, ?_⟩
  subst ht
  exact (List.pairwise_cons.mp hleft).1 0 (by decide)

end Tree

end WordExpr
