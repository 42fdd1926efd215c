import WordExpr.Proofs.Building.Step
import WordExpr.Proofs.Spanning

/-!
# The end of the input

`Builder.finish` gives a tree exactly if all brackets are closed, no flag waits and no operand is
missing (`Represents.finish`, `Represents.of_finish`). The tree then shows the part below the group
around the input.

* `Tree.Shows t q`      the arena holds the part `q`, and the root of the tree is the root of `q`;
* `Tree.Encloses t q`   besides, the group around the input is still at place 0, cut off from `q`.
-/

namespace WordExpr

structure Tree.Shows (t : Tree) (q : Part) : Prop where
  holds : t.Holds (q.entries none)
  root : q.id? = some t.root

namespace Tree.Shows

variable {t : Tree} {q : Part}

theorem spans (h : t.Shows q) : t.Spans (q.outline none) where
  root := (q.id?_outline none).trans h.root
  linked := q.linked_outline none
  holds := h.holds

theorem outline_eq (h : t.Shows q) : t.outline = q.outline none := h.spans.outline_eq

theorem formula?_eq (h : t.Shows q) : t.formula? = q.formula? := by
  unfold Tree.formula?
  rw [h.outline_eq, Part.formula?_outline]

theorem preorder_eq (h : t.Shows q) : t.preorder = (q.entries none).map Prod.fst :=
  h.spans.preorder_eq.trans (Outline.map_entries _).symm

end Tree.Shows

structure Tree.Encloses (t : Tree) (q : Part) : Prop where
  holds : t.Holds ((0, .ofGroup none q.id? {}) :: q.entries none)
  root : q.id? = some t.root

namespace Tree.Encloses

variable {t : Tree} {q : Part}

theorem shows (h : t.Encloses q) : t.Shows q where
  holds := h.holds.sublist (List.sublist_cons_self ..)
  root := h.root

/-- an arena of the right size has no other node -/
theorem exists_entry (h : t.Encloses q) (hsize : t.size = q.size + 1) {i : NodeId}
    (hi : i < t.size) : i = 0 ∨ ∃ e ∈ q.entries none, e.1 = i := by
  let ids := ((0, .ofGroup none q.id? {}) :: q.entries none).map Prod.fst
  have hsub : ids ⊆ List.range t.size := by
    intro j hj
    obtain ⟨e, he, rfl⟩ := List.mem_map.mp hj
    exact List.mem_range.mpr (h.holds.lt e he)
  have hlen : (List.range t.size).length ≤ ids.length := by
    rw [List.length_range, List.length_map, List.length_cons, Part.length_entries]
    exact Nat.le_of_eq hsize
  have hperm := (h.holds.nodup.subperm hsub).perm_of_length_le hlen
  obtain ⟨e, he, hei⟩ := List.mem_map.mp (hperm.mem_iff.mpr (List.mem_range.mpr hi))
  rcases List.mem_cons.mp he with rfl | he
  · exact .inl hei.symm
  · exact .inr ⟨e, he, hei⟩

end Tree.Encloses

/-! ## nodes that lack something -/

theorem Builder.lack?_ofAtom (up : Option NodeId) (f : Flags) (a : Atom) :
    Builder.lack? (.ofAtom up f a) = none := by
  cases a <;> rfl

theorem Part.exists_id?_of_formula? {q : Part} {x : Formula} (h : q.formula? = some x) :
    ∃ i, q.id? = some i := by
  cases q with
  | missing => cases h
  | leaf | group | binary => exact ⟨_, rfl⟩

/-- a part lacks nothing if it is a formula -/
theorem Part.forall_lack?_iff {q : Part} {i : NodeId} (hq : q.id? = some i) (up : Option NodeId) :
    (∀ e ∈ q.entries up, Builder.lack? e.2 = none) ↔ ∃ x, q.formula? = some x := by
  induction q generalizing i up with
  | missing => cases hq
  | leaf id f a =>
    refine iff_of_true ?_ ⟨_, rfl⟩
    rintro e (_ | ⟨_, ⟨⟩⟩)
    exact Builder.lack?_ofAtom up f a
  | group id f p ih =>
    rw [entries_group, List.forall_mem_cons]
    cases hp : p.id? with
    | none =>
      cases p with
      | missing => exact iff_of_false (fun h => Option.some_ne_none _ h.1) (fun ⟨_, h⟩ => nomatch h)
      | leaf | group | binary => cases hp
    | some j =>
      rw [ih hp]
      constructor
      · rintro ⟨-, x, hx⟩
        exact ⟨.group f x, by rw [formula?, hx]; rfl⟩
      · rintro ⟨x, hx⟩
        obtain ⟨y, hy, -⟩ := Option.map_eq_some_iff.mp hx
        exact ⟨rfl, y, hy⟩
  | binary id op l r ihl ihr =>
    rw [entries_binary, List.forall_mem_cons, List.forall_mem_append]
    have hlack : Builder.lack? (.ofOperator up l.id? r.id? op) = none ↔
        l.id?.isSome ∧ r.id?.isSome := by
      show (if l.id?.isNone || r.id?.isNone then _ else _) = _ ↔ _
      cases l.id? <;> cases r.id? <;> simp
    rw [hlack]
    constructor
    · rintro ⟨⟨h1, h2⟩, h3, h4⟩
      obtain ⟨j, hj⟩ := Option.isSome_iff_exists.mp h1
      obtain ⟨k, hk⟩ := Option.isSome_iff_exists.mp h2
      obtain ⟨x, hx⟩ := (ihl hj _).mp h3
      obtain ⟨y, hy⟩ := (ihr hk _).mp h4
      exact ⟨.binary {} op x y, by rw [formula?, hx, hy]⟩
    · rintro ⟨z, hz⟩
      rw [formula?] at hz
      split at hz
      · next x y hx hy =>
        obtain ⟨j, hj⟩ := exists_id?_of_formula? hx
        obtain ⟨k, hk⟩ := exists_id?_of_formula? hy
        exact ⟨⟨by rw [hj]; rfl, by rw [hk]; rfl⟩, (ihl hj _).mpr ⟨x, hx⟩, (ihr hk _).mpr ⟨y, hy⟩⟩
      · cases hz

/-! ## finishing -/

theorem formula?_fill_missing {q : Part} (hq : q.formula? = none) (f : Frame) :
    (f.fill q).formula? = none := by
  cases f with
  | group id fl =>
    show q.formula?.map _ = none
    rw [hq]
    rfl
  | operator id op l =>
    unfold Frame.fill Part.formula?
    rw [hq]
    cases l.formula? <;> rfl

theorem formula?_plug_missing {q : Part} (hq : q.formula? = none) (fs : List Frame) :
    (plug q fs).formula? = none := by
  induction fs generalizing q with
  | nil => exact hq
  | cons f fs ih => exact ih (formula?_fill_missing hq f)

namespace Represents

variable {b : Builder} {fs : List Frame} {p : Part}

/-- the whole is a group at place 0 -/
theorem exists_plug_eq (h : Represents b fs p) : ∃ q, plug p fs = .group 0 {} q := by
  obtain ⟨gs, rfl⟩ := List.getLast?_eq_some_iff.mp h.base
  exact ⟨plug p gs, plug_append p gs _⟩

theorem shows (h : Represents b fs p) : b.tree.Shows (plug p fs) := by
  obtain ⟨q, hq⟩ := h.exists_plug_eq
  exact ⟨h.holds, by rw [hq, h.root]; rfl⟩

/-- the way up ends at node 0, however many links it may still follow -/
theorem ascendFrom_eq_zero (h : Represents b fs p) {fuel : Nat} (hf : b.tree.size ≤ fuel) :
    b.tree.ascendFrom (fun _ => true) fuel b.current = 0 := by
  obtain ⟨q, hq⟩ := h.exists_plug_eq
  obtain ⟨f, gs, rfl⟩ := h.exists_cons
  have hlen := h.holds.length_frames
  have hholds : b.tree.Holds ((plug p (f :: (gs ++ []))).entries none) := by
    rw [List.append_nil]
    exact h.holds
  have hup : some (b.tree.ascendFrom (fun _ => true) fuel f.id) = _ :=
    hholds.ascendFrom_eq _ (fun _ _ _ _ => rfl) (fun _ hf => nomatch hf)
      (Nat.lt_of_lt_of_le hlen hf)
  rw [hq, ← h.current_eq] at hup
  exact Option.some.inj hup

theorem findRoot_eq (h : Represents b fs p) : b.tree.findRoot b.current = 0 :=
  h.ascendFrom_eq_zero (Nat.le_refl _)

variable {q : Part}

theorem node_zero (h : Represents b fs p) (hq : plug p fs = .group 0 {} q) :
    b.tree.node 0 = .ofGroup none q.id? {} := by
  have hh := h.holds
  rw [hq, Part.entries_group] at hh
  exact hh.node (0, .ofGroup none q.id? {}) (List.mem_cons_self ..)

theorem preorder_eq (h : Represents b fs p) (hq : plug p fs = .group 0 {} q) :
    b.tree.preorder = 0 :: (q.entries (some 0)).map Prod.fst := by
  rw [h.shows.preorder_eq, hq, Part.entries_group]
  rfl

/-- what the last look at the tree finds -/
theorem findSome?_lack?_eq_none_iff (h : Represents b fs p) (hq : plug p fs = .group 0 {} q)
    {i : NodeId} (hi : q.id? = some i) :
    b.tree.preorder.findSome? (fun id => Builder.lack? (b.tree.node id)) = none ↔
      ∃ x, q.formula? = some x := by
  have hh := h.holds
  rw [hq, Part.entries_group] at hh
  rw [← Part.forall_lack?_iff hi (some 0), List.findSome?_eq_none_iff, h.preorder_eq hq,
    List.forall_mem_cons, h.node_zero hq, hi]
  refine Iff.trans (and_iff_right rfl) ?_
  constructor
  · intro hl e he
    have := hl e.1 (List.mem_map_of_mem he)
    rwa [hh.node e (List.mem_cons_of_mem _ he)] at this
  · intro hl j hj
    obtain ⟨e, he, rfl⟩ := List.mem_map.mp hj
    rw [hh.node e (List.mem_cons_of_mem _ he)]
    exact hl e he

/-- the tree without the group around it -/
theorem encloses_setRoot (h : Represents b fs p) (hq : plug p fs = .group 0 {} q) {i : NodeId}
    (hi : q.id? = some i) : (b.tree.setRoot i).Encloses q := by
  have hh := h.holds
  rw [hq, Part.entries_group] at hh
  obtain ⟨n, es, hent⟩ := Part.exists_entries_eq_cons hi
  rw [hent] at hh
  have hnd := hh.nodup
  rw [List.map_cons, List.map_cons, List.nodup_cons, List.nodup_cons] at hnd
  have hi0 : i ≠ 0 := fun h0 => hnd.1 (h0 ▸ List.mem_cons_self ..)
  have hnode : ∀ j < b.tree.size, (b.tree.setRoot i).node j =
      if i = j then { b.tree.node j with parent := none } else b.tree.node j :=
    fun j hj => b.tree.node_modify i j _ hj
  have hsize : (b.tree.setRoot i).size = b.tree.size := b.tree.size_modify i _
  have hlt0 : 0 < b.tree.size := hh.lt (0, .ofGroup none q.id? {}) (List.mem_cons_self ..)
  have hlti : i < b.tree.size := hh.lt (i, { n with parent := some 0 }) (by simp)
  have hlt : ∀ e ∈ es, e.1 < b.tree.size := fun e he =>
    hh.lt e (List.mem_cons_of_mem _ (List.mem_cons_of_mem _ he))
  refine ⟨?_, hi⟩
  rw [hent]
  refine ⟨?_, ?_, ?_⟩
  · rw [hsize]
    exact List.forall_mem_cons.mpr ⟨hlt0, List.forall_mem_cons.mpr ⟨hlti, hlt⟩⟩
  · refine List.forall_mem_cons.mpr ⟨?_, List.forall_mem_cons.mpr ⟨?_, fun e he => ?_⟩⟩
    · rw [hnode 0 hlt0, if_neg hi0]
      exact hh.node (0, .ofGroup none q.id? {}) (List.mem_cons_self ..)
    · rw [hnode i hlti, if_pos rfl, hh.node (i, { n with parent := some 0 }) (by simp)]
    · have hmem : e.1 ∈ es.map Prod.fst := List.mem_map_of_mem he
      have hne : i ≠ e.1 := fun heq => hnd.2.1 (heq ▸ hmem)
      rw [hnode e.1 (hlt e he), if_neg hne]
      exact hh.node e (List.mem_cons_of_mem _ (List.mem_cons_of_mem _ he))
  · exact List.nodup_cons.mpr ⟨hnd.1, List.nodup_cons.mpr hnd.2⟩

/-- a finished input gives a tree -/
theorem finish (h : Represents b fs p) (hd : b.depth = 0) (hb : b.hasPending = false)
    (hq : plug p fs = .group 0 {} q) {x : Formula} (hx : q.formula? = some x) :
    ∃ t, b.finish = .ok t ∧ t.Encloses q ∧ t.size = b.tree.size := by
  obtain ⟨i, hi⟩ := Part.exists_id?_of_formula? hx
  refine ⟨b.tree.setRoot i, ?_, h.encloses_setRoot hq hi, b.tree.size_modify i _⟩
  have hl := (h.findSome?_lack?_eq_none_iff hq hi).mpr ⟨x, hx⟩
  have hleft : (b.tree.node 0).left = some i := by
    rw [h.node_zero hq, hi]
    rfl
  rw [Builder.finish, if_neg (not_not_intro hd), hb, h.findRoot_eq]
  simp only [hleft, hl, Bool.false_eq_true, if_false]

/-- an input that gives a tree is finished -/
theorem of_finish (h : Represents b fs p) {t : Tree} (ht : b.finish = .ok t) :
    b.depth = 0 ∧ b.hasPending = false ∧
      ∃ q x, plug p fs = .group 0 {} q ∧ q.formula? = some x := by
  obtain ⟨q, hq⟩ := h.exists_plug_eq
  rw [Builder.finish] at ht
  split at ht
  · cases ht
  next hd =>
  split at ht
  · cases ht
  next hb =>
  refine ⟨by simpa using hd, by simpa using hb, q, ?_⟩
  rw [h.findRoot_eq] at ht
  have hleft : (b.tree.node 0).left = q.id? := by
    rw [h.node_zero hq]
    rfl
  simp only [hleft] at ht
  split at ht
  · cases ht
  next i hi =>
  split at ht
  · cases ht
  next hl =>
  obtain ⟨x, hx⟩ := (h.findSome?_lack?_eq_none_iff hq hi).mp hl
  exact ⟨x, hq, hx⟩

end Represents

end WordExpr
