import Mathlib.Data.List.Chain
import WordExpr.Proofs.Building.Standing

/-!
# The arena of a builder

What holds of the arena after any tokens, those that were refused included.

* `Outline.ParentedBy`     every node names the node that holds it;
* `Builder.Way b ids`      the way from node 0 down to the cursor;
* `Builder.Sound`          the links form a tree, the cursor is on its way, and nothing but the node
                           at the cursor lacks an operand;
* `Builder.Exchanges`      what an operator that binds no tighter takes over is held by a node
                           above.

`Builder.Sound` is read off the frames of a builder that stands, and `Builder.pushEach_sound` says
what it makes of the climbs through the arena: each one ends where the builder expects it to.
-/

namespace WordExpr

/-! ## parents and children -/

/-- every node names the node that holds it -/
def Outline.ParentedBy : Option NodeId → Outline → Prop
  | _, empty => True
  | up, node id n l r => n.parent = up ∧ l.ParentedBy (some id) ∧ r.ParentedBy (some id)

/-- a leaf has no children, a group no right one -/
structure Node.Shaped (n : Node) : Prop where
  group : n.isGroup → n.right = none
  leaf : n.isGroup = false → n.operator? = none → n.left = none ∧ n.right = none

namespace Part

theorem parentedBy_outline (up : Option NodeId) (p : Part) : (p.outline up).ParentedBy up := by
  induction p generalizing up with
  | missing => exact trivial
  | leaf id f a => exact ⟨rfl, trivial, trivial⟩
  | group id f p ih => exact ⟨rfl, ih _, trivial⟩
  | binary id op l r ihl ihr => exact ⟨rfl, ihl _, ihr _⟩

theorem shaped_entries (up : Option NodeId) (p : Part) : ∀ e ∈ p.entries up, e.2.Shaped := by
  induction p generalizing up with
  | missing => exact fun e he => nomatch he
  | leaf id f a =>
    rw [entries_leaf, List.forall_mem_singleton]
    exact ⟨fun _ => rfl, fun _ _ => ⟨rfl, rfl⟩⟩
  | group id f p ih =>
    rw [entries_group, List.forall_mem_cons]
    exact ⟨⟨fun _ => rfl, nofun⟩, ih _⟩
  | binary id op l r ihl ihr =>
    rw [entries_binary, List.forall_mem_cons, List.forall_mem_append]
    exact ⟨⟨nofun, nofun⟩, ihl _, ihr _⟩

/-- a formula lacks nothing -/
theorem lack?_eq_none {q : Part} {x : Formula} (hx : q.formula? = some x) (up : Option NodeId) :
    ∀ e ∈ q.entries up, Builder.lack? e.2 = none := by
  obtain ⟨i, hi⟩ := exists_id?_of_formula? hx
  exact (forall_lack?_iff hi up).mpr ⟨x, hx⟩

end Part

/-! ## frames -/

/-- the child that a way down follows: the left one of a group, the right one of an operator -/
def Node.onward (n : Node) : Option NodeId := if n.isGroup then n.left else n.right

namespace Frame

variable (f : Frame) (up child : Option NodeId)

theorem onward_node : (f.node up child).onward = child := by cases f <;> rfl

theorem isGroup_node : (f.node up child).isGroup = f.isGroup := by cases f <;> rfl

/-- the operator of a frame -/
def operator? : Frame → Option Operator
  | group _ _ => none
  | operator _ op _ => some op

theorem operator?_node : (f.node up child).operator? = f.operator? := by cases f <;> rfl

end Frame

namespace Spine

variable {fs : List Frame}

/-- with its free place taken, a spine lacks nothing -/
theorem lack?_eq_none (h : Spine fs) (c : NodeId) :
    ∀ e ∈ context (some c) fs, Builder.lack? e.2 = none := by
  induction h generalizing c with
  | base =>
    rw [context, List.forall_mem_cons]
    exact ⟨rfl, List.forall_mem_nil _⟩
  | opening id f h ih =>
    rw [context, List.forall_mem_cons]
    exact ⟨rfl, ih id⟩
  | @operator fs op l x id h hl hr ih =>
    rw [context, List.forall_mem_cons]
    obtain ⟨i, hi⟩ := Part.exists_id?_of_formula? hl
    refine ⟨?_, List.forall_mem_append.mpr ⟨Part.lack?_eq_none hl _, ih id⟩⟩
    show Builder.lack? (.ofOperator _ l.id? _ op) = none
    rw [hi]
    rfl

/-- whatever is in its free place, only the innermost node may lack something -/
theorem lack?_eq_none_of_ne (h : Spine fs) (child : Option NodeId) :
    ∀ e ∈ context child fs, some e.1 ≠ top fs → Builder.lack? e.2 = none := by
  cases child with
  | some c => exact fun e he _ => h.lack?_eq_none c e he
  | none =>
    intro e he hne
    cases h with
    | base => exact absurd (by rw [List.mem_singleton.mp he]; rfl) hne
    | opening id f h =>
      rcases List.mem_cons.mp he with rfl | he
      · exact absurd rfl hne
      · exact h.lack?_eq_none id e he
    | operator id h hl hr =>
      rcases List.mem_cons.mp he with rfl | he
      · exact absurd rfl hne
      · rcases List.mem_append.mp he with he | he
        · exact Part.lack?_eq_none hl _ e he
        · exact h.lack?_eq_none id e he

/-- an operator right below another one binds tighter -/
theorem isChain_level (h : Spine fs) : fs.IsChain fun below above =>
    ∀ op op', below.operator? = some op → above.operator? = some op' → op'.level < op.level := by
  induction h with
  | base => exact .singleton _
  | opening id f h ih => exact List.isChain_cons.mpr ⟨fun _ _ _ _ => nofun, ih⟩
  | @operator fs op l x id h hl hr ih =>
    refine List.isChain_cons.mpr ⟨fun above hab op₁ op₂ h₁ h₂ => ?_, ih⟩
    cases h₁
    have hb : above.binds op = false := hr above hab
    cases above with
    | group id f => cases h₂
    | operator id op' l' =>
      cases h₂
      simpa [Frame.binds] using hb

end Spine

/-! ## the invariant -/

namespace Builder

/-- the nodes from the cursor up to node 0 -/
structure Way (b : Builder) (ids : List NodeId) : Prop where
  cursor : ids.head? = some b.current
  outermost : ids.getLast? = some 0
  links : ids.IsChain fun below above => (b.tree.node above).onward = some below
  inner : ∀ i ∈ ids, (b.tree.node i).isGroup ∨ (b.tree.node i).operator?.isSome
  groups : ids.countP (fun i => i ≠ 0 && (b.tree.node i).isGroup) = b.depth
  tighter : ids.IsChain fun below above => ∀ op op', (b.tree.node below).operator? = some op →
    (b.tree.node above).operator? = some op' → op'.level < op.level

structure Sound (b : Builder) : Prop where
  linked : (b.tree.outlineAt 0).Linked
  nodup : (b.tree.outlineAt 0).toList.Nodup
  inside : ∀ i ∈ (b.tree.outlineAt 0).toList, i < b.tree.size
  parents : (b.tree.outlineAt 0).ParentedBy none
  base : (b.tree.node 0).isGroup ∧ (b.tree.node 0).flags = {} ∧ (b.tree.node 0).parent = none
  way : ∃ ids, b.Way ids
  operators : ∀ i ∈ (b.tree.outlineAt 0).toList, i ≠ b.current →
    (b.tree.node i).operator?.isSome → (b.tree.node i).left.isSome ∧ (b.tree.node i).right.isSome
  groups : ∀ i ∈ (b.tree.outlineAt 0).toList, i ≠ b.current →
    (b.tree.node i).isGroup → (b.tree.node i).left.isSome
  shaped : ∀ i ∈ (b.tree.outlineAt 0).toList, (b.tree.node i).Shaped

/-- what an operator takes over when it binds no tighter than the one at the cursor is held by a
node above, which exchanges it for the new operator -/
def Exchanges (b : Builder) (op : Operator) : Prop :=
  let (new, tree) := b.tree.alloc (.binary op)
  let anchor := tree.ascend (bindsAtLeast op) b.current
  ∃ above, (tree.node anchor).parent = some above ∧ (tree.exchange above anchor new).1 = true

theorem left_isSome_of_lack? {n : Node} (h : lack? n = none) (hn : n.isGroup) :
    n.left.isSome := by
  have hop : n.operator? = none := by
    rw [Node.operator?, Option.isNone_iff_eq_none.mp hn]
    rfl
  unfold lack? at h
  rw [hop, hn] at h
  cases hl : n.left with
  | none => simp [hl] at h
  | some c => rfl

theorem both_isSome_of_lack? {n : Node} (h : lack? n = none) (hn : n.operator?.isSome) :
    n.left.isSome ∧ n.right.isSome := by
  obtain ⟨op, hop⟩ := Option.isSome_iff_exists.mp hn
  unfold lack? at h
  rw [hop] at h
  cases hl : n.left <;> cases hr : n.right <;> simp [hl, hr] at h ⊢

end Builder

namespace Represents

variable {b : Builder} {fs : List Frame} {p : Part}

theorem outlineAt_eq (h : Represents b fs p) : b.tree.outlineAt 0 = (plug p fs).outline none := by
  rw [← h.shows.outline_eq, Tree.outline, h.root]

theorem exists_entry (h : Represents b fs p) {i : NodeId}
    (hi : i ∈ (b.tree.outlineAt 0).toList) :
    ∃ e ∈ (plug p fs).entries none, e.1 = i ∧ b.tree.node i = e.2 := by
  rw [h.outlineAt_eq, ← Outline.map_entries] at hi
  obtain ⟨e, he, rfl⟩ := List.mem_map.mp hi
  exact ⟨e, he, rfl, h.holds.node e he⟩

/-- only the node at the cursor may lack something -/
theorem lack?_eq_none (h : Represents b fs p) (hs : Spine fs)
    (hp : p = .missing ∨ ∃ x, p.formula? = some x) {i : NodeId}
    (hi : i ∈ (b.tree.outlineAt 0).toList) (hne : i ≠ b.current) :
    Builder.lack? (b.tree.node i) = none := by
  obtain ⟨e, he, rfl, hn⟩ := h.exists_entry hi
  rw [hn]
  rcases List.mem_append.mp ((entries_plug p fs).mem_iff.mp he) with he | he
  · rcases hp with rfl | ⟨x, hx⟩
    · cases he
    · exact Part.lack?_eq_none hx _ e he
  · refine hs.lack?_eq_none_of_ne _ e he ?_
    rw [h.current]
    exact fun heq => hne (Option.some.inj heq)

/-! ## the way to the cursor -/

theorem node_frame (h : Represents b fs p) {f : Frame} (hf : f ∈ fs) :
    ∃ up child, b.tree.node f.id = f.node up child := by
  obtain ⟨gs, rest, rfl⟩ := List.append_of_mem hf
  exact ⟨_, _, h.holds.node_frame⟩

/-- only the outermost frame is at node 0: the others have a parent -/
theorem id_ne_zero {gs : List Frame} (h : Represents b (gs ++ [.group 0 {}]) p) {f : Frame}
    (hf : f ∈ gs) : f.id ≠ 0 := by
  obtain ⟨xs, ys, rfl⟩ := List.append_of_mem hf
  intro h0
  have hf : b.tree.node f.id = f.node (top (ys ++ [.group 0 {}])) (plug p xs).id? :=
    Tree.Holds.node_frame xs (by simpa using h.holds)
  obtain ⟨q, hq⟩ := h.exists_plug_eq
  obtain ⟨up, hup⟩ : ∃ up, top (ys ++ [.group 0 {}]) = some up := by cases ys <;> exact ⟨_, rfl⟩
  have hparent : (b.tree.node 0).parent = some up := by rw [← h0, hf, f.parent_node, hup]
  rw [h.node_zero hq] at hparent
  cases hparent

theorem way (h : Represents b fs p) (hs : Spine fs) : b.Way (fs.map Frame.id) where
  cursor := by
    rw [List.head?_map]
    exact h.current
  outermost := by
    rw [List.getLast?_map, h.base]
    rfl
  links := by
    rw [List.isChain_map, List.isChain_iff_forall_rel_of_append_cons_cons]
    rintro f g gs rest rfl
    have hg : b.tree.node g.id = _ :=
      Tree.Holds.node_frame (gs ++ [f]) (by rw [List.append_assoc]; exact h.holds)
    rw [hg, Frame.onward_node, plug_append]
    exact f.id?_fill _
  inner := by
    intro i hi
    obtain ⟨f, hf, rfl⟩ := List.mem_map.mp hi
    obtain ⟨up, child, hn⟩ := h.node_frame hf
    rw [hn, Frame.isGroup_node, Frame.operator?_node]
    cases f with
    | group id fl => exact .inl rfl
    | operator id op l => exact .inr rfl
  groups := by
    obtain ⟨gs, rfl⟩ := List.getLast?_eq_some_iff.mp h.base
    have hgs : gs.countP (fun f => f.id ≠ 0 && (b.tree.node f.id).isGroup) =
        gs.countP Frame.isGroup := by
      refine List.countP_congr fun f hf => ?_
      obtain ⟨up, child, hn⟩ := h.node_frame (List.mem_append_left _ hf)
      rw [hn, Frame.isGroup_node, decide_eq_true (h.id_ne_zero hf), Bool.true_and]
    have hd := h.depth
    rw [List.countP_append, List.countP_singleton] at hd
    rw [List.countP_map, List.countP_append, List.countP_singleton]
    exact Nat.succ.inj ((congrArg (· + 1) hgs).trans hd)
  tighter := by
    rw [List.isChain_map]
    refine hs.isChain_level.imp_of_mem_imp fun f g hf hg hfg op op' hop hop' => ?_
    obtain ⟨up, child, hn⟩ := h.node_frame hf
    obtain ⟨up', child', hn'⟩ := h.node_frame hg
    rw [hn, Frame.operator?_node] at hop
    rw [hn', Frame.operator?_node] at hop'
    exact hfg op op' hop hop'

theorem sound (h : Represents b fs p) (hs : Spine fs)
    (hp : p = .missing ∨ ∃ x, p.formula? = some x) : b.Sound where
  linked := h.outlineAt_eq ▸ Part.linked_outline none _
  nodup := by
    rw [h.outlineAt_eq, ← Outline.map_entries]
    exact h.holds.nodup
  inside := by
    intro i hi
    obtain ⟨e, he, rfl, -⟩ := h.exists_entry hi
    exact h.holds.lt e he
  parents := h.outlineAt_eq ▸ Part.parentedBy_outline none _
  base := by
    obtain ⟨q, hq⟩ := h.exists_plug_eq
    rw [h.node_zero hq]
    exact ⟨rfl, rfl, rfl⟩
  way := ⟨_, h.way hs⟩
  operators i hi hne := Builder.both_isSome_of_lack? (h.lack?_eq_none hs hp hi hne)
  groups i hi hne := Builder.left_isSome_of_lack? (h.lack?_eq_none hs hp hi hne)
  shaped := by
    intro i hi
    obtain ⟨e, he, rfl, hn⟩ := h.exists_entry hi
    rw [hn]
    exact Part.shaped_entries none _ e he

/-! ## climbs -/

theorem exchanges (h : Represents b fs p) {op prev : Operator}
    (hprev : (b.tree.node b.current).operator? = some prev)
    (hright : (b.tree.node b.current).right.isSome) (hlevel : op.level ≤ prev.level) :
    b.Exchanges op := by
  obtain ⟨gs, f, rest, rfl, hgs, hf⟩ := h.exists_split (fun f => !f.binds op) rfl
  simp only [Bool.not_eq_eq_eq_not, Bool.not_false, Bool.not_true] at hgs hf
  obtain ⟨g, tail, hcons⟩ := h.exists_cons
  have hrep := h
  rw [hcons] at hrep
  have hn := hrep.node_current
  rw [← hrep.current_eq] at hn
  rw [hn, Frame.operator?_node] at hprev
  cases g with
  | group id fl => cases hprev
  | operator id o l =>
    cases hprev
    -- the operator at the cursor is among those taken over
    have hne : gs ≠ [] := by
      rintro rfl
      cases hcons
      simp [Frame.binds, hlevel] at hf
    have hp : ∃ i, p.id? = some i := by
      rw [hn] at hright
      exact Option.isSome_iff_exists.mp hright
    obtain ⟨i, hi⟩ := hp
    obtain ⟨a, ha⟩ := exists_id?_plug hi gs
    have hT : b.tree.Holds ((plug (plug p gs) (f :: rest)).entries none) := by
      rw [← plug_append]
      exact h.holds
    refine ⟨f.id, ?_, ?_⟩
    · show ((b.tree.alloc _).2.node ((b.tree.alloc _).2.ascend _ _)).parent = _
      rw [h.ascend_eq hgs hf hne ha]
      exact (hT.alloc _).parent_eq ha
    · show ((b.tree.alloc _).2.exchange _ ((b.tree.alloc _).2.ascend _ _) _).1 = _
      rw [h.ascend_eq hgs hf hne ha, (hT.alloc _).exchange_eq ha]

end Represents

/-! ## any run -/

namespace Builder

theorem Stands.exists_represents {b : Builder} (h : b.Stands) : ∃ fs p, Represents b fs p ∧
    Spine fs ∧ (p = .missing ∨ ∃ x, p.formula? = some x) := by
  rcases h with ⟨fs, h, hs⟩ | ⟨fs, p, x, h, hs, hx⟩
  · exact ⟨fs, .missing, h, hs, .inl rfl⟩
  · exact ⟨fs, p, h, hs, .inr ⟨x, hx⟩⟩

/-- After any tokens the arena is sound. So the way up from the cursor ends at node 0, an operator
that binds no tighter than the one at the cursor finds what it takes over held by a node above, and
no token is refused because the cursor is outside all groups. -/
theorem pushEach_sound (toks : List Token) : (pushEach toks).Sound ∧
    (∀ fuel, (pushEach toks).tree.size ≤ fuel →
      (pushEach toks).tree.ascendFrom (fun _ => true) fuel (pushEach toks).current = 0) ∧
    (∀ op prev, ((pushEach toks).tree.node (pushEach toks).current).operator? = some prev →
      ((pushEach toks).tree.node (pushEach toks).current).right.isSome →
      op.level ≤ prev.level → (pushEach toks).Exchanges op) ∧
    ∀ tok why text offset, ((pushEach toks).push tok).2 = some (.structural why text offset) →
      why ≠ .operatorOutsideGroup ∧ why ≠ .closeOutsideGroup ∧
        (why = .unmatchedClose → (pushEach toks).depth = 0) := by
  have hstands := stands_pushEach toks
  obtain ⟨fs, p, h, hs, hp⟩ := hstands.exists_represents
  refine ⟨h.sound hs hp, fun fuel hf => h.ascendFrom_eq_zero hf,
    fun op prev hprev hright hlevel => h.exchanges hprev hright hlevel, ?_⟩
  intro tok why text offset he
  have hwhy : why.Ordinary (pushEach toks).depth :=
    (hstands.keeps_push tok).ordinary why text offset he
  refine ⟨?_, ?_, ?_⟩
  · rintro rfl
    exact hwhy
  · rintro rfl
    exact hwhy
  · rintro rfl
    exact hwhy

theorem pushEach_sound_product :
    let b := pushEach [⟨.term, "a", 0⟩, ⟨.operator, "*", 1⟩, ⟨.operator, "/", 2⟩,
      ⟨.bracket, "(", 3⟩, ⟨.term, "b", 4⟩, ⟨.bracket, ")", 5⟩, ⟨.term, "c", 6⟩]
    b.Sound ∧ b.tree.ascendFrom (fun _ => true) 100 b.current = 0 ∧ b.Exchanges .add ∧
      b.depth = 0 := by
  intro b
  obtain ⟨hsound, hroot, hexchange, hordinary⟩ := pushEach_sound [⟨.term, "a", 0⟩,
    ⟨.operator, "*", 1⟩, ⟨.operator, "/", 2⟩, ⟨.bracket, "(", 3⟩, ⟨.term, "b", 4⟩,
    ⟨.bracket, ")", 5⟩, ⟨.term, "c", 6⟩]
  refine ⟨hsound, hroot 100 (by decide), hexchange .add .mul rfl rfl (by decide), ?_⟩
  exact (hordinary ⟨.bracket, ")", 7⟩ .unmatchedClose ")" 7 rfl).2.2 rfl

end Builder

end WordExpr
