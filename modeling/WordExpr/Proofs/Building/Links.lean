import WordExpr.Proofs.Building.Spine

/-!
# Links below and above a frame

How the links of an arena change and how they are followed, in terms of frames and parts.

* `Frame.hang`                 puts a node into the free place of a frame;
* `Tree.Holds.insert`          a new operator between a frame and the part below it, which becomes
                               its left operand; `insert_hang` and `insert_setLeft` are the two
                               orders in which the links are set;
* `Tree.Holds.ascendFrom_eq`   the way up past frames.
-/

namespace WordExpr

/-! ## links -/

namespace Tree

theorem size_setLeft (t : Tree) (up c : NodeId) : (t.setLeft up c).size = t.size := by
  unfold setLeft
  rw [size_modify, size_modify]

theorem root_setLeft (t : Tree) (up c : NodeId) : (t.setLeft up c).root = t.root := rfl

theorem root_alloc (t : Tree) (n : Node) : (t.alloc n).2.root = t.root := rfl

theorem size_alloc (t : Tree) (n : Node) : (t.alloc n).2.size = t.size + 1 := by
  simp [alloc, size]

theorem node_alloc_of_lt (t : Tree) (n : Node) {i : NodeId} (hi : i < t.size) :
    (t.alloc n).2.node i = t.node i := by
  rw [node_alloc, if_neg (Nat.ne_of_lt hi)]

theorem Holds.alloc {t : Tree} {es : List Entry} (h : t.Holds es) (n : Node) :
    (t.alloc n).2.Holds es where
  lt e he := by
    rw [size_alloc]
    exact Nat.lt_succ_of_lt (h.lt e he)
  node e he := by rw [node_alloc_of_lt t n (h.lt e he), h.node e he]
  nodup := h.nodup

end Tree

namespace Frame

/-- the node of the frame, with `c` in its free place -/
def hold (c : NodeId) : Frame → Node → Node
  | group _ _, n => { n with left := some c }
  | operator _ _ _, n => { n with right := some c }

/-- puts a node into the free place of the frame -/
def hang (t : Tree) (c : NodeId) (f : Frame) : Tree :=
  (t.modify f.id (f.hold c)).modify c (fun n => { n with parent := some f.id })

theorem hold_node (c : NodeId) (f : Frame) (up child : Option NodeId) :
    f.hold c (f.node up child) = f.node up (some c) := by
  cases f <;> rfl

theorem size_hang (t : Tree) (c : NodeId) (f : Frame) : (f.hang t c).size = t.size := by
  unfold hang
  rw [Tree.size_modify, Tree.size_modify]

theorem root_hang (t : Tree) (c : NodeId) (f : Frame) : (f.hang t c).root = t.root := rfl

theorem node_hang {t : Tree} {c i : NodeId} {f : Frame} (hi : i < t.size) :
    (f.hang t c).node i =
      if c = i then
        { (if f.id = i then f.hold c (t.node i) else t.node i) with parent := some f.id }
      else if f.id = i then f.hold c (t.node i) else t.node i := by
  rw [hang, Tree.node_modify _ _ _ _ (by rwa [Tree.size_modify]), Tree.node_modify _ _ _ _ hi]

theorem node_hang_self {t : Tree} {c : NodeId} {f : Frame} (hf : f.id < t.size) (hc : c ≠ f.id) :
    (f.hang t c).node f.id = f.hold c (t.node f.id) := by
  rw [node_hang hf, if_neg hc, if_pos rfl]

theorem node_hang_child {t : Tree} {c : NodeId} {f : Frame} (hc : c < t.size) (hf : f.id ≠ c) :
    (f.hang t c).node c = { t.node c with parent := some f.id } := by
  rw [node_hang hc, if_pos rfl, if_neg hf]

theorem node_hang_other {t : Tree} {c i : NodeId} {f : Frame} (hi : i < t.size) (hf : f.id ≠ i)
    (hc : c ≠ i) : (f.hang t c).node i = t.node i := by
  rw [node_hang hi, if_neg hc, if_neg hf]

end Frame

/-! ## a new operator -/

/-- a new operator between a frame and the part below it -/
theorem Tree.Holds.insert {t t' : Tree} {q : Part} {a : NodeId} {f : Frame} {fs : List Frame}
    {op : Operator} (h : t.Holds ((plug q (f :: fs)).entries none)) (ha : q.id? = some a)
    (hsize : t'.size = t.size + 1)
    (hnew : t'.node t.size = .ofOperator (some f.id) (some a) none op)
    (hnode : t'.node a = { t.node a with parent := some t.size })
    (hf : t'.node f.id = f.hold t.size (t.node f.id))
    (hkeep : ∀ i < t.size, i ≠ f.id → i ≠ a → t'.node i = t.node i) :
    t'.Holds ((plug (.binary t.size op q .missing) (f :: fs)).entries none) := by
  have hc := h.perm (entries_plug q (f :: fs))
  obtain ⟨n, es, hq⟩ := Part.exists_entries_eq_cons ha
  rw [hq] at hc
  change t.Holds (((a, { n with parent := some f.id }) :: es) ++
    (f.id, f.node (top fs) q.id?) :: (f.side ++ context (some f.id) fs)) at hc
  have hnd := hc.nodup
  rw [List.map_append, List.nodup_append, List.map_cons, List.nodup_cons] at hnd
  obtain ⟨⟨hae, hes⟩, -, hdisj⟩ := hnd
  have hma : (a, { n with parent := some f.id }) ∈ ((a, { n with parent := some f.id }) :: es) ++
      (f.id, f.node (top fs) q.id?) :: (f.side ++ context (some f.id) fs) :=
    List.mem_append_left _ (List.mem_cons_self ..)
  have hna : t.node a = { n with parent := some f.id } := hc.node _ hma
  have halt : a < t.size := hc.lt _ hma
  have hnf : t.node f.id = f.node (top fs) q.id? :=
    hc.node (f.id, f.node (top fs) q.id?) (List.mem_append_right _ (List.mem_cons_self ..))
  have hes' : ∀ e ∈ es, e.1 < t.size ∧ t'.node e.1 = e.2 := by
    intro e he
    have hm := List.mem_append_left ((f.id, f.node (top fs) q.id?) :: (f.side ++
      context (some f.id) fs)) (List.mem_cons_of_mem (a, { n with parent := some f.id }) he)
    have hmem : e.1 ∈ es.map Prod.fst := List.mem_map_of_mem he
    refine ⟨hc.lt e hm, ?_⟩
    rw [hkeep e.1 (hc.lt e hm), hc.node e hm]
    · exact hdisj e.1 (List.mem_cons_of_mem _ hmem) f.id (List.mem_cons_self ..)
    · exact fun heq => hae (heq ▸ hmem)
  have hent : ∀ up, (Part.binary t.size op q .missing).entries up =
      (t.size, .ofOperator up (some a) none op) :: (a, { n with parent := some t.size }) :: es := by
    intro up
    rw [Part.entries_binary, hq, ha, Part.entries_missing, List.append_nil]
    rfl
  refine h.graft (by omega) ?_ ?_ ?_ ?_
  · rw [hent]
    refine ⟨?_, ?_, ?_⟩
    · rintro e (_ | ⟨_, _ | ⟨_, he⟩⟩)
      · exact hsize ▸ Nat.lt_succ_self _
      · exact hsize ▸ Nat.lt_succ_of_lt halt
      · exact hsize ▸ Nat.lt_succ_of_lt (hes' e he).1
    · rintro e (_ | ⟨_, _ | ⟨_, he⟩⟩)
      · exact hnew
      · rw [hnode, hna]
      · exact (hes' e he).2
    · rw [List.map_cons, List.map_cons, List.nodup_cons, List.nodup_cons]
      refine ⟨?_, hae, hes⟩
      intro hmem
      rcases List.mem_cons.mp hmem with heq | hmem
      · exact Nat.ne_of_gt halt heq
      · obtain ⟨e, he, heq⟩ := List.mem_map.mp hmem
        exact Nat.ne_of_lt (hes' e he).1 heq
  · rw [hf, hnf, Frame.hold_node]
    rfl
  · rw [hent, hq]
    rintro e (_ | ⟨_, _ | ⟨_, he⟩⟩)
    · exact Or.inr (Nat.le_refl _)
    · exact Or.inl ⟨(a, _), List.mem_cons_self .., rfl⟩
    · exact Or.inl ⟨e, List.mem_cons_of_mem _ he, rfl⟩
  · intro i hi hif hq'
    refine hkeep i hi hif ?_
    rw [hq] at hq'
    exact Ne.symm (hq' (a, _) (List.mem_cons_self ..))

namespace Tree.Holds

variable {t : Tree} {q : Part} {a : NodeId} {f : Frame} {fs : List Frame}

theorem lt_lt_ne (h : t.Holds ((plug q (f :: fs)).entries none)) (ha : q.id? = some a) :
    a < t.size ∧ f.id < t.size ∧ a ≠ f.id := by
  have hc := h.perm (entries_plug q (f :: fs))
  obtain ⟨n, es, hq⟩ := Part.exists_entries_eq_cons ha
  rw [hq] at hc
  change t.Holds (((a, { n with parent := some f.id }) :: es) ++
    (f.id, f.node (top fs) q.id?) :: (f.side ++ context (some f.id) fs)) at hc
  have hnd := hc.nodup
  rw [List.map_append, List.nodup_append, List.map_cons] at hnd
  exact ⟨hc.lt _ (List.mem_append_left _ (List.mem_cons_self ..)),
    hc.lt (f.id, f.node (top fs) q.id?) (List.mem_append_right _ (List.mem_cons_self ..)),
    hnd.2.2 a (List.mem_cons_self ..) f.id (List.mem_cons_self ..)⟩

/-- the new operator takes its left operand first and its place second -/
theorem insert_hang (h : t.Holds ((plug q (f :: fs)).entries none)) (ha : q.id? = some a)
    (op : Operator) :
    (f.hang ((t.alloc (.binary op)).2.setLeft t.size a) t.size).Holds
      ((plug (.binary t.size op q .missing) (f :: fs)).entries none) := by
  obtain ⟨halt, hflt, hne⟩ := h.lt_lt_ne ha
  have hl1 : ∀ i, i < t.size + 1 → i < (t.alloc (.binary op)).2.size := by
    intro i hi
    rwa [t.size_alloc]
  -- taking a left operand is hanging it below a group at the new place
  have e : (t.alloc (.binary op)).2.setLeft t.size a =
      (Frame.group t.size {}).hang (t.alloc (.binary op)).2 a := rfl
  have hl2 : ∀ i, i < t.size + 1 → i < ((t.alloc (.binary op)).2.setLeft t.size a).size := by
    intro i hi
    rw [e, Frame.size_hang]
    exact hl1 i hi
  have hnew : ((t.alloc (.binary op)).2.setLeft t.size a).node t.size =
      { Node.binary op with left := some a } := by
    show ((Frame.group t.size {}).hang _ a).node (Frame.group t.size {}).id = _
    rw [Frame.node_hang_self (hl1 _ (Nat.lt_succ_self _)) (Nat.ne_of_lt halt)]
    show (Frame.group t.size {}).hold a ((t.alloc (.binary op)).2.node t.size) = _
    rw [node_alloc, if_pos rfl]
    rfl
  have hold : ∀ i < t.size, i ≠ a →
      ((t.alloc (.binary op)).2.setLeft t.size a).node i = t.node i := by
    intro i hi hia
    rw [e, Frame.node_hang_other (f := .group t.size {}) (hl1 i (Nat.lt_succ_of_lt hi))
      (Nat.ne_of_gt hi) (Ne.symm hia), t.node_alloc_of_lt _ hi]
  refine h.insert ha ?_ ?_ ?_ ?_ ?_
  · rw [Frame.size_hang, e, Frame.size_hang, t.size_alloc]
  · rw [Frame.node_hang_child (hl2 _ (Nat.lt_succ_self _)) (Nat.ne_of_lt hflt), hnew]
    rfl
  · rw [Frame.node_hang_other (hl2 a (Nat.lt_succ_of_lt halt)) (Ne.symm hne) (Nat.ne_of_gt halt), e,
      Frame.node_hang_child (f := .group t.size {}) (hl1 a (Nat.lt_succ_of_lt halt))
        (Nat.ne_of_gt halt), t.node_alloc_of_lt _ halt]
    rfl
  · rw [Frame.node_hang_self (hl2 _ (Nat.lt_succ_of_lt hflt)) (Nat.ne_of_gt hflt),
      hold _ hflt (Ne.symm hne)]
  · intro i hi hif hia
    rw [Frame.node_hang_other (hl2 i (Nat.lt_succ_of_lt hi)) (Ne.symm hif) (Nat.ne_of_gt hi),
      hold i hi hia]

/-- the new operator takes its place first and its left operand second -/
theorem insert_setLeft (h : t.Holds ((plug q (f :: fs)).entries none)) (ha : q.id? = some a)
    (op : Operator) :
    ((f.hang (t.alloc (.binary op)).2 t.size).setLeft t.size a).Holds
      ((plug (.binary t.size op q .missing) (f :: fs)).entries none) := by
  obtain ⟨halt, hflt, hne⟩ := h.lt_lt_ne ha
  have hl1 : ∀ i, i < t.size + 1 → i < (t.alloc (.binary op)).2.size := by
    intro i hi
    rwa [t.size_alloc]
  have hl2 : ∀ i, i < t.size + 1 → i < (f.hang (t.alloc (.binary op)).2 t.size).size := by
    intro i hi
    rw [Frame.size_hang]
    exact hl1 i hi
  have hnew : (f.hang (t.alloc (.binary op)).2 t.size).node t.size =
      { Node.binary op with parent := some f.id } := by
    rw [Frame.node_hang_child (hl1 _ (Nat.lt_succ_self _)) (Nat.ne_of_lt hflt), node_alloc,
      if_pos rfl]
  have hold : ∀ i < t.size, i ≠ f.id →
      (f.hang (t.alloc (.binary op)).2 t.size).node i = t.node i := by
    intro i hi hif
    rw [Frame.node_hang_other (hl1 i (Nat.lt_succ_of_lt hi)) (Ne.symm hif) (Nat.ne_of_gt hi),
      t.node_alloc_of_lt _ hi]
  have e : (f.hang (t.alloc (.binary op)).2 t.size).setLeft t.size a =
      (Frame.group t.size {}).hang (f.hang (t.alloc (.binary op)).2 t.size) a := rfl
  rw [e]
  refine h.insert ha ?_ ?_ ?_ ?_ ?_
  · rw [Frame.size_hang, Frame.size_hang, t.size_alloc]
  · show ((Frame.group t.size {}).hang _ a).node (Frame.group t.size {}).id = _
    rw [Frame.node_hang_self (hl2 _ (Nat.lt_succ_self _)) (Nat.ne_of_lt halt)]
    show (Frame.group t.size {}).hold a ((f.hang _ _).node t.size) = _
    rw [hnew]
    rfl
  · rw [Frame.node_hang_child (f := .group t.size {}) (hl2 a (Nat.lt_succ_of_lt halt))
      (Nat.ne_of_gt halt), hold a halt hne]
    rfl
  · rw [Frame.node_hang_other (f := .group t.size {}) (hl2 _ (Nat.lt_succ_of_lt hflt))
      (Nat.ne_of_gt hflt) hne,
      Frame.node_hang_self (hl1 _ (Nat.lt_succ_of_lt hflt)) (Nat.ne_of_gt hflt),
      t.node_alloc_of_lt _ hflt]
  · intro i hi hif hia
    rw [Frame.node_hang_other (f := .group t.size {}) (hl2 i (Nat.lt_succ_of_lt hi))
      (Nat.ne_of_gt hi) (Ne.symm hia), hold i hi hif]

end Tree.Holds

/-! ## the way up -/

theorem Frame.parent_node (f : Frame) (up child : Option NodeId) :
    (f.node up child).parent = up := by
  cases f <;> rfl

theorem length_le_length_context (child : Option NodeId) (fs : List Frame) :
    fs.length ≤ (context child fs).length := by
  induction fs generalizing child with
  | nil => exact Nat.le_refl 0
  | cons f fs ih =>
    have := ih (some f.id)
    simp only [context, List.length_cons, List.length_append]
    omega

theorem exists_id?_plug {p : Part} {i : NodeId} (hp : p.id? = some i) (gs : List Frame) :
    ∃ a, (plug p gs).id? = some a := by
  induction gs generalizing p i with
  | nil => exact ⟨i, hp⟩
  | cons g gs ih => exact ih (g.id?_fill p)

namespace Tree.Holds

variable {t : Tree} {p q : Part} {f : Frame} {gs fs : List Frame}

theorem length_frames (h : t.Holds ((plug p fs).entries none)) : fs.length ≤ t.size := by
  have h1 := (h.perm (entries_plug p fs)).length_le
  have h2 := length_le_length_context p.id? fs
  rw [List.length_append] at h1
  omega

theorem node_frame (gs : List Frame) (h : t.Holds ((plug p (gs ++ f :: fs)).entries none)) :
    t.node f.id = f.node (top fs) (plug p gs).id? := by
  rw [plug_append] at h
  exact (h.perm (entries_plug _ (f :: fs))).node (f.id, f.node (top fs) (plug p gs).id?)
    (List.mem_append_right _ (List.mem_cons_self ..))

theorem parent_eq {a : NodeId} (h : t.Holds ((plug q (f :: fs)).entries none))
    (ha : q.id? = some a) : (t.node a).parent = some f.id := by
  have hc := h.perm (entries_plug q (f :: fs))
  obtain ⟨n, es, hq⟩ := Part.exists_entries_eq_cons ha
  rw [hq] at hc
  have hn := hc.node (a, { n with parent := some f.id })
    (List.mem_append_left _ (List.mem_cons_self ..))
  rw [hn]

/-- the way up leads past the frames that it may go to, and stops below the first other one -/
theorem ascendFrom_eq (goes : Node → Bool) {g : Frame} {gs fs : List Frame} {p : Part}
    (h : t.Holds ((plug p (g :: (gs ++ fs))).entries none))
    (hgs : ∀ f ∈ gs, ∀ up child, goes (f.node up child) = true)
    (hfs : ∀ f ∈ fs.head?, ∀ up child, goes (f.node up child) = false)
    {fuel : Nat} (hfuel : gs.length < fuel) :
    some (t.ascendFrom goes fuel g.id) = (plug p (g :: gs)).id? := by
  induction gs generalizing g p fuel with
  | nil =>
    obtain ⟨fuel, rfl⟩ : ∃ k, fuel = k + 1 := ⟨fuel - 1, by simp at hfuel; omega⟩
    have hg : t.node g.id = g.node (top fs) p.id? := node_frame [] h
    show _ = (g.fill p).id?
    rw [Frame.id?_fill, Tree.ascendFrom, hg, Frame.parent_node]
    cases fs with
    | nil => rfl
    | cons f fs =>
      have hf : t.node f.id = f.node (top fs) (plug p [g]).id? := node_frame [g] h
      show some (if goes (t.node f.id) then _ else _) = _
      rw [hf, hfs f rfl, if_neg Bool.false_ne_true]
  | cons g' gs ih =>
    obtain ⟨fuel, rfl⟩ : ∃ k, fuel = k + 1 := ⟨fuel - 1, by simp at hfuel; omega⟩
    have hg : t.node g.id = g.node (some g'.id) p.id? := node_frame [] h
    have hg' : t.node g'.id = g'.node (top (gs ++ fs)) (plug p [g]).id? := node_frame [g] h
    unfold Tree.ascendFrom
    rw [hg, Frame.parent_node]
    show some (if goes (t.node g'.id) then _ else _) = _
    rw [hg', hgs g' (List.mem_cons_self ..), if_pos rfl]
    exact ih (p := g.fill p) h (fun f hf => hgs f (List.mem_cons_of_mem _ hf))
      (by simp only [List.length_cons] at hfuel; omega)

/-- exchanging the part below a frame puts the new node into its free place -/
theorem exchange_eq {a : NodeId} (h : t.Holds ((plug q (f :: fs)).entries none))
    (ha : q.id? = some a) (c : NodeId) : t.exchange f.id a c = (true, f.hang t c) := by
  have hf : t.node f.id = f.node (top fs) q.id? := node_frame [] h
  rw [ha] at hf
  cases f with
  | group id fl =>
    change t.node id = _ at hf
    show t.exchange id a c = _
    unfold Tree.exchange
    rw [hf]
    show (if (some a : Option NodeId) = some a then (true, t.setLeft id c) else _) = _
    rw [if_pos rfl]
    rfl
  | operator id op l =>
    -- the left operand is another part, so it has another place
    have hl : l.id? ≠ some a := by
      intro hl
      obtain ⟨n, es, hq⟩ := Part.exists_entries_eq_cons ha
      obtain ⟨n', es', hl'⟩ := Part.exists_entries_eq_cons hl
      have hnd := (h.perm (entries_plug q (.operator id op l :: fs))).nodup
      simp only [top, context, Frame.side, List.head?_cons, Option.map_some, hq, hl',
        List.map_append, List.map_cons, List.nodup_append] at hnd
      exact hnd.2.2 a (List.mem_cons_self ..) a (by simp) rfl
    change t.node id = _ at hf
    show t.exchange id a c = _
    unfold Tree.exchange
    rw [hf]
    show (if l.id? = some a then _ else if (some a : Option NodeId) = some a then
      (true, t.setRight id c) else _) = _
    rw [if_neg hl, if_pos rfl]
    rfl

end Tree.Holds

end WordExpr
