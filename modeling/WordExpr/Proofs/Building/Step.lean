import WordExpr.Proofs.Building.Links
import WordExpr.Tree.Builder

/-!
# What one token does

`Represents b fs p` says that the builder `b` holds the part `p` below the frames `fs`: its cursor
stands at the innermost frame, and `p` is in the free place there, `Part.missing` while that place
is empty. Each operation of a builder has one lemma here for each of its outcomes, in terms of
frames and parts.

* an operand goes into the free place (`Represents.term`, `Represents.openGroup`);
* a binary operator takes over the part with all frames that bind at least as tightly
  (`Represents.binary`);
* a closing bracket takes off the frames up to the innermost group (`Represents.closeGroup`).
-/

namespace WordExpr

/-! ## builders and frames -/

structure Represents (b : Builder) (fs : List Frame) (p : Part) : Prop where
  holds : b.tree.Holds ((plug p fs).entries none)
  current : top fs = some b.current
  depth : fs.countP Frame.isGroup = b.depth + 1
  base : fs.getLast? = some (.group 0 {})
  root : b.tree.root = 0

/-- the waiting flags -/
def Builder.flags (b : Builder) : Flags := ⟨b.minus, b.complement⟩

theorem Builder.hasPending_eq_false_iff {b : Builder} : b.hasPending = false ↔ b.flags = {} := by
  simp [Builder.hasPending, Builder.flags]

/-- a fault that a builder can report when so many brackets are open -/
def Fault.Ordinary (depth : Nat) : Fault → Prop
  | operatorOutsideGroup | closeOutsideGroup => False
  | unmatchedClose => depth = 0
  | _ => True

/-! ## the operations, case by case -/

namespace Builder

variable {b b' : Builder} {tok : Token} {op : Operator} {anchor above group top : NodeId}

theorem openGroup_of_attach {e : Option ParseError}
    (h : (b.allocFlagged .group).2.attach tok b.tree.size = (b', e)) : b.openGroup tok =
      if e = none then done { b' with current := b.tree.size, depth := b'.depth + 1 }
      else (b', e) := by
  have hpair : b.allocFlagged .group = (b.tree.size, (b.allocFlagged .group).2) := rfl
  unfold openGroup
  rw [hpair]
  simp only [h]
  cases e <;> rfl

theorem looserOperator_eq_done
    (ha : (b.tree.alloc (.binary op)).2.ascend (bindsAtLeast op) b.current = anchor)
    (hp : ((b.tree.alloc (.binary op)).2.node anchor).parent = some above) :
    b.looserOperator tok op = done { b with
      tree := ((b.tree.alloc (.binary op)).2.exchange above anchor b.tree.size).2.setLeft
        b.tree.size anchor
      current := b.tree.size } := by
  have hpair : b.tree.alloc (.binary op) = (b.tree.size, (b.tree.alloc (.binary op)).2) := rfl
  unfold looserOperator
  rw [hpair]
  simp only [ha, hp]

/-- where a closing bracket can be taken as far as the operator at the cursor goes -/
def Closable (b : Builder) : Prop :=
  b.depth ≠ 0 ∧ ((b.tree.node b.current).operator?.isSome &&
    (b.tree.node b.current).right.isNone) = false

theorem Closable.closeGroup_eq_done (h : b.Closable)
    (hg : enclosingGroup? b.tree b.tree.size b.current = some group)
    (hl : (b.tree.node group).left = some top) (hp : (b.tree.node group).parent = some above) :
    b.closeGroup tok = done { b with current := above, depth := b.depth - 1 } := by
  unfold closeGroup
  rw [if_neg h.1, h.2, hg]
  simp only [hl, hp, Bool.false_eq_true, if_false]

theorem Closable.closeGroup_eq_refuse (h : b.Closable)
    (hg : enclosingGroup? b.tree b.tree.size b.current = some group)
    (hl : (b.tree.node group).left = none) : b.closeGroup tok = b.refuse tok .emptyGroup := by
  unfold closeGroup
  rw [if_neg h.1, h.2, hg]
  simp only [hl, Bool.false_eq_true, if_false]

end Builder

/-! ## the start and the cursor -/

theorem Represents.start : Represents {} [.group 0 {}] .missing where
  holds := ⟨by decide, by decide, by decide⟩
  current := rfl
  depth := rfl
  base := rfl
  root := rfl

namespace Represents

variable {b : Builder} {f : Frame} {fs : List Frame} {p : Part}

/-- the cursor is never off the tree -/
theorem exists_cons (h : Represents b fs p) : ∃ f gs, fs = f :: gs := by
  cases fs with
  | nil => cases h.current
  | cons f gs => exact ⟨f, gs, rfl⟩

theorem current_eq (h : Represents b (f :: fs) p) : b.current = f.id :=
  (Option.some.inj h.current).symm

theorem holds_context (h : Represents b (f :: fs) p) :
    b.tree.Holds (p.entries (some f.id) ++ context p.id? (f :: fs)) :=
  h.holds.perm (entries_plug p (f :: fs))

theorem current_lt (h : Represents b (f :: fs) p) : f.id < b.tree.size :=
  h.holds_context.lt (f.id, f.node (top fs) p.id?) (by simp [context])

theorem node_current (h : Represents b (f :: fs) p) :
    b.tree.node f.id = f.node (top fs) p.id? :=
  h.holds_context.node (f.id, f.node (top fs) p.id?) (by simp [context])

theorem stop (h : Represents b fs p) (n : Nat) : Represents { b with stop := n } fs p :=
  ⟨h.holds, h.current, h.depth, h.base, h.root⟩

theorem allocFlagged (h : Represents b fs p) (n : Node) :
    Represents (b.allocFlagged n).2 fs p :=
  ⟨h.holds.alloc _, h.current, h.depth, h.base, h.root⟩

/-! ## operands -/

theorem attach_free (h : Represents b (f :: fs) .missing) (tok : Token) (c : NodeId) :
    b.attach tok c = ({ b with tree := f.hang b.tree c }, none) := by
  have hn := h.node_current
  rw [← h.current_eq] at hn
  cases f with
  | group id fl =>
    simp only [Builder.attach, hn, Frame.node, Node.ofGroup, Node.isGroup, Part.id?]
    rw [h.current_eq]
    rfl
  | operator id op l =>
    simp only [Builder.attach, hn, Frame.node, Node.ofOperator, Node.isGroup, Node.operator?,
      Part.id?]
    rw [h.current_eq]
    rfl

theorem attach_full (h : Represents b (f :: fs) p) {a : NodeId} (hp : p.id? = some a)
    (tok : Token) (c : NodeId) : b.attach tok c = b.refuse tok .noFreeSlot := by
  have hn := h.node_current
  rw [← h.current_eq, hp] at hn
  cases f with
  | group id fl => simp [Builder.attach, hn, Frame.node, Node.ofGroup, Node.operator?]
  | operator id op l => simp [Builder.attach, hn, Frame.node, Node.ofOperator, Node.isGroup]

/-- a new node without children goes into the free place -/
theorem operand (h : Represents b (f :: fs) .missing) (tok : Token) (n : Node) {p' : Part}
    (hid : p'.id? = some b.tree.size)
    (hp' : ∀ up, p'.entries up =
      [(b.tree.size, { n with parent := up, minus := b.minus, complement := b.complement })]) :
    ∃ b', (b.allocFlagged n).2.attach tok b.tree.size = (b', none) ∧
      Represents b' (f :: fs) p' ∧ b'.flags = {} ∧ b'.tree.size = b.tree.size + 1 := by
  have h1 := h.allocFlagged n
  refine ⟨_, h1.attach_free tok b.tree.size, ?_, rfl, ?_⟩
  · have hsize : (b.allocFlagged n).2.tree.size = b.tree.size + 1 := Tree.size_alloc ..
    have hnew : (b.allocFlagged n).2.tree.node b.tree.size =
        { n with minus := b.minus, complement := b.complement } := by
      show (Tree.alloc ..).2.node _ = _
      rw [Tree.node_alloc, if_pos rfl]
    have hf : f.id ≠ b.tree.size := Nat.ne_of_lt h.current_lt
    have hc : b.tree.size < (b.allocFlagged n).2.tree.size := by omega
    refine ⟨?_, h1.current, h1.depth, h1.base, h1.root⟩
    refine h.holds.graft ?_ ?_ ?_ ?_ ?_
    · rw [Frame.size_hang]
      exact Nat.le_of_lt hc
    · rw [hp']
      refine ⟨?_, ?_, by simp⟩
      · simp [Frame.size_hang, hsize]
      · simp only [List.mem_singleton, forall_eq]
        rw [Frame.node_hang_child hc hf, hnew]
    · rw [Frame.node_hang_self h1.current_lt (Ne.symm hf), h1.node_current, Frame.hold_node, hid]
    · rw [hp']
      simp
    · intro i hi hne _
      rw [Frame.node_hang_other (Nat.lt_trans hi hc) (Ne.symm hne) (Ne.symm (Nat.ne_of_lt hi))]
      exact Tree.node_alloc_of_lt _ _ hi
  · show (f.hang _ _).size = _
    rw [Frame.size_hang]
    exact Tree.size_alloc ..

theorem term (h : Represents b (f :: fs) .missing) {tok : Token} {a : Atom}
    (ha : Symbol.ofTerm tok.text = .ok a.symbol) :
    ∃ b', b.term tok = (b', none) ∧ Represents b' (f :: fs) (.leaf b.tree.size b.flags a) ∧
      b'.flags = {} ∧ b'.tree.size = b.tree.size + 1 := by
  unfold Builder.term
  rw [ha]
  exact h.operand tok (.leaf a.symbol) rfl (fun up => rfl)

theorem term_full (h : Represents b fs p) {i : NodeId} (hp : p.id? = some i) {tok : Token}
    {s : Symbol} (hs : Symbol.ofTerm tok.text = .ok s) :
    ∃ b', b.term tok = (b', some (.structural .noFreeSlot tok.text tok.offset)) ∧
      Represents b' fs p ∧ b'.flags = {} := by
  obtain ⟨f, gs, rfl⟩ := h.exists_cons
  unfold Builder.term
  rw [hs]
  exact ⟨_, (h.allocFlagged (.leaf s)).attach_full hp tok _, h.allocFlagged _, rfl⟩

theorem openGroup (h : Represents b (f :: fs) .missing) (tok : Token) :
    ∃ b', b.openGroup tok = (b', none) ∧
      Represents b' (.group b.tree.size b.flags :: f :: fs) .missing ∧
      b'.flags = {} ∧ b'.tree.size = b.tree.size + 1 := by
  obtain ⟨b', hb', hr, hf, hs⟩ := h.operand tok .group
    (show (Part.group b.tree.size b.flags .missing).id? = _ from rfl) (fun up => rfl)
  refine ⟨{ b' with current := b.tree.size, depth := b'.depth + 1 }, ?_, ?_, hf, hs⟩
  · rw [Builder.openGroup_of_attach hb', if_pos rfl]
    rfl
  · refine ⟨hr.holds, rfl, ?_, hr.base, hr.root⟩
    rw [List.countP_cons_of_pos rfl, hr.depth]

theorem openGroup_full (h : Represents b fs p) {i : NodeId} (hp : p.id? = some i) (tok : Token) :
    ∃ b', b.openGroup tok = (b', some (.structural .noFreeSlot tok.text tok.offset)) ∧
      Represents b' fs p ∧ b'.flags = {} := by
  obtain ⟨f, gs, rfl⟩ := h.exists_cons
  have hb' := (h.allocFlagged .group).attach_full hp tok b.tree.size
  exact ⟨_, Builder.openGroup_of_attach hb', h.allocFlagged .group, rfl⟩

end Represents

/-! ## binary operators -/

/-- whether an operator takes over the frame -/
def Frame.binds (op : Operator) : Frame → Bool
  | group _ _ => false
  | operator _ above _ => op.level ≤ above.level

theorem Frame.bindsAtLeast_node (op : Operator) (f : Frame) (up child : Option NodeId) :
    Builder.bindsAtLeast op (f.node up child) = f.binds op := by
  cases f <;> rfl

theorem Frame.isGroup_of_binds {op : Operator} {f : Frame} (h : f.binds op = true) :
    f.isGroup = false := by
  cases f with
  | group id fl => cases h
  | operator id o l => rfl

theorem countP_isGroup_eq_zero {gs : List Frame} (h : ∀ g ∈ gs, g.isGroup = false) :
    gs.countP Frame.isGroup = 0 := by
  rw [List.countP_eq_zero]
  intro g hg
  simp [h g hg]

namespace Represents

variable {b : Builder} {f : Frame} {gs fs : List Frame} {p : Part} {op : Operator} {i : NodeId}

/-- the frames up to the first one with a property that the group around the input has -/
theorem exists_split (h : Represents b fs p) (P : Frame → Bool) (h0 : P (.group 0 {}) = true) :
    ∃ gs f rest, fs = gs ++ f :: rest ∧ (∀ g ∈ gs, P g = false) ∧ P f = true := by
  have hmem : Frame.group 0 {} ∈ fs := List.mem_of_getLast? h.base
  have hsome : (fs.find? P).isSome := List.find?_isSome.mpr ⟨_, hmem, h0⟩
  obtain ⟨f, hf⟩ := Option.isSome_iff_exists.mp hsome
  obtain ⟨hPf, gs, rest, hfs, hgs⟩ := List.find?_eq_some_iff_append.mp hf
  exact ⟨gs, f, rest, hfs, fun g hg => by simpa using hgs g hg, hPf⟩

/-- the builder after a new operator has come in below the frame `f` -/
theorem inserted (h : Represents b (gs ++ f :: fs) p) (hgs : ∀ g ∈ gs, g.binds op = true)
    {t : Tree} (ht : t.Holds ((plug (.binary b.tree.size op (plug p gs) .missing) (f :: fs)).entries
      none)) (hroot : t.root = b.tree.root) :
    Represents { b with tree := t, current := b.tree.size }
      (.operator b.tree.size op (plug p gs) :: f :: fs) .missing ∧
      Builder.flags { b with tree := t, current := b.tree.size } = b.flags := by
  refine ⟨⟨ht, rfl, ?_, ?_, hroot.trans h.root⟩, rfl⟩
  · have hd := h.depth
    rw [List.countP_append, countP_isGroup_eq_zero (fun g hg => Frame.isGroup_of_binds (hgs g hg)),
      Nat.zero_add] at hd
    rw [List.countP_cons_of_neg (by simp [Frame.isGroup]), hd]
  · have hb := h.base
    rw [List.getLast?_append_cons] at hb
    rw [List.getLast?_cons_cons, hb]

/-- the way up from the cursor past all frames that bind at least as tightly -/
theorem ascend_eq (h : Represents b (gs ++ f :: fs) p) (hgs : ∀ g ∈ gs, g.binds op = true)
    (hf : f.binds op = false) (hne : gs ≠ []) {a : NodeId} (ha : (plug p gs).id? = some a) :
    (b.tree.alloc (.binary op)).2.ascend (Builder.bindsAtLeast op) b.current = a := by
  obtain ⟨g, gs, rfl⟩ := List.exists_cons_of_ne_nil hne
  have hT := h.holds.alloc (.binary op)
  have hlen := hT.length_frames
  have hup : some ((b.tree.alloc (.binary op)).2.ascend (Builder.bindsAtLeast op) g.id) = _ :=
    hT.ascendFrom_eq _ (fun f hf up child => by
      rw [Frame.bindsAtLeast_node, hgs f (List.mem_cons_of_mem _ hf)])
    (fun f' hf' up child => by
      cases Option.some.inj hf'
      rw [Frame.bindsAtLeast_node, hf])
    (by simp only [List.length_cons, List.length_append] at hlen; omega)
  have hcur : b.current = g.id := h.current_eq
  rw [ha] at hup
  rw [hcur]
  exact Option.some.inj hup

/-- a binary operator takes over the part and all frames that bind at least as tightly -/
theorem binary (h : Represents b (gs ++ f :: fs) p) (hp : p.id? = some i)
    (hb : b.hasPending = false) (hgs : ∀ g ∈ gs, g.binds op = true) (hf : f.binds op = false)
    (tok : Token) :
    ∃ b', b.binary tok op = (b', none) ∧
      Represents b' (.operator b.tree.size op (plug p gs) :: f :: fs) .missing ∧
      b'.flags = b.flags ∧ b'.tree.size = b.tree.size + 1 := by
  have hT : b.tree.Holds ((plug (plug p gs) (f :: fs)).entries none) := by
    rw [← plug_append]
    exact h.holds
  obtain ⟨a, ha⟩ := exists_id?_plug hp gs
  cases gs with
  | nil =>
    cases Option.some.inj (hp.symm.trans ha)
    obtain ⟨hins, hflags⟩ := h.inserted hgs (hT.insert_hang ha op)
      (by rw [Frame.root_hang, Tree.root_setLeft, Tree.root_alloc])
    refine ⟨_, ?_, hins, hflags, ?_⟩
    · have hn := h.node_current
      rw [← h.current_eq, hp] at hn
      have hc := h.current_eq
      cases f with
      | group id fl =>
        unfold Builder.binary
        rw [hn, hb]
        show Builder.done (b.firstOperator op i) = _
        unfold Builder.firstOperator
        rw [hc]
        rfl
      | operator id o l =>
        have hlevel : ¬ op.level ≤ o.level := by simpa [Frame.binds] using hf
        unfold Builder.binary
        rw [hn, hb]
        show (if op.level ≤ o.level then _ else Builder.done (b.tighterOperator op i)) = _
        rw [if_neg hlevel, Builder.tighterOperator, hc]
        rfl
    · rw [Frame.size_hang]
      exact (Tree.size_setLeft ..).trans (Tree.size_alloc ..)
  | cons g gs =>
    obtain ⟨hins, hflags⟩ := h.inserted hgs (hT.insert_setLeft ha op)
      (by rw [Tree.root_setLeft, Frame.root_hang, Tree.root_alloc])
    refine ⟨_, ?_, hins, hflags, ?_⟩
    · have hn : b.tree.node b.current = g.node (top (gs ++ f :: fs)) p.id? := by
        rw [show b.current = g.id from h.current_eq]
        exact h.node_current
      have hg := hgs g (List.mem_cons_self ..)
      cases g with
      | group id fl => cases hg
      | operator id o l =>
        have hlevel : op.level ≤ o.level := by simpa [Frame.binds] using hg
        rw [hp] at hn
        unfold Builder.binary
        rw [hn, hb]
        show (if op.level ≤ o.level then b.looserOperator tok op else _) = _
        rw [if_pos hlevel]
        have hup := h.ascend_eq hgs hf (List.cons_ne_nil _ _) ha
        rw [Builder.looserOperator_eq_done hup ((hT.alloc _).parent_eq ha),
          (hT.alloc _).exchange_eq ha]
        rfl
    · show (Tree.setLeft ..).size = _
      rw [Tree.size_setLeft, Frame.size_hang]
      exact Tree.size_alloc ..

theorem binary_missing (h : Represents b fs .missing) (op : Operator) (tok : Token) :
    ∃ why : Fault, why.Ordinary b.depth ∧
      b.binary tok op = (b, some (.structural why tok.text tok.offset)) := by
  obtain ⟨f, gs, rfl⟩ := h.exists_cons
  have hn := h.node_current
  rw [← h.current_eq] at hn
  unfold Builder.binary
  rw [hn]
  cases hb : b.hasPending with
  | true => exact ⟨.binaryAfterUnary, trivial, rfl⟩
  | false => cases f with
    | group id fl => exact ⟨.missingLeft, trivial, rfl⟩
    | operator id o l => exact ⟨.missingRight, trivial, rfl⟩

/-! ## closing brackets -/

theorem enclosingGroup?_eq {t : Tree} (gs : List Frame) {p : Part}
    (h : t.Holds ((plug p (gs ++ f :: fs)).entries none)) (hgs : ∀ g ∈ gs, g.isGroup = false)
    (hf : f.isGroup = true) {c : NodeId} (hc : top (gs ++ f :: fs) = some c) {fuel : Nat}
    (hfuel : gs.length ≤ fuel) : Builder.enclosingGroup? t fuel c = some f.id := by
  induction gs generalizing p c fuel with
  | nil =>
    cases Option.some.inj hc
    have hn : t.node f.id = f.node (top fs) p.id? := Tree.Holds.node_frame [] h
    cases f with
    | group id fl =>
      rw [Builder.enclosingGroup?.eq_def, hn]
      rfl
    | operator id o l => cases hf
  | cons g gs ih =>
    cases Option.some.inj hc
    have hn : t.node g.id = g.node (top (gs ++ f :: fs)) p.id? := Tree.Holds.node_frame [] h
    obtain ⟨fuel, rfl⟩ : ∃ k, fuel = k + 1 := ⟨fuel - 1, by simp at hfuel; omega⟩
    obtain ⟨up, hup⟩ : ∃ up, top (gs ++ f :: fs) = some up := by cases gs <;> exact ⟨_, rfl⟩
    have hg := hgs g (List.mem_cons_self ..)
    cases g with
    | group id fl => cases hg
    | operator id o l =>
      rw [Builder.enclosingGroup?.eq_def, hn, hup]
      exact ih (p := (Frame.operator id o l).fill p) h
        (fun g hg => hgs g (List.mem_cons_of_mem _ hg)) hup (by simpa using hfuel)

theorem depth_ne_zero (h : Represents b (gs ++ f :: fs) p) (hf : f.isGroup = true)
    (hfs : fs ≠ []) : b.depth ≠ 0 := by
  have hmem : Frame.group 0 {} ∈ fs := by
    have hb := h.base
    obtain ⟨f', rest, rfl⟩ := List.exists_cons_of_ne_nil hfs
    rw [List.getLast?_append_cons, List.getLast?_cons_cons] at hb
    exact List.mem_of_getLast? hb
  have h1 : 0 < fs.countP Frame.isGroup := List.countP_pos_iff.mpr ⟨_, hmem, rfl⟩
  have h2 := h.depth
  rw [List.countP_append, List.countP_cons_of_pos hf] at h2
  omega

/-- below an open bracket there is another group -/
theorem ne_nil_of_depth (h : Represents b (gs ++ f :: fs) p) (hgs : ∀ g ∈ gs, g.isGroup = false)
    (hf : f.isGroup = true) (hd : b.depth ≠ 0) : fs ≠ [] := by
  rintro rfl
  have h2 := h.depth
  rw [List.countP_append, countP_isGroup_eq_zero hgs, List.countP_cons_of_pos hf] at h2
  simp only [List.countP_nil] at h2
  omega

/-- a closing bracket makes a group of the part and the frames up to the innermost group -/
theorem closeGroup (h : Represents b (gs ++ f :: fs) p) (hp : p.id? = some i)
    (hgs : ∀ g ∈ gs, g.isGroup = false) (hf : f.isGroup = true) (hfs : fs ≠ []) (tok : Token) :
    ∃ b', b.closeGroup tok = (b', none) ∧ Represents b' fs (f.fill (plug p gs)) ∧
      b'.flags = b.flags ∧ b'.tree.size = b.tree.size := by
  obtain ⟨f', rest, rfl⟩ := List.exists_cons_of_ne_nil hfs
  obtain ⟨a, ha⟩ := exists_id?_plug hp gs
  have hdepth := h.depth_ne_zero hf hfs
  have hright : ((b.tree.node b.current).operator?.isSome &&
      (b.tree.node b.current).right.isNone) = false := by
    cases gs with
    | nil =>
      have hn := h.node_current
      rw [← h.current_eq] at hn
      rw [hn]
      cases f with
      | group id fl => rfl
      | operator id o l => cases hf
    | cons g gs =>
      have hn : b.tree.node b.current = g.node (top (gs ++ f :: f' :: rest)) p.id? := by
        rw [show b.current = g.id from h.current_eq]
        exact h.node_current
      rw [hn, hp]
      cases g with
      | group id fl => rfl
      | operator id o l => rfl
  have henc : Builder.enclosingGroup? b.tree b.tree.size b.current = some f.id := by
    have hlen := h.holds.length_frames
    rw [List.length_append] at hlen
    exact enclosingGroup?_eq gs h.holds hgs hf h.current (by omega)
  have hn : b.tree.node f.id = f.node (some f'.id) (some a) := by
    rw [h.holds.node_frame, ha]
    rfl
  refine ⟨{ b with current := f'.id, depth := b.depth - 1 }, ?_, ?_, rfl, rfl⟩
  · cases f with
    | group id fl =>
      have hclosable : b.Closable := ⟨hdepth, hright⟩
      exact hclosable.closeGroup_eq_done henc (by rw [hn]; rfl) (by rw [hn]; rfl)
    | operator id o l => cases hf
  · refine ⟨?_, rfl, ?_, ?_, h.root⟩
    · have hh := h.holds
      rw [plug_append] at hh
      exact hh
    · have hd := h.depth
      rw [List.countP_append, countP_isGroup_eq_zero hgs, List.countP_cons_of_pos hf] at hd
      show _ = b.depth - 1 + 1
      omega
    · have hb := h.base
      rwa [List.getLast?_append_cons, List.getLast?_cons_cons] at hb

theorem closeGroup_missing (h : Represents b fs .missing) (tok : Token) :
    ∃ why : Fault, why.Ordinary b.depth ∧
      b.closeGroup tok = (b, some (.structural why tok.text tok.offset)) := by
  by_cases hd : b.depth = 0
  · exact ⟨.unmatchedClose, hd, by rw [Builder.closeGroup, if_pos hd]; rfl⟩
  obtain ⟨f, gs, rfl⟩ := h.exists_cons
  have hn := h.node_current
  rw [← h.current_eq] at hn
  cases f with
  | group id fl =>
    have hclosable : b.Closable := ⟨hd, by rw [hn]; rfl⟩
    have henc := enclosingGroup?_eq [] h.holds (by simp) rfl h.current
      (Nat.zero_le b.tree.size)
    exact ⟨.emptyGroup, trivial,
      hclosable.closeGroup_eq_refuse henc (by rw [← h.current_eq, hn]; rfl)⟩
  | operator id o l =>
    unfold Builder.closeGroup
    rw [if_neg hd, hn]
    exact ⟨.missingRight, trivial, rfl⟩

end Represents

end WordExpr
