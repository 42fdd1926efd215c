import WordExpr.Proofs.Building.Finish

/-!
# A builder between two tokens

Whatever it has refused before, a builder waits for an operand or holds one.

* `Spine fs`            frames as they lie below a cursor: what an operator holds on its left is
                        complete, and it binds tighter than an operator right above it;
* `Builder.Waiting`     the free place at the cursor is empty;
* `Builder.Holding`     there is a complete operand in it;
* `Builder.Stands`      one of the two. Each kind of token has a lemma here for each of them, and
                        `Builder.Stands.keeps_push` takes them together: any token, taken or
                        refused, leaves a builder that stands.
-/

namespace WordExpr

/-! ## frames below a cursor -/

inductive Spine : List Frame → Prop where
  | base : Spine [.group 0 {}]
  | opening {fs : List Frame} (id : NodeId) (f : Flags) (h : Spine fs) : Spine (.group id f :: fs)
  | operator {fs : List Frame} {op : Operator} {l : Part} {x : Formula} (id : NodeId) (h : Spine fs)
    (hl : l.formula? = some x) (hfs : ∀ f ∈ fs.head?, f.binds op = false) :
    Spine (.operator id op l :: fs)

namespace Spine

variable {gs fs : List Frame} {p : Part} {x : Formula}

theorem of_cons {f : Frame} (h : Spine (f :: fs)) (hfs : fs ≠ []) : Spine fs := by
  cases h with
  | base => exact absurd rfl hfs
  | opening id f h => exact h
  | operator id h hl hr => exact h

theorem of_append (h : Spine (gs ++ fs)) (hfs : fs ≠ []) : Spine fs := by
  induction gs with
  | nil => exact h
  | cons g gs ih => exact ih (h.of_cons (List.append_ne_nil_of_right_ne_nil _ hfs))

/-- taking frames off leaves a complete part -/
theorem exists_formula?_plug (h : Spine (gs ++ fs)) (hfs : fs ≠ []) (hx : p.formula? = some x) :
    ∃ y, (plug p gs).formula? = some y := by
  induction gs generalizing p x with
  | nil => exact ⟨x, hx⟩
  | cons g gs ih =>
    have htail : Spine (gs ++ fs) :=
      h.of_cons (List.append_ne_nil_of_right_ne_nil _ hfs)
    cases g with
    | group id f =>
      refine ih (p := .group id f p) htail (x := .group f x) ?_
      unfold Part.formula?
      rw [hx]
      rfl
    | operator id op l =>
      cases h with
      | @operator _ _ _ y _ h hl hr =>
        refine ih (p := .binary id op l p) htail (x := .binary {} op y x) ?_
        unfold Part.formula?
        rw [hl, hx]

end Spine

/-! ## waiting and holding -/

namespace Builder

def Waiting (b : Builder) : Prop := ∃ fs, Represents b fs .missing ∧ Spine fs

def Holding (b : Builder) : Prop :=
  ∃ fs p x, Represents b fs p ∧ Spine fs ∧ p.formula? = some x

def Stands (b : Builder) : Prop := b.Waiting ∨ b.Holding

theorem Waiting.start : Waiting {} := ⟨_, .start, .base⟩

theorem Waiting.stop {b : Builder} (h : b.Waiting) (n : Nat) : Waiting { b with stop := n } := by
  obtain ⟨fs, h, hs⟩ := h
  exact ⟨fs, h.stop n, hs⟩

theorem Holding.stop {b : Builder} (h : b.Holding) (n : Nat) : Holding { b with stop := n } := by
  obtain ⟨fs, p, x, h, hs, hx⟩ := h
  exact ⟨fs, p, x, h.stop n, hs, hx⟩

end Builder

/-- frames with as many groups, as many open brackets -/
theorem Represents.depth_eq {b b' : Builder} {fs fs' : List Frame} {p p' : Part}
    (h : Represents b fs p) (h' : Represents b' fs' p')
    (hc : fs'.countP Frame.isGroup = fs.countP Frame.isGroup) : b'.depth = b.depth := by
  have h1 := h.depth
  have h2 := h'.depth
  omega

/-- flags do not count for what a builder represents -/
theorem Represents.flagged {b : Builder} {fs : List Frame} {p : Part} (h : Represents b fs p)
    (m c : Bool) : Represents { b with minus := m, complement := c } fs p :=
  ⟨h.holds, h.current, h.depth, h.base, h.root⟩

namespace Builder

variable {b : Builder} {tok : Token} {op : Operator}

/-! ## operands -/

theorem Waiting.term (h : b.Waiting) {a : Atom} (ha : Symbol.ofTerm tok.text = .ok a.symbol) :
    ∃ b', b.term tok = (b', none) ∧ b'.Holding ∧ b'.flags = {} ∧ b'.depth = b.depth := by
  obtain ⟨fs, h, hs⟩ := h
  obtain ⟨f, gs, rfl⟩ := h.exists_cons
  obtain ⟨b', hb', h', hflags, -⟩ := h.term ha
  exact ⟨b', hb', ⟨_, _, _, h', hs, rfl⟩, hflags, h.depth_eq h' rfl⟩

theorem Waiting.openGroup (h : b.Waiting) (tok : Token) :
    ∃ b', b.openGroup tok = (b', none) ∧ b'.Waiting ∧ b'.flags = {} ∧
      b'.depth = b.depth + 1 := by
  obtain ⟨fs, h, hs⟩ := h
  obtain ⟨f, gs, rfl⟩ := h.exists_cons
  obtain ⟨b', hb', h', hflags, -⟩ := h.openGroup tok
  refine ⟨b', hb', ⟨_, h', hs.opening _ _⟩, hflags, ?_⟩
  have h1 := h.depth
  have h2 := h'.depth
  rw [List.countP_cons_of_pos rfl] at h2
  omega

theorem Holding.term (h : b.Holding) {s : Symbol} (hs : Symbol.ofTerm tok.text = .ok s) :
    ∃ b', b.term tok = (b', some (.structural .noFreeSlot tok.text tok.offset)) ∧ b'.Holding := by
  obtain ⟨fs, p, x, h, hsp, hx⟩ := h
  obtain ⟨i, hi⟩ := Part.exists_id?_of_formula? hx
  obtain ⟨b', hb', h', -⟩ := h.term_full hi hs
  exact ⟨b', hb', fs, p, x, h', hsp, hx⟩

theorem Holding.openGroup (h : b.Holding) (tok : Token) :
    ∃ b', b.openGroup tok = (b', some (.structural .noFreeSlot tok.text tok.offset)) ∧
      b'.Holding := by
  obtain ⟨fs, p, x, h, hs, hx⟩ := h
  obtain ⟨i, hi⟩ := Part.exists_id?_of_formula? hx
  obtain ⟨b', hb', h', -⟩ := h.openGroup_full hi tok
  exact ⟨b', hb', fs, p, x, h', hs, hx⟩

/-! ## operators -/

theorem unary_eq_done (hb : b.hasPending = false) (tok : Token) (op : Operator) : ∃ m c,
    b.unary tok op = ({ b with minus := m, complement := c }, none) ∧ (m || c) = true := by
  unfold unary
  rw [hb]
  by_cases hop : op = .neg
  · rw [if_pos hop]
    exact ⟨true, b.complement, rfl, rfl⟩
  · rw [if_neg hop]
    exact ⟨b.minus, true, rfl, Bool.or_true _⟩

theorem Waiting.unary (h : b.Waiting) (hb : b.hasPending = false) (tok : Token) (op : Operator) :
    ∃ b', b.unary tok op = (b', none) ∧ b'.Waiting ∧ b'.depth = b.depth := by
  obtain ⟨fs, h, hs⟩ := h
  obtain ⟨m, c, hu, -⟩ := unary_eq_done hb tok op
  exact ⟨_, hu, ⟨fs, h.flagged m c, hs⟩, rfl⟩

/-- a binary operator takes the operand over and waits for the next one -/
theorem Holding.binary (h : b.Holding) (hb : b.hasPending = false) (tok : Token) (op : Operator) :
    ∃ b', b.binary tok op = (b', none) ∧ b'.Waiting ∧ b'.flags = b.flags ∧
      b'.depth = b.depth := by
  obtain ⟨fs, p, x, h, hs, hx⟩ := h
  obtain ⟨i, hi⟩ := Part.exists_id?_of_formula? hx
  obtain ⟨gs, f, rest, rfl, hgs, hf⟩ := h.exists_split (fun f => !f.binds op) rfl
  simp only [Bool.not_eq_eq_eq_not, Bool.not_false, Bool.not_true] at hgs hf
  obtain ⟨b', hb', h', hflags, -⟩ := h.binary hi hb hgs hf tok
  obtain ⟨y, hy⟩ := hs.exists_formula?_plug (List.cons_ne_nil f rest) hx
  have hspine : Spine (f :: rest) := hs.of_append (List.cons_ne_nil f rest)
  refine ⟨b', hb', ⟨_, h', hspine.operator _ hy (fun g hg => Option.some.inj hg ▸ hf)⟩, hflags,
    h.depth_eq h' ?_⟩
  rw [List.countP_append, countP_isGroup_eq_zero (fun g hg => Frame.isGroup_of_binds (hgs g hg)),
    Nat.zero_add, List.countP_cons_of_neg (by simp [Frame.isGroup])]

/-! ## closing brackets -/

/-- a closing bracket makes an operand of the innermost group -/
theorem Holding.closeGroup (h : b.Holding) (hd : b.depth ≠ 0) (tok : Token) :
    ∃ b', b.closeGroup tok = (b', none) ∧ b'.Holding ∧ b'.flags = b.flags ∧
      b'.depth + 1 = b.depth := by
  obtain ⟨fs, p, x, h, hs, hx⟩ := h
  obtain ⟨i, hi⟩ := Part.exists_id?_of_formula? hx
  obtain ⟨gs, f, rest, rfl, hgs, hf⟩ := h.exists_split Frame.isGroup rfl
  have hrest := h.ne_nil_of_depth hgs hf hd
  obtain ⟨b', hb', h', hflags, -⟩ := h.closeGroup hi hgs hf hrest tok
  have hs : Spine ((gs ++ [f]) ++ rest) := by rwa [List.append_assoc]
  obtain ⟨y, hy⟩ := hs.exists_formula?_plug hrest hx
  rw [plug_append] at hy
  refine ⟨b', hb', ⟨_, _, _, h', hs.of_append hrest, hy⟩, hflags, ?_⟩
  have h1 := h.depth
  have h2 := h'.depth
  rw [List.countP_append, countP_isGroup_eq_zero hgs, List.countP_cons_of_pos hf] at h1
  omega

theorem closeGroup_of_depth_eq_zero (hd : b.depth = 0) (tok : Token) :
    b.closeGroup tok = (b, some (.structural .unmatchedClose tok.text tok.offset)) := by
  unfold closeGroup
  rw [if_pos hd]
  rfl

/-! ## any token -/

/-- a token leaves a builder that stands, and reports nothing but an ordinary fault -/
structure Keeps (b : Builder) (s : Step) : Prop where
  stands : s.1.Stands
  ordinary : ∀ why text offset, s.2 = some (.structural why text offset) → why.Ordinary b.depth

namespace Keeps

theorem done {b' : Builder} (h : b'.Stands) : b.Keeps (b', none) := ⟨h, fun _ _ _ => nofun⟩

theorem refuse {b' : Builder} (h : b'.Stands) (why : Fault) (hw : why.Ordinary b.depth)
    (text : String) (offset : Nat) : b.Keeps (b', some (.structural why text offset)) := by
  refine ⟨h, fun why' text' offset' he => ?_⟩
  cases he
  exact hw

end Keeps

theorem keeps_unary (h : b.Stands) (tok : Token) (op : Operator) : b.Keeps (b.unary tok op) := by
  cases hb : b.hasPending with
  | true =>
    unfold unary
    rw [if_pos hb]
    exact .refuse h .stackedUnary trivial _ _
  | false =>
    obtain ⟨m, c, hu, -⟩ := unary_eq_done hb tok op
    rw [hu]
    refine .done ?_
    rcases h with ⟨fs, h, hs⟩ | ⟨fs, p, x, h, hs, hx⟩
    · exact .inl ⟨fs, h.flagged m c, hs⟩
    · exact .inr ⟨fs, p, x, h.flagged m c, hs, hx⟩

theorem keeps_term (h : b.Stands) (tok : Token) : b.Keeps (b.term tok) := by
  cases hs : Symbol.ofTerm tok.text with
  | error e =>
    unfold term
    rw [hs]
    refine ⟨h, fun why text offset he => ?_⟩
    cases he
    cases Symbol.eq_invalidLiteral hs
  | ok s =>
    obtain ⟨a, rfl⟩ := Symbol.exists_atom_of_ofTerm hs
    rcases h with h | h
    · obtain ⟨b', hb', h', -⟩ := h.term hs
      rw [hb']
      exact .done (.inr h')
    · obtain ⟨b', hb', h'⟩ := h.term hs
      rw [hb']
      exact .refuse (.inr h') .noFreeSlot trivial _ _

theorem keeps_openGroup (h : b.Stands) (tok : Token) : b.Keeps (b.openGroup tok) := by
  rcases h with h | h
  · obtain ⟨b', hb', h', -⟩ := h.openGroup tok
    rw [hb']
    exact .done (.inl h')
  · obtain ⟨b', hb', h'⟩ := h.openGroup tok
    rw [hb']
    exact .refuse (.inr h') .noFreeSlot trivial _ _

theorem keeps_binary (h : b.Stands) (tok : Token) (op : Operator) :
    b.Keeps (b.binary tok op) := by
  rcases h with h | h
  · obtain ⟨fs, hrep, hs⟩ := h
    obtain ⟨why, hw, hb'⟩ := hrep.binary_missing op tok
    rw [hb']
    exact .refuse (.inl ⟨fs, hrep, hs⟩) why hw _ _
  · cases hb : b.hasPending with
    | true =>
      unfold binary
      rw [hb]
      exact .refuse (.inr h) .binaryAfterUnary trivial _ _
    | false =>
      obtain ⟨b', hb', h', -⟩ := h.binary hb tok op
      rw [hb']
      exact .done (.inl h')

theorem keeps_closeGroup (h : b.Stands) (tok : Token) : b.Keeps (b.closeGroup tok) := by
  rcases h with h | h
  · obtain ⟨fs, hrep, hs⟩ := h
    obtain ⟨why, hw, hb'⟩ := hrep.closeGroup_missing tok
    rw [hb']
    exact .refuse (.inl ⟨fs, hrep, hs⟩) why hw _ _
  · by_cases hd : b.depth = 0
    · rw [closeGroup_of_depth_eq_zero hd]
      exact .refuse (.inr h) .unmatchedClose hd _ _
    · obtain ⟨b', hb', h', -⟩ := h.closeGroup hd tok
      rw [hb']
      exact .done (.inr h')

theorem Stands.keeps_push (h : b.Stands) (tok : Token) : b.Keeps (b.push tok) := by
  have h : Stands { b with stop := tok.stop } := h.imp (·.stop _) (·.stop _)
  suffices hk : Keeps { b with stop := tok.stop } (b.push tok) from ⟨hk.stands, hk.ordinary⟩
  unfold push take
  cases tok.kind with
  | term => exact keeps_term h tok
  | operator =>
    cases Operator.ofChar? tok.firstChar with
    | none => exact .refuse h .unknownOperator trivial _ _
    | some op =>
      show Keeps _ (if op.isUnary then _ else _)
      split
      · exact keeps_unary h tok op
      · exact keeps_binary h tok op
  | bracket =>
    show Keeps _ (if isOpening tok.firstChar then _ else _)
    split
    · exact keeps_openGroup h tok
    · exact keeps_closeGroup h tok
  | whitespace => exact .done h

/-! ## any run -/

/-- the builder after some tokens, whether it has taken or refused them -/
def pushEach (toks : List Token) : Builder := toks.foldl (fun b tok => (b.push tok).1) {}

theorem stands_pushEach (toks : List Token) : (pushEach toks).Stands := by
  have hrun : ∀ (toks : List Token) (b : Builder), b.Stands →
      (toks.foldl (fun b tok => (b.push tok).1) b).Stands := by
    intro toks
    induction toks with
    | nil => exact fun b h => h
    | cons tok toks ih => exact fun b h => ih _ (h.keeps_push tok).stands
  exact hrun toks {} (.inl .start)

end Builder

end WordExpr
