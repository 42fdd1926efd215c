import WordExpr.Proofs.Building.Standing
import WordExpr.Proofs.WellFormed.Run

/-!
# The builder and the automaton

`Builder.Agrees b s` relates a builder to the state of the automaton behind the same text without
whitespace. There is one lemma for each class of characters: where the automaton goes on, the
builder takes the token and they still agree, but for three kinds of tokens that the automaton does
not look at closely enough:

* a word may be neither a name nor a number (`Builder.Agrees.push_term`);
* an opening bracket may stand right behind a word (`Builder.Agrees.push_opening_of_term`);
* a closing bracket may have no opening one left (`Builder.Agrees.push_unmatched`).
-/

namespace WordExpr

theorem CharClass.exists_operator {c : Char} {k : CharClass} (h : of? c = some k)
    (hk : k.kind = .operator) : ∃ op, Operator.ofChar? c = some op ∧ op.charClass = k := by
  have hmap : (Operator.ofChar? c).map Operator.charClass = some k := by
    have hholds := of?_eq_some_iff.mp h
    cases k with
    | binaryOperator =>
      have hall : ['+', '-', '*', '/', '%', '<', '>', '&', '^', '|'].all (fun d =>
          (Operator.ofChar? d).map Operator.charClass = some .binaryOperator) = true := by decide
      exact of_decide_eq_true (List.all_eq_true.mp hall c (List.contains_iff_mem.mp hholds))
    | unaryOperator =>
      rcases Bool.or_eq_true_iff.mp hholds with hc | hc
      · rw [beq_iff_eq.mp hc]
        decide
      · rw [beq_iff_eq.mp hc]
        decide
    | term | opening | closing | whitespace => cases hk
  exact Option.map_eq_some_iff.mp hmap

namespace Builder

inductive Agrees (b : Builder) : State → Prop where
  | waits {s : State} (h : b.Waiting) (hf : b.flags = {}) (hs : s.Waits) : Agrees b s
  | unary (h : b.Waiting) : Agrees b .unary
  | ended {s : State} (h : b.Holding) (hf : b.flags = {}) (hs : s.Ended) : Agrees b s

namespace Agrees

variable {b : Builder} {s : State} {tok : Token}

theorem start : Agrees {} .start := .waits .start rfl (.inl rfl)

theorem stop (h : b.Agrees s) (n : Nat) : Agrees { b with stop := n } s := by
  cases h with
  | waits h hf hs => exact .waits (h.stop n) hf hs
  | unary h => exact .unary (h.stop n)
  | ended h hf hs => exact .ended (h.stop n) hf hs

/-! ## where the automaton goes on -/

/-- an operand is taken where there is none yet -/
theorem waiting (h : b.Agrees s) {k : CharClass} (hk : k = .term ∨ k = .opening)
    (hs : s.step k ≠ .refused) (hne : s ≠ .term) : b.Waiting := by
  cases h with
  | waits h hf hs => exact h
  | unary h => exact h
  | ended h hf he =>
    rcases he with rfl | rfl
    · rcases hk with rfl | rfl <;> exact absurd rfl hs
    · exact absurd rfl hne

/-- a binary operator or a closing bracket is taken behind an operand -/
theorem holding (h : b.Agrees s) {k : CharClass} (hk : k = .binaryOperator ∨ k = .closing)
    (hs : s.step k ≠ .refused) : b.Holding ∧ b.flags = {} ∧ s.Ended := by
  cases h with
  | waits h hf hw =>
    rcases hw with rfl | rfl | rfl <;> rcases hk with rfl | rfl <;> exact absurd rfl hs
  | unary h => rcases hk with rfl | rfl <;> exact absurd rfl hs
  | ended h hf he => exact ⟨h, hf, he⟩

/-- a unary operator is taken where an operand is waited for -/
theorem waits_of_unary (h : b.Agrees s) (hs : s.step .unaryOperator ≠ .refused) :
    b.Waiting ∧ b.flags = {} ∧ s.Waits := by
  cases h with
  | waits h hf hw => exact ⟨h, hf, hw⟩
  | unary h => exact absurd rfl hs
  | ended h hf he => rcases he with rfl | rfl <;> exact absurd rfl hs

/-! ## tokens -/

theorem push_term (h : b.Agrees s) (hs : s.step .term ≠ .refused) (hne : s ≠ .term)
    (hk : tok.kind = .term) {a : Atom} (ha : Symbol.ofTerm tok.text = .ok a.symbol) :
    ∃ b', b.push tok = (b', none) ∧ b'.Agrees (s.step .term) ∧ b'.depth = b.depth := by
  obtain ⟨b', hb', h', hf, hd⟩ := ((h.stop tok.stop).waiting (.inl rfl) hs hne).term ha
  refine ⟨b', ?_, .ended h' hf (.inr (State.step_term_eq hs)), hd⟩
  unfold push take
  rw [hk]
  exact hb'

theorem push_illegible (b : Builder) (hk : tok.kind = .term) {e : ParseError}
    (he : Symbol.ofTerm tok.text = .error e) :
    ∃ b', b.push tok = (b', some (.invalidLiteral tok.text)) := by
  refine ⟨{ b with stop := tok.stop }, ?_⟩
  unfold push take
  rw [hk]
  show term _ tok = _
  rw [term, he, Symbol.eq_invalidLiteral he]

theorem push_opening (h : b.Agrees s) (hs : s.step .opening ≠ .refused) (hne : s ≠ .term)
    (hk : tok.kind = .bracket) (hc : isOpening tok.firstChar = true) :
    ∃ b', b.push tok = (b', none) ∧ b'.Agrees (s.step .opening) ∧ b'.depth = b.depth + 1 := by
  obtain ⟨b', hb', h', hf, hd⟩ := ((h.stop tok.stop).waiting (.inr rfl) hs hne).openGroup tok
  refine ⟨b', ?_, .waits h' hf (.inr (.inl (State.step_opening_eq hs))), hd⟩
  unfold push take
  rw [hk]
  exact (if_pos hc).trans hb'

theorem push_opening_of_term (h : b.Agrees .term) (hk : tok.kind = .bracket)
    (hc : isOpening tok.firstChar = true) :
    ∃ b', b.push tok = (b', some (.structural .noFreeSlot tok.text tok.offset)) := by
  obtain ⟨hh, -⟩ := (h.stop tok.stop).holding (.inr rfl) (by decide)
  obtain ⟨b', hb', -⟩ := hh.openGroup tok
  refine ⟨b', ?_⟩
  unfold push take
  rw [hk]
  exact (if_pos hc).trans hb'

theorem push_closing (h : b.Agrees s) (hs : s.step .closing ≠ .refused) (hd : b.depth ≠ 0)
    (hk : tok.kind = .bracket) (hc : isOpening tok.firstChar = false) :
    ∃ b', b.push tok = (b', none) ∧ b'.Agrees (s.step .closing) ∧ b'.depth + 1 = b.depth := by
  obtain ⟨hh, hf, -⟩ := (h.stop tok.stop).holding (.inr rfl) hs
  obtain ⟨b', hb', h', hf', hd'⟩ := hh.closeGroup hd tok
  refine ⟨b', ?_, .ended h' (hf'.trans hf) (.inl (State.step_closing_eq hs)), hd'⟩
  unfold push take
  rw [hk, hc]
  exact hb'

theorem push_unmatched (b : Builder) (hd : b.depth = 0) (hk : tok.kind = .bracket)
    (hc : isOpening tok.firstChar = false) :
    ∃ b', b.push tok = (b', some (.structural .unmatchedClose tok.text tok.offset)) := by
  refine ⟨{ b with stop := tok.stop }, ?_⟩
  unfold push take
  rw [hk, hc]
  exact closeGroup_of_depth_eq_zero (b := { b with stop := tok.stop }) hd tok

/-- an operator of either class -/
theorem push_operator (h : b.Agrees s) {k : CharClass}
    (hc : CharClass.of? tok.firstChar = some k) (hs : s.step k ≠ .refused)
    (hk : k.kind = .operator) (hkind : tok.kind = .operator) :
    ∃ b', b.push tok = (b', none) ∧ b'.Agrees (s.step k) ∧ b'.depth = b.depth := by
  obtain ⟨op, hop, rfl⟩ := CharClass.exists_operator hc hk
  have hstop := h.stop tok.stop
  unfold push take
  rw [hkind, hop]
  cases hu : op.isUnary with
  | true =>
    have hclass : op.charClass = .unaryOperator := if_pos hu
    rw [hclass] at hs ⊢
    obtain ⟨hw, hf, hs'⟩ := hstop.waits_of_unary hs
    obtain ⟨b', hb', h', hd⟩ := hw.unary (hasPending_eq_false_iff.mpr hf) tok op
    refine ⟨b', (if_pos hu).trans hb', ?_, hd⟩
    rcases hs' with rfl | rfl | rfl <;> exact .unary h'
  | false =>
    have hclass : op.charClass = .binaryOperator := if_neg (by rw [hu]; exact Bool.false_ne_true)
    rw [hclass] at hs ⊢
    obtain ⟨hh, hf, hs'⟩ := hstop.holding (.inl rfl) hs
    obtain ⟨b', hb', h', hf', hd⟩ := hh.binary (hasPending_eq_false_iff.mpr hf) tok op
    refine ⟨b', (if_neg (by rw [hu]; exact Bool.false_ne_true)).trans hb',
      .waits h' (hf'.trans hf) ?_, hd⟩
    rcases hs' with rfl | rfl <;> exact .inr (.inr rfl)

/-! ## the end -/

/-- where the automaton accepts and all brackets are closed, the builder has a tree -/
theorem finish (h : b.Agrees s) (hs : s.accepting = true) (hd : b.depth = 0) :
    ∃ t, b.finish = .ok t := by
  cases h with
  | waits h hf hw => rcases hw with rfl | rfl | rfl <;> cases hs
  | unary h => cases hs
  | ended h hf he =>
    obtain ⟨fs, p, x, hrep, hspine, hx⟩ := h
    obtain ⟨gs, rfl⟩ := List.getLast?_eq_some_iff.mp hrep.base
    obtain ⟨y, hy⟩ := hspine.exists_formula?_plug (List.cons_ne_nil _ _) hx
    obtain ⟨t, ht, -⟩ :=
      hrep.finish hd (hasPending_eq_false_iff.mpr hf) (plug_append p gs _) hy
    exact ⟨t, ht⟩

end Agrees

end Builder

end WordExpr
