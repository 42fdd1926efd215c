import WordExpr.Proofs.Spelling.Lexemes
import WordExpr.Source.WellFormed

/-!
# Runs of the automaton

A text is well formed exactly if the automaton reads it from its start to an accepting state and it
has as many opening as closing brackets (`validate_eq_ok_iff`). A refused character is never
forgotten, so that nothing else need be said about the way (`State.ne_refused_of_foldl_read`).

* `State.Waits`   the states that wait for an operand, though not for one behind a unary operator;
* `State.Ended`   the states right behind an operand.
-/

namespace WordExpr

namespace State

def Waits (s : State) : Prop := s = start ∨ s = opened ∨ s = operator

def Ended (s : State) : Prop := s = closed ∨ s = term

variable {s : State} {c : Char} {k : CharClass}

/-! ## single characters -/

theorem read_of_class (h : CharClass.of? c = some k) (s : State) : s.read c = s.step k := by
  unfold read
  rw [h]

theorem refused_read (c : Char) : refused.read c = refused := by
  unfold read
  cases CharClass.of? c <;> rfl

/-- a character of terms is taken into a term or not at all -/
theorem step_term_eq (h : s.step .term ≠ refused) : s.step .term = term := by
  cases s <;> first | rfl | exact absurd rfl h

theorem step_opening_eq (h : s.step .opening ≠ refused) : s.step .opening = opened := by
  cases s <;> first | rfl | exact absurd rfl h

theorem step_closing_eq (h : s.step .closing ≠ refused) : s.step .closing = closed := by
  cases s <;> first | rfl | exact absurd rfl h

/-- nothing else leads into a term -/
theorem class_of_step_eq_term (h : s.step k = term) : k = .term := by
  cases k with
  | term => rfl
  | binaryOperator | unaryOperator | opening | closing | whitespace => cases s <;> cases h

/-! ## texts -/

theorem ne_refused_of_foldl_read {cs : List Char} (h : cs.foldl read s ≠ refused) :
    s ≠ refused := by
  induction cs generalizing s with
  | nil => exact h
  | cons c cs ih =>
    rintro rfl
    exact ih h (refused_read c)

theorem ne_refused_of_accepting {cs : List Char} (h : (cs.foldl read s).accepting = true) :
    s ≠ refused := by
  have hne : cs.foldl read s ≠ refused := fun hr => by
    rw [hr] at h
    cases h
  exact ne_refused_of_foldl_read hne

/-- a word behind a state that takes terms -/
theorem foldl_read_of_isWord {w : List Char} (h : IsWord w) (hs : s.step .term = term) :
    w.foldl read s = term := by
  obtain ⟨hne, hall⟩ := h
  induction w generalizing s with
  | nil => exact absurd rfl hne
  | cons c cs ih =>
    obtain ⟨hc, hcs⟩ := List.forall_mem_cons.mp hall
    have hread : s.read c = term :=
      (read_of_class (CharClass.of?_of_isTermChar hc) s).trans hs
    cases cs with
    | nil => exact hread
    | cons d ds => exact ih (by rw [hread]; rfl) (List.cons_ne_nil _ _) hcs

/-- a word that is not refused is a term -/
theorem foldl_read_eq_term {w : List Char} (h : IsWord w) (hs : w.foldl read s ≠ refused) :
    s.step .term ≠ refused ∧ w.foldl read s = term := by
  have hstep : s.step .term ≠ refused := by
    obtain ⟨c, w, rfl, hc⟩ := h.exists_cons
    have hw : w.foldl read (s.read c) ≠ refused := hs
    rw [← read_of_class (CharClass.of?_of_isTermChar hc)]
    exact ne_refused_of_foldl_read hw
  exact ⟨hstep, foldl_read_of_isWord h (step_term_eq hstep)⟩

end State

/-! ## readings -/

namespace Reading

variable (r : Reading) (cs : List Char)

theorem state_foldl : (cs.foldl step r).state = cs.foldl State.read r.state := by
  induction cs generalizing r with
  | nil => rfl
  | cons c cs ih => exact ih (r.step c)

theorem opened_foldl : (cs.foldl step r).opened = r.opened + cs.countP isOpening := by
  induction cs generalizing r with
  | nil => rfl
  | cons c cs ih =>
    rw [List.foldl_cons, ih, List.countP_cons, step]
    cases isOpening c <;> simp only [Bool.false_eq_true, if_false, if_true] <;> omega

theorem closed_foldl : (cs.foldl step r).closed = r.closed + cs.countP isClosing := by
  induction cs generalizing r with
  | nil => rfl
  | cons c cs ih =>
    rw [List.foldl_cons, ih, List.countP_cons, step]
    cases isClosing c <;> simp only [Bool.false_eq_true, if_false, if_true] <;> omega

variable {r cs}

theorem verdict_eq_ok_iff :
    r.verdict = .ok () ↔ r.state.accepting = true ∧ r.opened = r.closed := by
  unfold verdict
  split
  · next h => exact iff_of_false (nomatch ·) (fun hr => h hr.2)
  next h =>
  split
  · next ha => exact iff_of_true rfl ⟨ha, Decidable.not_not.mp h⟩
  · next ha => exact iff_of_false (nomatch ·) (fun hr => ha hr.1)

/-- reading cannot go on from a refused character, so only the end counts -/
theorem check_eq_ok_iff : r.check cs = .ok () ↔ (cs.foldl step r).verdict = .ok () := by
  induction cs generalizing r with
  | nil => rfl
  | cons c cs ih =>
    rw [check]
    split
    · next h =>
      refine iff_of_false (nomatch ·) ?_
      rw [verdict_eq_ok_iff, List.foldl_cons, state_foldl]
      exact fun hr => State.ne_refused_of_accepting hr.1 h
    · exact ih

end Reading

theorem validate_eq_ok_iff (text : String) : validate text = .ok () ↔
    (text.toList.foldl State.read .start).accepting = true ∧
      text.toList.countP isOpening = text.toList.countP isClosing := by
  have hcheck : Reading.check {} text.toList = .ok () ↔ _ := Reading.check_eq_ok_iff
  rw [Reading.verdict_eq_ok_iff, Reading.state_foldl, Reading.opened_foldl, Reading.closed_foldl,
    Nat.zero_add, Nat.zero_add] at hcheck
  rw [← hcheck]
  unfold validate
  split
  · next h =>
    rw [h]
    exact iff_of_false (nomatch ·) (nomatch ·)
  · rfl

end WordExpr
