import Mathlib.Control.Monad.Basic
import Mathlib.Tactic.ByContra
import WordExpr.Proofs.WellFormed.Run

/-!
# The first character that is hopeless

* `Viable cs`              some well-formed text begins with the characters `cs`;
* `Derails cs before c`    the first character of `cs` that no well-formed text goes on with is
                           `c`, right behind `before`.

The automaton has no dead ends: whatever it has read, and however many brackets are missing on
either side, there is a `State.completion` (`State.accepting_completion`). So a text is viable
exactly if the automaton has not refused it (`viable_iff`), and the character that is reported is
the first one that is hopeless (`validate_derails`).
-/

namespace WordExpr

def Viable (cs : List Char) : Prop := ∃ rest, validate (.ofList (cs ++ rest)) = .ok ()

structure Derails (cs before : List Char) (c : Char) : Prop where
  isPrefix : before ++ [c] <+: cs
  viable : ∀ p, p <+: before → Viable p
  hopeless : ¬ Viable (before ++ [c])

/-! ## no dead ends -/

namespace State

variable {s : State}

/-- an operand may follow, with any number of brackets in front of it -/
def TakesOperand (s : State) : Prop := s.step .term = term ∧ s.step .opening = opened

/-- what leads to an operand -/
def joint (s : State) : List Char := if s.accepting then ['+'] else []

/-- what brings a text with `n` opening and `m` closing brackets to a good end -/
def completion (s : State) (n m : Nat) : List Char :=
  s.joint ++ List.replicate m '(' ++ 'a' :: List.replicate n ')'

theorem takesOperand_joint (h : s ≠ refused) : (s.joint.foldl read s).TakesOperand := by
  cases s with
  | refused => exact absurd rfl h
  | start | opened | closed | operator | unary | term | termEnded => exact ⟨rfl, rfl⟩

theorem TakesOperand.foldl_opening (h : s.TakesOperand) (m : Nat) :
    ((List.replicate m '(').foldl read s).TakesOperand := by
  induction m generalizing s with
  | zero => exact h
  | succ m ih =>
    have hread : s.read '(' = opened := h.2
    rw [List.replicate_succ, List.foldl_cons, hread]
    exact ih ⟨rfl, rfl⟩

theorem Ended.foldl_closing (h : s.Ended) (n : Nat) :
    ((List.replicate n ')').foldl read s).Ended := by
  induction n generalizing s with
  | zero => exact h
  | succ n ih =>
    have hread : s.read ')' = closed := by
      rcases h with rfl | rfl <;> rfl
    rw [List.replicate_succ, List.foldl_cons, hread]
    exact ih (.inl rfl)

theorem accepting_completion (h : s ≠ refused) (n m : Nat) :
    ((s.completion n m).foldl read s).accepting = true := by
  have hterm : ((s.joint ++ List.replicate m '(').foldl read s).read 'a' = term := by
    rw [List.foldl_append]
    exact ((takesOperand_joint h).foldl_opening m).1
  rw [completion, List.foldl_append, List.foldl_cons, hterm]
  rcases Ended.foldl_closing (s := term) (.inr rfl) n with hs | hs
  · rw [hs]; rfl
  · rw [hs]; rfl

/-- the brackets that were missing -/
theorem countP_completion (s : State) (n m : Nat) :
    (s.completion n m).countP isOpening = m ∧ (s.completion n m).countP isClosing = n := by
  have hjoint : s.joint.countP isOpening = 0 ∧ s.joint.countP isClosing = 0 := by
    cases s <;> decide
  have hopen : isOpening '(' = true ∧ isOpening 'a' = false ∧ isOpening ')' = false := by decide
  have hclose : isClosing '(' = false ∧ isClosing 'a' = false ∧ isClosing ')' = true := by decide
  simp [completion, List.countP_append, List.countP_replicate, hjoint, hopen, hclose]

/-- a refusal has a first character -/
theorem exists_read_eq_refused {cs : List Char} (hs : s ≠ refused)
    (h : cs.foldl read s = refused) : ∃ before c rest, cs = before ++ c :: rest ∧
      before.foldl read s ≠ refused ∧ (before.foldl read s).read c = refused := by
  induction cs generalizing s with
  | nil => exact absurd h hs
  | cons c cs ih =>
    by_cases hc : s.read c = refused
    · exact ⟨[], c, cs, rfl, hs, hc⟩
    · obtain ⟨before, d, rest, rfl, hbefore, hd⟩ := ih hc h
      exact ⟨c :: before, d, rest, rfl, hbefore, hd⟩

end State

/-! ## viable texts -/

variable {cs before : List Char} {c : Char}

theorem exists_validate (h : cs.foldl State.read .start ≠ .refused) :
    ∃ rest, rest ≠ [] ∧ validate (.ofList (cs ++ rest)) = .ok () := by
  obtain ⟨ho, hc⟩ := State.countP_completion (cs.foldl State.read .start) (cs.countP isOpening)
    (cs.countP isClosing)
  refine ⟨(cs.foldl State.read .start).completion (cs.countP isOpening) (cs.countP isClosing),
    List.append_ne_nil_of_right_ne_nil _ (List.cons_ne_nil _ _), ?_⟩
  rw [validate_eq_ok_iff, String.toList_ofList, List.foldl_append, List.countP_append,
    List.countP_append, ho, hc]
  exact ⟨State.accepting_completion h _ _, Nat.add_comm _ _⟩

theorem viable_iff : Viable cs ↔ cs.foldl State.read .start ≠ .refused := by
  constructor
  · rintro ⟨rest, hv⟩
    obtain ⟨hacc, -⟩ := (validate_eq_ok_iff _).mp hv
    rw [String.toList_ofList, List.foldl_append] at hacc
    exact State.ne_refused_of_accepting hacc
  · intro h
    obtain ⟨rest, -, hv⟩ := exists_validate h
    exact ⟨rest, hv⟩

theorem Viable.of_isPrefix {p : List Char} (h : Viable cs) (hp : p <+: cs) : Viable p := by
  obtain ⟨rest, rfl⟩ := hp
  rw [viable_iff, List.foldl_append] at h
  exact viable_iff.mpr (State.ne_refused_of_foldl_read h)

theorem derails_iff : Derails cs before c ↔ ∃ rest, cs = before ++ c :: rest ∧
    before.foldl State.read .start ≠ .refused ∧
      (before.foldl State.read .start).read c = .refused := by
  have hlast : Viable (before ++ [c]) ↔ (before.foldl State.read .start).read c ≠ .refused := by
    rw [viable_iff, List.foldl_append]
    rfl
  constructor
  · rintro ⟨⟨rest, rfl⟩, hviable, hhopeless⟩
    refine ⟨rest, by simp, viable_iff.mp (hviable before (List.prefix_refl _)), ?_⟩
    exact Decidable.not_not.mp (mt hlast.mpr hhopeless)
  · rintro ⟨rest, rfl, hbefore, hc⟩
    exact ⟨⟨rest, by simp⟩, fun p hp => (viable_iff.mpr hbefore).of_isPrefix hp,
      fun h => hlast.mp h hc⟩

/-! ## what is reported -/

namespace Reading

theorem verdict_ne_unexpected (r : Reading) (c : Char) (offset : Nat) (s : State) :
    r.verdict ≠ .error (.unexpected c offset s) := by
  unfold verdict
  split
  · exact fun h => nomatch h
  · split
    · exact fun h => nomatch h
    · exact fun h => nomatch h

theorem check_eq_unexpected_iff {r : Reading} (hr : r.state ≠ .refused) (cs : List Char)
    (offset : Nat) (s : State) : r.check cs = .error (.unexpected c offset s) ↔
      ∃ before rest, cs = before ++ c :: rest ∧ r.offset + byteLength before = offset ∧
        before.foldl State.read r.state = s ∧ s ≠ .refused ∧ s.read c = .refused := by
  induction cs generalizing r with
  | nil =>
    refine iff_of_false (r.verdict_ne_unexpected c offset s) ?_
    rintro ⟨before, rest, hnil, -⟩
    exact List.append_ne_nil_of_right_ne_nil _ (List.cons_ne_nil _ _) hnil.symm
  | cons d cs ih =>
    have hbytes (before : List Char) : (r.step d).offset + byteLength before =
        r.offset + byteLength (d :: before) := by
      rw [byteLength_cons, ← Nat.add_assoc]
      rfl
    rw [check]
    split
    · next hrefused =>
      constructor
      · intro h
        cases h
        exact ⟨[], cs, rfl, rfl, rfl, hr, hrefused⟩
      · rintro ⟨before, rest, hcs, hoffset, hs, hne, hc⟩
        cases before with
        | nil =>
          obtain ⟨rfl, rfl⟩ := List.cons.inj hcs
          rw [← hoffset, ← hs]
          rfl
        | cons b before =>
          -- nothing is read behind a refused character
          obtain ⟨rfl, rfl⟩ := List.cons.inj hcs
          rw [← hs] at hne
          exact absurd hrefused (State.ne_refused_of_foldl_read (s := r.state.read d) hne)
    · next hgoes =>
      rw [ih hgoes]
      constructor
      · rintro ⟨before, rest, rfl, hoffset, hs⟩
        exact ⟨d :: before, rest, rfl, (hbytes before).symm.trans hoffset, hs⟩
      · rintro ⟨before, rest, hcs, hoffset, hs, hne, hc⟩
        cases before with
        | nil =>
          obtain ⟨rfl, rfl⟩ := List.cons.inj hcs
          rw [← hs] at hc
          exact absurd hc hgoes
        | cons b before =>
          obtain ⟨rfl, rfl⟩ := List.cons.inj hcs
          exact ⟨before, rest, rfl, (hbytes before).trans hoffset, hs, hne, hc⟩

end Reading

theorem validate_eq_unexpected_iff (text : String) (offset : Nat) (s : State) :
    validate text = .error (.unexpected c offset s) ↔ ∃ before, Derails text.toList before c ∧
      byteLength before = offset ∧ before.foldl State.read .start = s := by
  have hcheck := Reading.check_eq_unexpected_iff (c := c) (r := {}) (by decide) text.toList offset s
  have hvalidate : validate text = .error (.unexpected c offset s) ↔
      Reading.check {} text.toList = .error (.unexpected c offset s) := by
    unfold validate
    split
    · next h =>
      rw [h]
      exact iff_of_false (nomatch ·) (Reading.verdict_ne_unexpected {} c offset s)
    · rfl
  rw [hvalidate, hcheck]
  constructor
  · rintro ⟨before, rest, hcs, hoffset, rfl, hne, hc⟩
    exact ⟨before, derails_iff.mpr ⟨rest, hcs, hne, hc⟩, (Nat.zero_add _).symm.trans hoffset, rfl⟩
  · rintro ⟨before, hderails, hoffset, rfl⟩
    obtain ⟨rest, hcs, hne, hc⟩ := derails_iff.mp hderails
    exact ⟨before, rest, hcs, (Nat.zero_add _).trans hoffset, rfl, hne, hc⟩

/-- a text with a hopeless beginning has a first hopeless character -/
theorem exists_derails {p : List Char} (hp : p <+: cs) (h : ¬ Viable p) :
    ∃ before c, Derails cs before c := by
  have hrefused : cs.foldl State.read .start = .refused := by
    by_contra hne
    exact h ((viable_iff.mpr hne).of_isPrefix hp)
  obtain ⟨before, c, rest, hcs, hne, hc⟩ := State.exists_read_eq_refused (by decide) hrefused
  exact ⟨before, c, derails_iff.mpr ⟨rest, hcs, hne, hc⟩⟩

/-- **The first hopeless character is reported.** A character is unexpected exactly if it is the
first one of the text that no well-formed text goes on with, and it is reported with its place. A
text that is wrong only at its end is the beginning of a longer well-formed one. -/
theorem validate_derails (text : String) :
    (∀ c offset s, validate text = .error (.unexpected c offset s) ↔
      ∃ before, Derails text.toList before c ∧ byteLength before = offset ∧
        before.foldl State.read .start = s) ∧
    (∀ why, validate text = .error why →
      why = .empty ∨ (∃ opened closed, why = .unbalanced opened closed) ∨
        (∃ s, why = .incomplete s) →
      ∃ rest, rest ≠ [] ∧ validate (.ofList (text.toList ++ rest)) = .ok ()) ∧
    ∀ p, p <+: text.toList → ¬ Viable p → ∃ before c, Derails text.toList before c ∧
      before.length < p.length ∧ validate text = .error (.unexpected c (byteLength before)
        (before.foldl State.read .start)) := by
  refine ⟨fun c offset s => validate_eq_unexpected_iff text offset s, fun why hwhy hend => ?_,
    fun p hp hhopeless => ?_⟩
  · refine exists_validate fun hrefused => ?_
    obtain ⟨before, c, hderails⟩ := exists_derails (List.prefix_refl text.toList)
      (mt viable_iff.mp (not_not_intro hrefused))
    have hunexpected := (validate_eq_unexpected_iff text _ _).mpr ⟨before, hderails, rfl, rfl⟩
    cases hwhy.symm.trans hunexpected
    rcases hend with h | ⟨_, _, h⟩ | ⟨_, h⟩ <;> cases h
  · obtain ⟨before, c, hderails⟩ := exists_derails hp hhopeless
    refine ⟨before, c, hderails, ?_, (validate_eq_unexpected_iff text _ _).mpr
      ⟨before, hderails, rfl, rfl⟩⟩
    -- all beginnings up to there are viable
    by_contra hlen
    have hbefore : before <+: text.toList := (List.prefix_append ..).trans hderails.isPrefix
    exact hhopeless (hderails.viable p (List.prefix_of_prefix_length_le hp hbefore
      (Nat.not_lt.mp hlen)))

/-- closing brackets without opening ones do not make a text hopeless yet -/
theorem validate_derails_overclosed :
    (∃ before, Derails "a)]+b c".toList before 'c' ∧ byteLength before = 6) ∧
      validate "a)]+b " = .error (.unbalanced 0 2) ∧
      ∃ rest, rest ≠ [] ∧ validate (.ofList ("a)]+b ".toList ++ rest)) = .ok () := by
  have hv : validate "a)]+b c" = .error (.unexpected 'c' 6 .termEnded) := by decide +kernel
  have hv' : validate "a)]+b " = .error (.unbalanced 0 2) := by decide +kernel
  obtain ⟨before, hderails, hoffset, -⟩ := ((validate_derails "a)]+b c").1 'c' 6 .termEnded).mp hv
  obtain ⟨-, hend, -⟩ := validate_derails "a)]+b "
  exact ⟨⟨before, hderails, hoffset⟩, hv', hend _ hv' (.inr (.inl ⟨0, 2, rfl⟩))⟩

end WordExpr
