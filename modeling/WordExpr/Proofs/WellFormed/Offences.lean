import Mathlib.Data.List.Induction
import WordExpr.Proofs.WellFormed.Agreement

/-!
# What can be wrong with a well-formed text

The automaton looks neither at the depth of brackets nor at the spelling of words, and it lets a
bracket follow a word. So three things can still be wrong with a text (`exists_offence_iff`):

* `Calls`        an opening bracket right behind a word;
* `Overcloses`   a closing bracket for which there is no opening one;
* `Illegible`    a word that is neither a name nor a number.

`Offence` is one of them at its place, with what is to be reported about it, and `FirstOffence` the
first one of a text, which is unique (`FirstOffence.unique`).
-/

namespace WordExpr

/-- what is wrong where the text `before` goes on, and what is reported about it -/
inductive Offence (before : List Char) : List Char → ParseError → Prop where
  | call {c : Char} {cs : List Char} (hw : ∃ d ∈ before.getLast?, isTermChar d = true)
    (hc : isOpening c = true) :
    Offence before (c :: cs)
      (.structural .noFreeSlot (String.singleton c) (byteLength before))
  | unmatched {c : Char} {cs : List Char} (hc : isClosing c = true)
    (hb : (before ++ [c]).countP isOpening < (before ++ [c]).countP isClosing) :
    Offence before (c :: cs)
      (.structural .unmatchedClose (String.singleton c) (byteLength before))
  | illegible {w rest : List Char} (hb : ∀ d ∈ before.getLast?, isTermChar d = false)
    (hw : IsWord w) (hr : EndsWord rest) (hs : ∀ s, Symbol.ofTerm (String.ofList w) ≠ .ok s) :
    Offence before (w ++ rest) (.invalidLiteral (String.ofList w))

/-- there is no offence before the character `n` -/
def CleanUpTo (cs : List Char) (n : Nat) : Prop :=
  ∀ u v e, cs = u ++ v → Offence u v e → n ≤ u.length

/-- the first offence is reported as `e` -/
def FirstOffence (cs : List Char) (e : ParseError) : Prop :=
  ∃ before after, cs = before ++ after ∧ Offence before after e ∧ CleanUpTo cs before.length

/-! ## the three offences in a text -/

def Calls (cs : List Char) : Prop :=
  ∃ u d c v, cs = u ++ d :: c :: v ∧ isTermChar d = true ∧ isOpening c = true

def Overcloses (cs : List Char) : Prop :=
  ∃ u v, cs = u ++ v ∧ u.countP isOpening < u.countP isClosing

def Illegible (cs : List Char) : Prop :=
  ∃ u w v, cs = u ++ (w ++ v) ∧ (∀ d ∈ u.getLast?, isTermChar d = false) ∧ IsWord w ∧
    EndsWord v ∧ ∀ s, Symbol.ofTerm (String.ofList w) ≠ .ok s

/-- a surplus of closing brackets starts at one of them -/
theorem exists_unmatched {u : List Char} (h : u.countP isOpening < u.countP isClosing)
    (v : List Char) : ∃ before c cs, u ++ v = before ++ c :: cs ∧ isClosing c = true ∧
      (before ++ [c]).countP isOpening < (before ++ [c]).countP isClosing := by
  induction u using List.reverseRecOn generalizing v with
  | nil => exact absurd h (Nat.lt_irrefl 0)
  | append_singleton u c ih =>
    rw [List.append_assoc]
    cases hc : isClosing c with
    | true => exact ⟨u, c, v, rfl, hc, h⟩
    | false =>
      refine ih ?_ ([c] ++ v)
      rw [List.countP_append, List.countP_append, List.countP_singleton, List.countP_singleton,
        hc] at h
      simp only [Bool.false_eq_true, if_false] at h
      omega

theorem exists_offence_iff {cs : List Char} :
    (∃ u v e, cs = u ++ v ∧ Offence u v e) ↔ Calls cs ∨ Overcloses cs ∨ Illegible cs := by
  constructor
  · rintro ⟨u, v, e, rfl, ho⟩
    cases ho with
    | @call c cs hw hc =>
      obtain ⟨d, hd, hterm⟩ := hw
      obtain ⟨u, rfl⟩ := List.getLast?_eq_some_iff.mp hd
      exact .inl ⟨u, d, c, cs, by simp, hterm, hc⟩
    | @unmatched c cs hc hb => exact .inr (.inl ⟨u ++ [c], cs, by simp, hb⟩)
    | @illegible w rest hb hw hr hs => exact .inr (.inr ⟨u, w, rest, rfl, hb, hw, hr, hs⟩)
  · rintro (⟨u, d, c, v, rfl, hterm, hc⟩ | ⟨u, v, rfl, hlt⟩ | ⟨u, w, v, rfl, hb, hw, hr, hs⟩)
    · exact ⟨u ++ [d], c :: v, _, by simp, .call ⟨d, List.getLast?_concat, hterm⟩ hc⟩
    · obtain ⟨before, c, cs, he, hc, hb⟩ := exists_unmatched hlt v
      exact ⟨before, c :: cs, _, he, .unmatched hc hb⟩
    · exact ⟨u, w ++ v, _, rfl, .illegible hb hw hr hs⟩

/-! ## one offence at a place -/

namespace Offence

variable {before cs : List Char} {c : Char} {e e' : ParseError}

theorem ne_nil {after : List Char} (h : Offence before after e) : after ≠ [] := by
  cases h with
  | call hw hc => exact List.cons_ne_nil _ _
  | unmatched hc hb => exact List.cons_ne_nil _ _
  | illegible hb hw hr hs => exact List.append_ne_nil_of_left_ne_nil hw.1 _

/-- at a character of terms only a word can be wrong -/
theorem of_isTermChar (h : Offence before (c :: cs) e) (hc : isTermChar c = true) :
    (∀ d ∈ before.getLast?, isTermChar d = false) ∧ ∃ w rest, c :: cs = w ++ rest ∧ IsWord w ∧
      EndsWord rest ∧ (∀ s, Symbol.ofTerm (String.ofList w) ≠ .ok s) ∧
      e = .invalidLiteral (String.ofList w) := by
  have hclass := CharClass.of?_of_isTermChar hc
  generalize hv : c :: cs = v at h
  cases h with
  | call hw hc' =>
    cases hv
    have hno := CharClass.holds_eq_false (j := .opening) hclass (by decide)
    exact absurd (hc'.symm.trans hno) (by decide)
  | unmatched hc' hb =>
    cases hv
    have hno := CharClass.holds_eq_false (j := .closing) hclass (by decide)
    exact absurd (hc'.symm.trans hno) (by decide)
  | @illegible w rest hb hw hr hs => exact ⟨hb, w, rest, rfl, hw, hr, hs, rfl⟩

/-- at any other character only a bracket can be wrong -/
theorem of_class (h : Offence before (c :: cs) e) {k : CharClass} (hc : CharClass.of? c = some k)
    (hk : k ≠ .term) :
    (k = .opening ∧ (∃ d ∈ before.getLast?, isTermChar d = true) ∧
      e = .structural .noFreeSlot (String.singleton c) (byteLength before)) ∨
    (k = .closing ∧
      (before ++ [c]).countP isOpening < (before ++ [c]).countP isClosing ∧
      e = .structural .unmatchedClose (String.singleton c) (byteLength before)) := by
  generalize hv : c :: cs = v at h
  cases h with
  | call hw hc' =>
    cases hv
    rw [(CharClass.of?_eq_some_iff (k := .opening)).mpr hc'] at hc
    exact .inl ⟨(Option.some.inj hc).symm, hw, rfl⟩
  | unmatched hc' hb =>
    cases hv
    rw [(CharClass.of?_eq_some_iff (k := .closing)).mpr hc'] at hc
    exact .inr ⟨(Option.some.inj hc).symm, hb, rfl⟩
  | @illegible w rest hb hw hr hs =>
    obtain ⟨d, w, rfl, hd⟩ := hw.exists_cons
    cases hv
    rw [CharClass.of?_of_isTermChar hd] at hc
    exact absurd (Option.some.inj hc).symm hk

theorem unique {after : List Char} (h : Offence before after e) (h' : Offence before after e') :
    e = e' := by
  cases h with
  | call hw hc =>
    rcases h'.of_class ((CharClass.of?_eq_some_iff (k := .opening)).mpr hc) (by decide) with
      ⟨-, -, rfl⟩ | ⟨hk, -⟩
    · rfl
    · cases hk
  | unmatched hc hb =>
    rcases h'.of_class ((CharClass.of?_eq_some_iff (k := .closing)).mpr hc) (by decide) with
      ⟨hk, -⟩ | ⟨-, -, rfl⟩
    · cases hk
    · rfl
  | @illegible w rest hb hw hr hs =>
    obtain ⟨c, cs, rfl, hc⟩ := hw.exists_cons
    obtain ⟨-, w', rest', he, hw', hr', -, rfl⟩ := of_isTermChar h' hc
    have he : (c :: cs) ++ rest = w' ++ rest' := he
    have hword := congrArg (List.takeWhile isTermChar) he
    rw [(Cursor.takeWhile_append hw.2 hr).1,
      (Cursor.takeWhile_append hw'.2 hr').1] at hword
    rw [hword]

end Offence

theorem FirstOffence.unique {cs : List Char} {e e' : ParseError} (h : FirstOffence cs e)
    (h' : FirstOffence cs e') : e = e' := by
  obtain ⟨u, v, rfl, ho, hclean⟩ := h
  obtain ⟨u', v', he, ho', hclean'⟩ := h'
  have hlen : u.length = u'.length :=
    Nat.le_antisymm (hclean u' v' e' he ho') (hclean' u v e rfl ho)
  obtain ⟨rfl, rfl⟩ := List.append_inj he hlen
  exact ho.unique ho'

/-! ## going on behind a token -/

namespace CleanUpTo

variable {before rest : List Char}

/-- one more token, without an offence in front of any of its characters -/
theorem append {w : List Char} (h : CleanUpTo (before ++ (w ++ rest)) before.length)
    (hno : ∀ p q e, w = p ++ q → q ≠ [] → ¬ Offence (before ++ p) (q ++ rest) e) :
    CleanUpTo ((before ++ w) ++ rest) (before ++ w).length := by
  intro u v e he ho
  rw [List.append_assoc] at he
  have hle : before.length ≤ u.length := h u v e he ho
  by_contra hlt
  -- then the offence lies between the first character of the token and its last
  have hu : u <+: before ++ (w ++ rest) := he ▸ List.prefix_append u v
  have hw : before ++ w <+: before ++ (w ++ rest) := by
    rw [← List.append_assoc]
    exact List.prefix_append _ rest
  obtain ⟨q, hq⟩ := List.prefix_of_prefix_length_le hu hw (Nat.le_of_not_le hlt)
  obtain ⟨p, rfl⟩ : before <+: u :=
    List.prefix_of_prefix_length_le (List.prefix_append before w) ⟨q, hq⟩ hle
  rw [List.append_assoc] at hq
  have hw : w = p ++ q := (List.append_cancel_left hq).symm
  rw [hw, List.append_assoc, List.append_assoc] at he
  have hv : q ++ rest = v := List.append_cancel_left (List.append_cancel_left he)
  refine hno p q e hw ?_ (hv ▸ ho)
  rintro rfl
  rw [List.append_nil] at hw
  rw [hw] at hlt
  exact hlt (Nat.le_refl _)

theorem append_char {c : Char} (h : CleanUpTo (before ++ c :: rest) before.length)
    (hno : ∀ e, ¬ Offence before (c :: rest) e) :
    CleanUpTo ((before ++ [c]) ++ rest) (before ++ [c]).length := by
  refine append (w := [c]) h fun p q e hpq hq => ?_
  cases p with
  | nil =>
    cases hpq
    rw [List.append_nil]
    exact hno e
  | cons d p => exact absurd (List.append_eq_nil_iff.mp (List.cons.inj hpq).2.symm).2 hq

/-- inside a word there is no offence -/
theorem append_word {w : List Char} (h : CleanUpTo (before ++ (w ++ rest)) before.length)
    (hw : ∀ c ∈ w, isTermChar c = true) (hno : ∀ e, ¬ Offence before (w ++ rest) e) :
    CleanUpTo ((before ++ w) ++ rest) (before ++ w).length := by
  refine append h fun p q e hpq hq ho => ?_
  obtain ⟨c, q, rfl⟩ := List.exists_cons_of_ne_nil hq
  obtain ⟨hb, -⟩ := ho.of_isTermChar (hw c (by rw [hpq]; simp))
  rcases List.eq_nil_or_concat' p with rfl | ⟨p, d, rfl⟩
  · rw [List.append_nil] at ho
    rw [hpq] at hno
    exact hno e ho
  · have hd : isTermChar d = true := hw d (by rw [hpq]; simp)
    have hlast := hb d (by rw [← List.append_assoc]; exact List.getLast?_concat)
    rw [hd] at hlast
    cases hlast

end CleanUpTo

end WordExpr
