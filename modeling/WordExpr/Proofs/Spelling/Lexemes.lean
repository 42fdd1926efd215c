import Mathlib.Tactic.SplitIfs
import WordExpr.Proofs.Spelling.Words
import WordExpr.Source.Token

/-!
# What a text is made of

A text is a sequence of words, of other characters of the alphabet, and of characters outside it.
`lexeme_induction` is the induction along it, and `Cursor.items_word`, `Cursor.items_char` and
`Cursor.items_whitespace` say what each step of it adds to the tokens.

`CharClass.of?_eq_some_iff` gives the characters of a class, which `CharClass.holds_eq_false` tells
apart from those of the other classes.
-/

namespace WordExpr

/-! ## the characters of a class -/

namespace CharClass

/-- the test of a class -/
def holds : CharClass → Char → Bool
  | term => isTermChar
  | binaryOperator => isBinaryOperator
  | unaryOperator => isUnaryOperator
  | opening => isOpening
  | closing => isClosing
  | whitespace => isWhitespace

variable {c : Char} {k j : CharClass}

theorem of?_of_isTermChar (h : isTermChar c = true) : of? c = some .term := by
  unfold of?
  rw [if_pos h]

theorem of?_of_contains {cs : List Char} (h : cs.contains c = true)
    (hall : cs.all (of? · = some k) = true) : of? c = some k :=
  of_decide_eq_true (List.all_eq_true.mp hall c (List.contains_iff_mem.mp h))

theorem of?_eq_some_iff : of? c = some k ↔ k.holds c = true := by
  constructor
  · intro h
    unfold of? at h
    split_ifs at h <;> cases h <;> assumption
  · intro h
    cases k with
    | term => exact of?_of_isTermChar h
    | binaryOperator | opening | closing | whitespace => exact of?_of_contains h (by decide)
    | unaryOperator =>
      rcases Bool.or_eq_true_iff.mp h with h | h
      · rw [beq_iff_eq.mp h]
        decide
      · rw [beq_iff_eq.mp h]
        decide

theorem holds_eq_false (h : of? c = some k) (hj : k ≠ j) : j.holds c = false := by
  rw [Bool.eq_false_iff]
  intro h'
  rw [of?_eq_some_iff.mpr h'] at h
  exact hj (Option.some.inj h).symm

/-- a word has characters of terms only -/
theorem countP_holds_of_isWord {w : List Char} (hw : IsWord w) (hk : k ≠ .term) :
    w.countP k.holds = 0 := by
  refine List.countP_eq_zero.mpr fun c hc => ?_
  rw [holds_eq_false (of?_of_isTermChar (hw.2 c hc)) (Ne.symm hk)]
  exact Bool.false_ne_true

end CharClass

/-- the class of an operator -/
def Operator.charClass (op : Operator) : CharClass :=
  if op.isUnary then .unaryOperator else .binaryOperator

theorem Operator.of?_char (op : Operator) : CharClass.of? op.char = some op.charClass := by
  cases op <;> decide

theorem Operator.charClass_ne_opening (op : Operator) : op.charClass ≠ .opening := by
  cases op <;> decide

theorem Operator.charClass_ne_closing (op : Operator) : op.charClass ≠ .closing := by
  cases op <;> decide

/-! ## along a text -/

/-- no word goes on here -/
def EndsWord (rest : List Char) : Prop := ∀ c ∈ rest.head?, isTermChar c = false

@[elab_as_elim]
theorem lexeme_induction {motive : List Char → Prop} (cs : List Char) (nil : motive [])
    (whitespace : ∀ c cs, isWhitespace c = true → motive cs → motive (c :: cs))
    (word : ∀ w rest, IsWord w → EndsWord rest → motive rest → motive (w ++ rest))
    (char : ∀ c k cs, CharClass.of? c = some k → k ≠ .term → k ≠ .whitespace → motive cs →
      motive (c :: cs))
    (foreign : ∀ c cs, CharClass.of? c = none → motive (c :: cs)) : motive cs := by
  induction hn : cs.length using Nat.strongRecOn generalizing cs with
  | ind n ih =>
    subst hn
    cases cs with
    | nil => exact nil
    | cons c cs =>
      have hcs : motive cs := ih cs.length (Nat.lt_succ_self _) cs rfl
      cases hk : CharClass.of? c with
      | none => exact foreign c cs hk
      | some k =>
        by_cases hterm : k = .term
        · -- the word goes as far as there are characters of terms
          subst hterm
          have hc : isTermChar c = true := CharClass.of?_eq_some_iff.mp hk
          rw [← List.takeWhile_append_dropWhile (p := isTermChar) (l := c :: cs)]
          refine word _ _ ⟨?_, List.all_eq_true.mp List.all_takeWhile⟩ ?_ (ih _ ?_ _ rfl)
          · rw [List.takeWhile_cons_of_pos hc]
            exact List.cons_ne_nil _ _
          · intro d hd
            have hnot := List.head?_dropWhile_not isTermChar (c :: cs)
            rw [Option.mem_def.mp hd] at hnot
            exact hnot
          · rw [List.dropWhile_cons_of_pos hc, List.length_cons]
            exact Nat.lt_succ_of_le (List.dropWhile_suffix isTermChar).length_le
        · by_cases hwhite : k = .whitespace
          · subst hwhite
            exact whitespace c cs (CharClass.of?_eq_some_iff.mp hk) hcs
          · exact char c k cs hk hterm hwhite hcs

/-! ## its tokens -/

theorem Token.firstChar_singleton (kind : TokenKind) (c : Char) (offset : Nat) :
    Token.firstChar ⟨kind, String.singleton c, offset⟩ = c := by
  unfold firstChar
  rw [String.toList_singleton]
  rfl

theorem byteLength_append (cs ds : List Char) :
    byteLength (cs ++ ds) = byteLength cs + byteLength ds := by
  unfold byteLength
  rw [String.ofList_append, String.utf8ByteSize_append]

theorem byteLength_singleton (c : Char) : byteLength [c] = c.utf8Size :=
  String.utf8ByteSize_singleton

theorem byteLength_cons (c : Char) (cs : List Char) :
    byteLength (c :: cs) = c.utf8Size + byteLength cs := by
  rw [← byteLength_singleton, ← byteLength_append]
  rfl

namespace Cursor

theorem items_of_none {p : Cursor} (h : p.next = none) : p.items = [] := by
  unfold items
  split
  · rfl
  · next hn =>
    rw [h] at hn
    cases hn

theorem items_of_some {p q : Cursor} {item : Item} (h : p.next = some (item, q)) :
    p.items = item :: q.items := by
  rw [items]
  split
  · next hn =>
    rw [h] at hn
    cases hn
  · next item' q' hn =>
    rw [h] at hn
    cases hn
    rfl

theorem takeWhile_append {w rest : List Char} (hw : ∀ c ∈ w, isTermChar c = true)
    (hrest : EndsWord rest) :
    (w ++ rest).takeWhile isTermChar = w ∧ (w ++ rest).dropWhile isTermChar = rest := by
  induction w with
  | nil =>
    cases rest with
    | nil => exact ⟨rfl, rfl⟩
    | cons c cs =>
      have hc := hrest c rfl
      exact ⟨List.takeWhile_cons_of_neg (by rw [hc]; exact Bool.false_ne_true),
        List.dropWhile_cons_of_neg (by rw [hc]; exact Bool.false_ne_true)⟩
  | cons c w ih =>
    obtain ⟨hc, hw⟩ := List.forall_mem_cons.mp hw
    obtain ⟨h1, h2⟩ := ih hw
    rw [List.cons_append, List.takeWhile_cons_of_pos hc, List.dropWhile_cons_of_pos hc, h1, h2]
    exact ⟨rfl, rfl⟩

/-- a word ends where the characters of terms end -/
theorem items_word {w rest : List Char} (hw : IsWord w)
    (hrest : EndsWord rest) (offset : Nat) :
    items ⟨w ++ rest, offset⟩ =
      .ok ⟨.term, String.ofList w, offset⟩ :: items ⟨rest, offset + byteLength w⟩ := by
  obtain ⟨hne, hall⟩ := hw
  cases w with
  | nil => exact absurd rfl hne
  | cons c w =>
    obtain ⟨hc, hw⟩ := List.forall_mem_cons.mp hall
    obtain ⟨h1, h2⟩ := takeWhile_append hw hrest
    refine items_of_some ?_
    unfold next
    rw [List.cons_append, nextFrom, CharClass.of?_of_isTermChar hc]
    simp only [h1, h2]

/-- an operator or a bracket is a token of its own -/
theorem items_char {c : Char} {k : CharClass} (hc : CharClass.of? c = some k) (hk : k ≠ .term)
    (hk' : k ≠ .whitespace) (cs : List Char) (offset : Nat) :
    items ⟨c :: cs, offset⟩ =
      .ok ⟨k.kind, String.singleton c, offset⟩ :: items ⟨cs, offset + c.utf8Size⟩ := by
  refine items_of_some ?_
  unfold next nextFrom
  rw [hc]
  cases k with
  | term => exact absurd rfl hk
  | whitespace => exact absurd rfl hk'
  | binaryOperator | unaryOperator | opening | closing => rfl

theorem items_whitespace {c : Char} (hc : isWhitespace c = true) (cs : List Char) (offset : Nat) :
    items ⟨c :: cs, offset⟩ = items ⟨cs, offset + c.utf8Size⟩ := by
  have hnext : next ⟨c :: cs, offset⟩ = next ⟨cs, offset + c.utf8Size⟩ := by
    unfold next
    rw [nextFrom, (CharClass.of?_eq_some_iff (k := .whitespace)).mpr hc]
  cases h : next ⟨cs, offset + c.utf8Size⟩ with
  | none => rw [items_of_none h, items_of_none (hnext.trans h)]
  | some p => rw [items_of_some h, items_of_some (hnext.trans h)]

theorem items_foreign {c : Char} (hc : CharClass.of? c = none) (cs : List Char) (offset : Nat) :
    items ⟨c :: cs, offset⟩ = [.error (.unexpected c offset)] := by
  have hnext : next ⟨c :: cs, offset⟩ =
      some (.error (.unexpected c offset), ⟨[], offset + byteLength (c :: cs)⟩) := by
    unfold next
    rw [nextFrom, hc]
  rw [items_of_some hnext, items_of_none rfl]

end Cursor

end WordExpr
