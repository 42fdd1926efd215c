import WordExpr.Proofs.Formula
import WordExpr.Registry
import WordExpr.Text.Basic

/-!
# Words

The texts that a rendering writes for operands, and what they are read as.

* `IsWord cs`    some characters of terms and no others;
* `IsName cs`    a word with a letter or `_` in front, which is read as a name (`IsName.ofTerm_eq`):
                 the canonical names (`isName_nameChars`) and `v` with a number (`isName_numbered`),
                 both different for different variables;
* decimal digits are a word that is read as the number (`ofTerm_decimal`).
-/

namespace WordExpr

open Text

def IsWord (cs : List Char) : Prop := cs ≠ [] ∧ ∀ c ∈ cs, isTermChar c = true

theorem IsWord.exists_cons {cs : List Char} (h : IsWord cs) :
    ∃ c ds, cs = c :: ds ∧ isTermChar c = true := by
  obtain ⟨hne, hall⟩ := h
  obtain ⟨c, ds, rfl⟩ := List.exists_cons_of_ne_nil hne
  exact ⟨c, ds, rfl, hall c (List.mem_cons_self ..)⟩

def IsName (cs : List Char) : Prop := IsWord cs ∧ ∀ c ∈ cs.head?, isAlpha c = true

theorem IsName.ofTerm_eq {cs : List Char} (h : IsName cs) :
    Symbol.ofTerm (String.ofList cs) = .ok (.term (String.ofList cs)) := by
  unfold Symbol.ofTerm
  rw [String.toList_ofList]
  cases cs with
  | nil => exact absurd rfl h.1.1
  | cons c cs =>
    show (if isAlpha c then _ else _) = _
    rw [if_pos (h.2 c rfl)]

/-! ## digits -/

theorem toNat_of_isDigit {c : Char} (h : c.isDigit = true) : 48 ≤ c.toNat ∧ c.toNat ≤ 57 := by
  simpa [Char.isDigit, Char.le_def, UInt32.le_iff_toNat_le] using h

theorem isTermChar_of_isDigit {c : Char} (h : c.isDigit = true) : isTermChar c = true := by
  unfold isTermChar isNumeric
  rw [h, Bool.or_true]

theorem isAlpha_of_isDigit {c : Char} (h : c.isDigit = true) : isAlpha c = false := by
  obtain ⟨h1, h2⟩ := toNat_of_isDigit h
  have hall : ∀ i : Fin 10, isAlpha (Char.ofNat (48 + i)) = false := by decide
  have hc : 48 + (c.toNat - 48) = c.toNat := by omega
  have hi := hall ⟨c.toNat - 48, by omega⟩
  rwa [hc, Char.ofNat_toNat] at hi

theorem isDigit_of_mem_decimal {n : Nat} {c : Char} (hc : c ∈ decimal n) : c.isDigit = true :=
  Nat.isDigit_of_mem_toDigits (by decide) (by decide) hc

theorem isWord_decimal (n : Nat) : IsWord (decimal n) :=
  ⟨Nat.toDigits_ne_nil, fun _ hc => isTermChar_of_isDigit (isDigit_of_mem_decimal hc)⟩

theorem decimal_injective {m n : Nat} (h : decimal m = decimal n) : m = n := by
  have hm : Nat.ofDigitChars 10 (decimal m) 0 = m := Nat.ofDigitChars_ten_toDigits
  rw [← hm, h]
  exact Nat.ofDigitChars_ten_toDigits

/-! ## numbers -/

theorem digit?_of_isDigit {c : Char} (h : c.isDigit = true) :
    digit? 10 c = some (c.toNat - '0'.toNat) := by
  obtain ⟨h1, h2⟩ := toNat_of_isDigit h
  have hlt : c.toNat - 48 < 10 := by omega
  simp only [digit?, h1, h2, and_self, if_true, hlt]
  rfl

theorem le_ofDigitChars (cs : List Char) (v : Nat) : v ≤ Nat.ofDigitChars 10 cs v := by
  rw [Nat.ofDigitChars_eq_ofDigitChars_zero]
  have hpos : 0 < 10 ^ cs.length := Nat.pow_pos (by decide)
  exact Nat.le_trans (Nat.le_mul_of_pos_left v hpos) (Nat.le_add_right _ _)

/-- digits whose number fits 64 bits are read to the end -/
theorem saturating_eq_ofDigitChars {cs : List Char} {v : Nat} (hcs : ∀ c ∈ cs, c.isDigit = true)
    (hv : Nat.ofDigitChars 10 cs v < UInt64.size) :
    saturating 10 v cs = some (Nat.ofDigitChars 10 cs v) := by
  induction cs generalizing v with
  | nil =>
    rw [Nat.ofDigitChars_nil]
    rfl
  | cons c cs ih =>
    obtain ⟨hc, hcs⟩ := List.forall_mem_cons.mp hcs
    rw [Nat.ofDigitChars_cons, Nat.mul_comm] at hv ⊢
    unfold saturating
    rw [digit?_of_isDigit hc]
    have hlt : v * 10 + (c.toNat - '0'.toNat) < UInt64.size :=
      Nat.lt_of_le_of_lt (le_ofDigitChars cs _) hv
    show (if _ then _ else _) = _
    rw [if_pos hlt, ih hcs hv]

theorem literalChars_decimal {n : Nat} (hn : n < UInt64.size) :
    literalChars (decimal n) = some n := by
  have hall : ∀ c ∈ decimal n, c.isDigit = true := fun c hc => isDigit_of_mem_decimal hc
  have hvalue : Nat.ofDigitChars 10 (decimal n) 0 = n := Nat.ofDigitChars_ten_toDigits
  have hsat := saturating_eq_ofDigitChars (v := 0) hall (by rwa [hvalue])
  rw [hvalue] at hsat
  have hne : decimal n ≠ [] := Nat.toDigits_ne_nil
  -- no digit is a sign or the mark of another base
  have hx : ∀ c ∈ decimal n, c ≠ '+' ∧ c ≠ 'x' ∧ c ≠ 'X' := fun c hc => by
    refine ⟨?_, ?_, ?_⟩ <;>
    · rintro rfl
      exact absurd (hall _ hc) (by decide)
  generalize decimal n = cs at *
  have hnumber : number 10 cs = some n := by
    rw [number]
    · cases cs with
      | nil => exact absurd rfl hne
      | cons c cs => exact hsat
    · intro cs' hcs'
      exact (hx '+' (by rw [hcs']; exact List.mem_cons_self ..)).1 rfl
  rw [literalChars]
  · exact hnumber
  · intro cs' hcs'
    exact (hx 'x' (by rw [hcs']; simp)).2.1 rfl
  · intro cs' hcs'
    exact (hx 'X' (by rw [hcs']; simp)).2.2 rfl

theorem ofTerm_decimal (v : UInt64) :
    Symbol.ofTerm (String.ofList (decimal v.toNat)) = .ok (.constant v) := by
  have hne : decimal v.toNat ≠ [] := Nat.toDigits_ne_nil
  have hall : ∀ c ∈ decimal v.toNat, c.isDigit = true := fun c hc => isDigit_of_mem_decimal hc
  have hlit : literal (String.ofList (decimal v.toNat)) = .ok v := by
    unfold literal
    rw [String.toList_ofList, literalChars_decimal v.toNat_lt]
    show Except.ok (UInt64.ofNat v.toNat) = _
    rw [UInt64.ofNat_toNat]
  unfold Symbol.ofTerm
  rw [hlit, String.toList_ofList]
  generalize decimal v.toNat = cs at hne hall
  cases cs with
  | nil => exact absurd rfl hne
  | cons c cs =>
    show (if isAlpha c then _ else _) = _
    rw [isAlpha_of_isDigit (hall c (List.mem_cons_self ..))]
    rfl

/-! ## names -/

theorem toNat_letter {n : Nat} (hn : n < 26) : (letter n).toNat = 97 + n := by
  have h : ∀ i : Fin 26, (letter i).toNat = 97 + i := by decide
  exact h ⟨n, hn⟩

theorem isAlpha_letter {n : Nat} (hn : n < 26) : isAlpha (letter n) = true := by
  have h : ∀ i : Fin 26, isAlpha (letter i) = true := by decide
  exact h ⟨n, hn⟩

theorem letter_injective {m n : Nat} (hm : m < 26) (hn : n < 26) (h : letter m = letter n) :
    m = n := by
  have he : 97 + m = 97 + n := by rw [← toNat_letter hm, h, toNat_letter hn]
  omega

theorem nameChars_zero : nameChars 0 = [] := by rw [nameChars, if_pos rfl]

theorem nameChars_succ (n : Nat) : nameChars (n + 1) = nameChars (n / 26) ++ [letter (n % 26)] := by
  rw [nameChars, if_neg (Nat.succ_ne_zero n), Nat.add_sub_cancel]

/-- what holds of all letters holds of the characters of a canonical name -/
theorem of_mem_nameChars {P : Char → Prop} (h : ∀ n < 26, P (letter n)) {n : Nat} {c : Char}
    (hc : c ∈ nameChars n) : P c := by
  induction n using Nat.strongRecOn with
  | ind n ih =>
    cases n with
    | zero =>
      rw [nameChars_zero] at hc
      cases hc
    | succ n =>
      rw [nameChars_succ] at hc
      rcases List.mem_append.mp hc with hc | hc
      · exact ih (n / 26) (by omega) hc
      · rw [List.mem_singleton.mp hc]
        exact h _ (Nat.mod_lt n (by decide))

theorem isAlpha_of_mem_nameChars {n : Nat} {c : Char} (hc : c ∈ nameChars n) :
    isAlpha c = true :=
  of_mem_nameChars (P := (isAlpha · = true)) (fun _ hn => isAlpha_letter hn) hc

theorem isName_of_isAlpha {cs : List Char} (hne : cs ≠ []) (h : ∀ c ∈ cs, isAlpha c = true) :
    IsName cs :=
  ⟨⟨hne, fun c hc => by rw [isTermChar, h c hc, Bool.true_or]⟩,
    fun c hc => h c (List.mem_of_mem_head? hc)⟩

/-- a canonical name -/
theorem isName_nameChars (n : Nat) : IsName (nameChars (n + 1)) := by
  refine isName_of_isAlpha ?_ (fun c hc => isAlpha_of_mem_nameChars hc)
  rw [nameChars_succ]
  exact List.append_ne_nil_of_right_ne_nil _ (List.cons_ne_nil _ _)

theorem nameChars_injective {m n : Nat} (h : nameChars m = nameChars n) : m = n := by
  induction m using Nat.strongRecOn generalizing n with
  | ind m ih =>
    cases m with
    | zero =>
      cases n with
      | zero => rfl
      | succ n =>
        rw [nameChars_zero] at h
        exact absurd h.symm (isName_nameChars n).1.1
    | succ m =>
      cases n with
      | zero =>
        rw [nameChars_zero] at h
        exact absurd h (isName_nameChars m).1.1
      | succ n =>
        rw [nameChars_succ, nameChars_succ] at h
        obtain ⟨hquot, hlast⟩ := List.append_inj' h rfl
        have hq : m / 26 = n / 26 := ih (m / 26) (by omega) hquot
        have hr : m % 26 = n % 26 := letter_injective (Nat.mod_lt m (by decide))
          (Nat.mod_lt n (by decide)) (List.cons.inj hlast).1
        omega

theorem canonicalName_injective {m n : Nat} (h : canonicalName m = canonicalName n) : m = n :=
  Nat.succ.inj (nameChars_injective (String.ofList_injective h))

/-- a number with `v` in front -/
theorem isName_numbered (n : Nat) : IsName ('v' :: decimal n) := by
  refine ⟨⟨List.cons_ne_nil _ _, ?_⟩, ?_⟩
  · exact List.forall_mem_cons.mpr ⟨by decide, (isWord_decimal n).2⟩
  · intro c hc
    rw [← Option.some.inj hc]
    decide

end WordExpr
