import Mathlib.Data.List.Induction
import Mathlib.Data.List.Shortlex
import Mathlib.Data.String.Basic
import Mathlib.Logic.ExistsUnique
import WordExpr.Proofs.Spelling.Words

/-!
# Canonical names in order

The canonical names are the nonempty words over `a` to `z`, each the name of one number
(`exists_nameChars`), and larger numbers have longer names, or later ones of the same length
(`shortlex_nameChars`). `canonicalName_enumerates` takes this together.
-/

namespace WordExpr

/-- a letter that canonical names are made of -/
def IsLower (c : Char) : Prop := 'a' ≤ c ∧ c ≤ 'z'

/-! ## letters -/

theorem isLower_letter {n : Nat} (hn : n < 26) : IsLower (letter n) := by
  have h : ∀ i : Fin 26, 'a' ≤ letter i ∧ letter i ≤ 'z' := by decide
  exact h ⟨n, hn⟩

theorem exists_letter {c : Char} (h : IsLower c) : ∃ n < 26, letter n = c := by
  have ha : 97 ≤ c.toNat := Char.le_def.mp h.1
  have hz : c.toNat ≤ 122 := Char.le_def.mp h.2
  refine ⟨c.toNat - 97, by omega, ?_⟩
  have hsum : 97 + (c.toNat - 97) = c.toNat := by omega
  show Char.ofNat (97 + (c.toNat - 97)) = c
  rw [hsum, Char.ofNat_toNat]

theorem letter_lt {m n : Nat} (hmn : m < n) (hn : n < 26) : letter m < letter n := by
  have h : (letter m).toNat < (letter n).toNat := by
    rw [toNat_letter (Nat.lt_trans hmn hn), toNat_letter hn]
    omega
  exact h

/-! ## words -/

theorem isLower_of_mem_nameChars {n : Nat} {c : Char} (hc : c ∈ nameChars n) : IsLower c :=
  of_mem_nameChars (P := IsLower) (fun _ hn => isLower_letter hn) hc

/-- a word is read from its end, where the letter counts once -/
theorem exists_nameChars {cs : List Char} (h : ∀ c ∈ cs, IsLower c) : ∃ n, nameChars n = cs := by
  induction cs using List.reverseRecOn with
  | nil => exact ⟨0, nameChars_zero⟩
  | append_singleton cs c ih =>
    obtain ⟨hcs, hc⟩ := List.forall_mem_append.mp h
    obtain ⟨n, rfl⟩ := ih hcs
    obtain ⟨d, hd, rfl⟩ := exists_letter (hc c (List.mem_singleton_self c))
    refine ⟨26 * n + d + 1, ?_⟩
    rw [nameChars_succ, Nat.mul_add_div (by decide), Nat.div_eq_of_lt hd, Nat.mul_add_mod,
      Nat.mod_eq_of_lt hd, Nat.add_zero]

/-! ## order -/

section

variable {α : Type} {r : α → α → Prop} {s t : List α}

/-- what differs decides, whatever stands behind -/
theorem lex_append_of_length_eq (hlen : s.length = t.length) (h : List.Lex r s t)
    (u v : List α) : List.Lex r (s ++ u) (t ++ v) := by
  induction h with
  | nil => cases hlen
  | rel hab => exact .rel hab
  | cons h ih => exact .cons (ih (Nat.succ.inj hlen))

theorem shortlex_concat (h : List.Shortlex r s t) (a b : α) :
    List.Shortlex r (s ++ [a]) (t ++ [b]) := by
  have hlen : ∀ {s : List α} {a : α}, (s ++ [a]).length = s.length + 1 := List.length_append
  rcases List.shortlex_def.mp h with hlt | ⟨heq, hlex⟩
  · exact .of_length_lt (by rw [hlen, hlen]; exact Nat.succ_lt_succ hlt)
  · exact .of_lex (by rw [hlen, hlen, heq]) (lex_append_of_length_eq heq hlex [a] [b])

end

/-- The induction follows the letters from the end of both words: all but the last letter are the
words of the quotients, and for equal quotients the remainder decides. -/
theorem shortlex_nameChars {m n : Nat} (h : m < n) :
    List.Shortlex (· < ·) (nameChars m) (nameChars n) := by
  induction n using Nat.strongRecOn generalizing m with
  | ind n ih =>
    obtain ⟨n, rfl⟩ := Nat.exists_eq_succ_of_ne_zero (Nat.ne_zero_of_lt h)
    cases m with
    | zero =>
      refine .of_length_lt ?_
      rw [nameChars_zero]
      exact List.length_pos_of_ne_nil (isName_nameChars n).1.1
    | succ m =>
      rw [nameChars_succ, nameChars_succ]
      have hle : m ≤ n := Nat.le_of_lt (Nat.lt_of_succ_lt_succ h)
      rcases Nat.lt_or_eq_of_le (Nat.div_le_div_right (c := 26) hle) with hq | hq
      · exact shortlex_concat (ih (n / 26) (by omega) hq) _ _
      · rw [hq]
        exact List.Shortlex.append_left ((List.shortlex_singleton_iff _ _).mpr
          (letter_lt (by omega) (Nat.mod_lt n (by decide)))) _

/-- **Canonical names are the words over `a` to `z`, in order.** Each nonempty word is the name of
exactly one number, and of two numbers the larger one has the longer name, or one of the same length
that comes later in the alphabet. -/
theorem canonicalName_enumerates :
    (∀ n, canonicalName n ≠ "" ∧ ∀ c ∈ (canonicalName n).toList, 'a' ≤ c ∧ c ≤ 'z') ∧
    Function.Injective canonicalName ∧
    (∀ s : String, s ≠ "" → (∀ c ∈ s.toList, 'a' ≤ c ∧ c ≤ 'z') → ∃! n, canonicalName n = s) ∧
    ∀ i j, i < j → (canonicalName i).length < (canonicalName j).length ∨
      (canonicalName i).length = (canonicalName j).length ∧ canonicalName i < canonicalName j := by
  refine ⟨fun n => ⟨?_, ?_⟩, fun _ _ => canonicalName_injective, ?_, ?_⟩
  · intro h
    exact (isName_nameChars n).1.1 (String.ofList_injective h)
  · intro c hc
    rw [canonicalName, String.toList_ofList] at hc
    exact isLower_of_mem_nameChars hc
  · intro s hs hlower
    obtain ⟨n, hn⟩ := exists_nameChars hlower
    cases n with
    | zero =>
      rw [nameChars_zero] at hn
      exact absurd (String.toList_inj.mp hn.symm) hs
    | succ n =>
      have hname : canonicalName n = s := by rw [canonicalName, hn, String.ofList_toList]
      exact ⟨n, hname, fun m hm => canonicalName_injective (hm.trans hname.symm)⟩
  · intro i j hij
    have h := List.shortlex_def.mp (shortlex_nameChars (Nat.succ_lt_succ hij))
    rw [canonicalName, canonicalName, String.length_ofList, String.length_ofList,
      String.lt_iff_toList_lt, String.toList_ofList, String.toList_ofList]
    exact h

end WordExpr
