import Mathlib.Data.Nat.Digits.Defs
import WordExpr.Proofs.Spelling.Words

/-!
# Which words are numbers

* `IsDigit base c d`   the character `c` is the digit `d` of a base, in either case;
* `Digits base cs n`   `cs` are one or more digits, and `n` is the number they denote;
* `Numeral cs n`       decimal digits, or hexadecimal ones behind `0x` or `0X`.

A word is read as a number exactly if it begins with a numeral that is all of it or does not fit
64 bits (`literal_eq_ok_iff`): reading stops at the digit that is too much. So a numeral is read as
its number or as the largest one, and of the words that are none only those with too large a number
in front are read at all (`literal_overrun`).
-/

namespace WordExpr

/-! ## digits -/

def IsDigit (base : Nat) (c : Char) (d : Nat) : Prop := d < base ∧ c.toLower = d.digitChar

instance (base : Nat) (c : Char) (d : Nat) : Decidable (IsDigit base c d) :=
  inferInstanceAs (Decidable (d < base ∧ c.toLower = d.digitChar))

/-- what is a digit of a base is one of a larger base, as far as there are letters -/
theorem digit?_eq_some_iff_sixteen {base : Nat} (hb : base ≤ 16) {c : Char} {d : Nat} :
    digit? base c = some d ↔ d < base ∧ digit? 16 c = some d := by
  simp only [digit?]
  split_ifs <;> simp <;> omega

theorem toLower_of_le {c : Char} (hc : 128 ≤ c.toNat) : c.toLower = c := by
  refine dif_neg ?_
  rintro ⟨-, hz⟩
  have hz : c.toNat ≤ 90 := by simpa [UInt32.le_iff_toNat_le] using hz
  omega

theorem digit?_eq_none_of_le {c : Char} (hc : 128 ≤ c.toNat) : digit? 16 c = none := by
  have h1 : ¬ (0x30 ≤ c.toNat ∧ c.toNat ≤ 0x39) := by omega
  have h2 : ¬ (0x61 ≤ c.toNat ∧ c.toNat ≤ 0x66) := by omega
  have h3 : ¬ (0x41 ≤ c.toNat ∧ c.toNat ≤ 0x46) := by omega
  simp only [digit?, if_neg h1, if_neg h2, if_neg h3, Nat.lt_irrefl, if_false]

theorem digit?_sixteen_eq_some_iff {c : Char} {d : Nat} (hd : d < 16) :
    digit? 16 c = some d ↔ c.toLower = d.digitChar := by
  by_cases hc : c.toNat < 128
  · have h : ∀ n : Fin 128, ∀ i : Fin 16, digit? 16 (Char.ofNat n) = some i.val ↔
        (Char.ofNat n).toLower = (i.val).digitChar := by decide +kernel
    have hcd := h ⟨c.toNat, hc⟩ ⟨d, hd⟩
    rwa [Char.ofNat_toNat] at hcd
  · have hchar : ∀ i : Fin 16, (Nat.digitChar i).toNat < 128 := by decide
    have hle : 128 ≤ c.toNat := Nat.le_of_not_lt hc
    rw [digit?_eq_none_of_le hle, toLower_of_le hle]
    refine iff_of_false nofun ?_
    rintro rfl
    exact hc (hchar ⟨d, hd⟩)

theorem digit?_eq_some_iff {base : Nat} (hb : base ≤ 16) {c : Char} {d : Nat} :
    digit? base c = some d ↔ IsDigit base c d := by
  rw [digit?_eq_some_iff_sixteen hb]
  exact and_congr_right fun hd => digit?_sixteen_eq_some_iff (Nat.lt_of_lt_of_le hd hb)

/-! ## numbers -/

/-- the number that more digits make of one, the most significant digit first -/
def continued (base value : Nat) (ds : List Nat) : Nat := ds.foldl (fun v d => v * base + d) value

theorem le_continued {base : Nat} (hb : 0 < base) (value : Nat) (ds : List Nat) :
    value ≤ continued base value ds := by
  induction ds generalizing value with
  | nil => exact Nat.le_refl _
  | cons d ds ih =>
    calc value ≤ value * base := Nat.le_mul_of_pos_right value hb
      _ ≤ value * base + d := Nat.le_add_right _ _
      _ ≤ continued base value (d :: ds) := ih (value * base + d)

theorem continued_zero (base : Nat) (ds : List Nat) :
    continued base 0 ds = Nat.ofDigits base ds.reverse := by
  rw [Nat.ofDigits_eq_foldr, List.foldr_reverse]
  unfold continued
  congr 1
  funext v d
  show v * base + d = d + base * v
  rw [Nat.mul_comm, Nat.add_comm]

/-- Reading takes the digits in front: all that there is, or so many that they do not fit. -/
theorem saturating_eq_some_iff {base : Nat} (hb : 0 < base) (hb' : base ≤ 16) {value n : Nat}
    (hv : value < UInt64.size) {cs : List Char} : saturating base value cs = some n ↔
      ∃ p ds, p <+: cs ∧ List.Forall₂ (IsDigit base) p ds ∧
        (p = cs ∨ UInt64.size ≤ continued base value ds) ∧
        n = min (continued base value ds) (UInt64.size - 1) := by
  induction cs generalizing value with
  | nil =>
    rw [saturating, Option.some.injEq]
    constructor
    · rintro rfl
      exact ⟨[], [], List.nil_prefix, .nil, .inl rfl, (Nat.min_eq_left (Nat.le_pred_of_lt hv)).symm⟩
    · rintro ⟨p, ds, hp, hds, -, rfl⟩
      obtain rfl := List.prefix_nil.mp hp
      cases hds
      exact (Nat.min_eq_left (Nat.le_pred_of_lt hv)).symm
  | cons c cs ih =>
    -- no number that fits stops before the first character
    have hcons : ∀ {p ds}, p <+: c :: cs → List.Forall₂ (IsDigit base) p ds →
        (p = c :: cs ∨ UInt64.size ≤ continued base value ds) →
        ∃ q d es, p = c :: q ∧ ds = d :: es ∧ q <+: cs ∧ IsDigit base c d ∧
          List.Forall₂ (IsDigit base) q es := by
      intro p ds hp hds hend
      cases hds with
      | nil => exact absurd hend (by simpa [continued] using hv)
      | @cons _ d q es hd hes =>
        obtain ⟨rfl, hq⟩ := List.cons_prefix_cons.mp hp
        exact ⟨q, d, es, rfl, rfl, hq, hd, hes⟩
    rw [saturating]
    cases hc : digit? base c with
    | none =>
      refine iff_of_false nofun ?_
      rintro ⟨p, ds, hp, hds, hend, -⟩
      obtain ⟨q, d, es, -, -, -, hd, -⟩ := hcons hp hds hend
      cases hc.symm.trans ((digit?_eq_some_iff hb').mpr hd)
    | some d =>
      have hd : IsDigit base c d := (digit?_eq_some_iff hb').mp hc
      show (if value * base + d < UInt64.size then _ else _) = some n ↔ _
      split
      · next hlt =>
        rw [ih hlt]
        constructor
        · rintro ⟨q, es, hq, hes, hend, hn⟩
          exact ⟨c :: q, d :: es, List.cons_prefix_cons.mpr ⟨rfl, hq⟩, .cons hd hes,
            hend.imp_left (congrArg (c :: ·)), hn⟩
        · rintro ⟨p, ds, hp, hds, hend, hn⟩
          obtain ⟨q, d', es, rfl, rfl, hq, hd', hes⟩ := hcons hp hds hend
          cases hc.symm.trans ((digit?_eq_some_iff hb').mpr hd')
          exact ⟨q, es, hq, hes, hend.imp_left (fun h => (List.cons.inj h).2), hn⟩
      · next hlt =>
        have hge : UInt64.size ≤ value * base + d := Nat.le_of_not_lt hlt
        have hmin : ∀ es, min (continued base value (d :: es)) (UInt64.size - 1) =
            UInt64.size - 1 := fun es => Nat.min_eq_right
          (Nat.le_trans (Nat.sub_le _ 1) (Nat.le_trans hge (le_continued hb _ es)))
        rw [Option.some.injEq]
        constructor
        · rintro rfl
          exact ⟨[c], [d], List.cons_prefix_cons.mpr ⟨rfl, List.nil_prefix⟩, .cons hd .nil,
            .inr hge, (hmin []).symm⟩
        · rintro ⟨p, ds, hp, hds, hend, rfl⟩
          obtain ⟨q, d', es, rfl, rfl, hq, hd', hes⟩ := hcons hp hds hend
          cases hc.symm.trans ((digit?_eq_some_iff hb').mpr hd')
          exact (hmin es).symm

/-! ## numerals -/

def Digits (base : Nat) (cs : List Char) (n : Nat) : Prop :=
  cs ≠ [] ∧ ∃ ds : List Nat, List.Forall₂ (IsDigit base) cs ds ∧ n = Nat.ofDigits base ds.reverse

inductive Numeral : List Char → Nat → Prop where
  | decimal {cs : List Char} {n : Nat} (h : Digits 10 cs n) : Numeral cs n
  | hexadecimal {x : Char} {cs : List Char} {n : Nat} (hx : x = 'x' ∨ x = 'X')
    (h : Digits 16 cs n) : Numeral ('0' :: x :: cs) n

/-- the number that is read off the characters behind the mark of a base -/
theorem unsigned_eq_some_iff {base : Nat} (hb : 0 < base) (hb' : base ≤ 16) {n : Nat}
    {cs : List Char} : unsigned base cs = some n ↔
      ∃ p m, p <+: cs ∧ Digits base p m ∧ (p = cs ∨ UInt64.size ≤ m) ∧
        n = min m (UInt64.size - 1) := by
  cases cs with
  | nil =>
    refine iff_of_false nofun ?_
    rintro ⟨p, m, hp, hm, -⟩
    exact hm.1 (List.prefix_nil.mp hp)
  | cons c cs =>
    show saturating base 0 (c :: cs) = some n ↔ _
    rw [saturating_eq_some_iff hb hb' (by decide)]
    simp only [continued_zero]
    constructor
    · rintro ⟨p, ds, hp, hds, hend, hn⟩
      refine ⟨p, _, hp, ⟨?_, ds, hds, rfl⟩, hend, hn⟩
      rintro rfl
      cases hds
      exact absurd hend (by simp [UInt64.size])
    · rintro ⟨p, m, hp, ⟨-, ds, hds, rfl⟩, hend, hn⟩
      exact ⟨p, ds, hp, hds, hend, hn⟩

theorem Digits.isDigit {base n : Nat} {cs : List Char} (h : Digits base cs n) :
    ∀ c ∈ cs, ∃ d, IsDigit base c d := by
  obtain ⟨-, ds, hds, -⟩ := h
  induction hds with
  | nil => exact List.forall_mem_nil _
  | cons hd _ ih => exact List.forall_mem_cons.mpr ⟨⟨_, hd⟩, ih⟩

theorem not_isDigit_mark {x : Char} (hx : x = 'x' ∨ x = 'X') (d : Nat) : ¬ IsDigit 10 x d := by
  have h : ∀ i : Fin 10, 'x' ≠ (Nat.digitChar i) := by decide
  rintro ⟨hd, hc⟩
  rcases hx with rfl | rfl <;> exact h ⟨d, hd⟩ hc

theorem number_eq_unsigned {base : Nat} {cs : List Char} (h : '+' ∉ cs) :
    number base cs = unsigned base cs := by
  rw [number]
  rintro ds rfl
  exact h (List.mem_cons_self ..)

/-- in front of the mark of hexadecimal numbers there is no decimal digit but one -/
theorem Digits.of_prefix_marked {x : Char} (hx : x = 'x' ∨ x = 'X') {m : Nat} {p cs : List Char}
    (h : Digits 10 p m) (hp : p <+: '0' :: x :: cs) :
    p ≠ '0' :: x :: cs ∧ ¬ UInt64.size ≤ m := by
  have hmem : x ∉ p := fun hxp => by
    obtain ⟨d, hd⟩ := h.isDigit x hxp
    exact not_isDigit_mark hx d hd
  refine ⟨fun he => hmem (he ▸ by simp), ?_⟩
  obtain ⟨hne, ds, hds, rfl⟩ := h
  cases hds with
  | nil => exact absurd rfl hne
  | @cons c d q es hd hes =>
    obtain ⟨rfl, hq⟩ := List.cons_prefix_cons.mp hp
    cases hes with
    | nil =>
      have hlt : d < 10 := hd.1
      have hsize : 10 ≤ UInt64.size := by decide
      rw [List.reverse_singleton, Nat.ofDigits_singleton]
      omega
    | cons hd' hes =>
      obtain ⟨rfl, -⟩ := List.cons_prefix_cons.mp hq
      exact absurd (by simp) hmem

/-- behind the mark of hexadecimal numbers -/
theorem literalChars_marked {x : Char} (hx : x = 'x' ∨ x = 'X') {n : Nat} {cs : List Char}
    (hplus : '+' ∉ cs) : literalChars ('0' :: x :: cs) = some n ↔
      ∃ p m, p <+: '0' :: x :: cs ∧ Numeral p m ∧ (p = '0' :: x :: cs ∨ UInt64.size ≤ m) ∧
        n = min m (UInt64.size - 1) := by
  have hl : literalChars ('0' :: x :: cs) = unsigned 16 cs := by
    rw [← number_eq_unsigned hplus]
    rcases hx with rfl | rfl <;> rfl
  rw [hl, unsigned_eq_some_iff (by decide) (by decide)]
  constructor
  · rintro ⟨p, m, hp, hm, hend, hn⟩
    refine ⟨'0' :: x :: p, m, ?_, .hexadecimal hx hm, ?_, hn⟩
    · exact List.cons_prefix_cons.mpr ⟨rfl, List.cons_prefix_cons.mpr ⟨rfl, hp⟩⟩
    · exact hend.imp_left (congrArg ('0' :: x :: ·))
  · rintro ⟨p, m, hp, hm, hend, hn⟩
    cases hm with
    | decimal hm => exact absurd hend (not_or.mpr (hm.of_prefix_marked hx hp))
    | @hexadecimal y q _ hy hm =>
      obtain ⟨rfl, hq⟩ := List.cons_prefix_cons.mp (List.cons_prefix_cons.mp hp).2
      exact ⟨q, m, hq, hm, hend.imp_left (fun h => (List.cons.inj (List.cons.inj h).2).2), hn⟩

/-- without such a mark -/
theorem literalChars_unmarked {n : Nat} {cs : List Char} (hplus : '+' ∉ cs)
    (hmark : ∀ x ds, cs = '0' :: x :: ds → x ≠ 'x' ∧ x ≠ 'X') : literalChars cs = some n ↔
      ∃ p m, p <+: cs ∧ Numeral p m ∧ (p = cs ∨ UInt64.size ≤ m) ∧
        n = min m (UInt64.size - 1) := by
  have hl : literalChars cs = unsigned 10 cs := by
    rw [← number_eq_unsigned hplus]
    unfold literalChars
    split
    · next ds => exact absurd rfl (hmark 'x' ds rfl).1
    · next ds => exact absurd rfl (hmark 'X' ds rfl).2
    · rfl
  rw [hl, unsigned_eq_some_iff (by decide) (by decide)]
  constructor
  · rintro ⟨p, m, hp, hm, hend, hn⟩
    exact ⟨p, m, hp, .decimal hm, hend, hn⟩
  · rintro ⟨p, m, hp, hm | ⟨hx, hm⟩, hend, hn⟩
    · exact ⟨p, m, hp, hm, hend, hn⟩
    · obtain ⟨rest, rfl⟩ := hp
      obtain ⟨h1, h2⟩ := hmark _ _ rfl
      exact absurd hx (not_or.mpr ⟨h1, h2⟩)

theorem literalChars_eq_some_iff {n : Nat} {cs : List Char} (hplus : '+' ∉ cs) :
    literalChars cs = some n ↔ ∃ p m, p <+: cs ∧ Numeral p m ∧ (p = cs ∨ UInt64.size ≤ m) ∧
      n = min m (UInt64.size - 1) := by
  by_cases hmark : ∃ x ds, cs = '0' :: x :: ds ∧ (x = 'x' ∨ x = 'X')
  · obtain ⟨x, ds, rfl, hx⟩ := hmark
    exact literalChars_marked hx (fun h => hplus (by simp [h]))
  · refine literalChars_unmarked hplus ?_
    rintro x ds rfl
    exact not_or.mp fun hx => hmark ⟨x, ds, rfl, hx⟩

/-! ## words -/

theorem IsWord.plus_notMem {cs : List Char} (h : IsWord cs) : '+' ∉ cs := by
  intro hmem
  exact absurd (h.2 '+' hmem) (by decide)

theorem literal_eq_ok_iff_chars {text : String} (hword : IsWord text.toList) {v : UInt64} :
    literal text = .ok v ↔ literalChars text.toList = some v.toNat := by
  unfold literal
  cases h : literalChars text.toList with
  | none => exact iff_of_false nofun nofun
  | some n =>
    obtain ⟨p, m, -, -, -, hn⟩ := (literalChars_eq_some_iff hword.plus_notMem).mp h
    have hlt : n < UInt64.size :=
      Nat.lt_of_le_of_lt (hn ▸ Nat.min_le_right _ _) (Nat.sub_one_lt (by decide))
    rw [Option.some.injEq]
    constructor
    · intro he
      rw [← Except.ok.inj he, UInt64.toNat_ofNat_of_lt' hlt]
    · rintro rfl
      exact congrArg _ v.ofNat_toNat

theorem Symbol.ofTerm_eq_literal {text : String} (hword : IsWord text.toList)
    (hdigit : ∀ c ∈ text.toList.head?, isNumeric c = true) :
    ofTerm text = (literal text).map .constant := by
  obtain ⟨c, cs, hcs, -⟩ := hword.exists_cons
  have hc : isAlpha c = false := isAlpha_of_isDigit (hdigit c (by rw [hcs]; rfl))
  rw [ofTerm, hcs]
  exact if_neg (by rw [hc]; exact Bool.false_ne_true)

/-- A word with a digit in front is read as a number exactly if it begins with a numeral that is the
whole of it or does not fit 64 bits. The number is then that of the numeral, or the largest one. -/
theorem literal_eq_ok_iff {text : String} (hword : IsWord text.toList)
    (hdigit : ∀ c ∈ text.toList.head?, isNumeric c = true) :
    (∀ v, literal text = .ok v ↔ ∃ p n, p <+: text.toList ∧ Numeral p n ∧
      (p = text.toList ∨ 2 ^ 64 ≤ n) ∧ v.toNat = min n (2 ^ 64 - 1)) ∧
    (∀ e, literal text = .error e → e = .invalidLiteral text) ∧
    Symbol.ofTerm text = (literal text).map .constant := by
  have hterm := Symbol.ofTerm_eq_literal hword hdigit
  refine ⟨fun v => ?_, fun e he => ?_, hterm⟩
  · rw [literal_eq_ok_iff_chars hword, literalChars_eq_some_iff hword.plus_notMem]
    rfl
  · rw [he] at hterm
    exact Symbol.eq_invalidLiteral hterm

/-- Twenty nines are too large a number, so that the letter behind them is not looked at. -/
theorem literal_overrun :
    IsWord "99999999999999999999x".toList ∧
      (∀ c ∈ "99999999999999999999x".toList.head?, isNumeric c = true) ∧
      literal "99999999999999999999x" = .ok 18446744073709551615 ∧
      ¬ ∃ n, Numeral "99999999999999999999x".toList n := by
  have hword : IsWord "99999999999999999999x".toList :=
    ⟨by decide, List.all_eq_true.mp (by decide)⟩
  have hdigit : ∀ c ∈ "99999999999999999999x".toList.head?, isNumeric c = true := by
    intro c hc
    rw [← Option.some.inj hc]
    decide
  have hnines : Digits 10 "99999999999999999999".toList 99999999999999999999 :=
    ⟨by decide, List.replicate 20 9, by decide, by decide⟩
  refine ⟨hword, hdigit, ?_, ?_⟩
  · exact ((literal_eq_ok_iff hword hdigit).1 _).mpr
      ⟨_, _, ⟨['x'], by decide⟩, .decimal hnines, .inr (by decide), by decide⟩
  · rintro ⟨n, h⟩
    generalize hcs : "99999999999999999999x".toList = cs at h
    cases h with
    | decimal h =>
      obtain ⟨d, hd⟩ := h.isDigit 'x' (by rw [← hcs]; decide)
      exact not_isDigit_mark (.inl rfl) d hd
    | hexadecimal hx h => exact absurd hcs (by simp)

end WordExpr
