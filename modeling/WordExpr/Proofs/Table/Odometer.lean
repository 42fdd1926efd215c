import Mathlib.Algebra.Group.Nat.Defs
import Mathlib.Logic.ExistsUnique
import Mathlib.Logic.Function.Iterate
import WordExpr.Table.Odometer

/-!
# The odometer as a counter

`reading radix ds` is the number that the digits `ds` show, the first one the most significant.

* `Advance`          the two ways a step can go: the odometer turns over, or one digit moves and all
                     behind it turn over; `advance_cases` says that there is no other;
* `turned`           the digits after a number of steps. While the odometer does not turn over, each
                     step adds one to the reading (`reading_turned`);
* `advance_counts`   from any digits the odometer turns over after as many steps as the reading
                     lacks, and from zero it shows every row of digits once.
-/

namespace WordExpr

/-! ## readings -/

/-- a digit that is not below the radix counts as the largest one -/
def digitValue (radix d : UInt64) : Nat := min d.toNat (radix.toNat - 1)

def reading (radix : UInt64) : List UInt64 → Nat
  | [] => 0
  | d :: ds => digitValue radix d * radix.toNat ^ ds.length + reading radix ds

/-- a digit that can be counted up without wrapping around -/
def CanGrow (d : UInt64) : Prop := d.toNat ≠ UInt64.size - 1

section

variable {radix d : UInt64} {ds es : List UInt64}

theorem toNat_pos (hr : 0 < radix) : 0 < radix.toNat := UInt64.lt_iff_toNat_lt.mp hr

theorem digitValue_of_lt (h : d < radix) : digitValue radix d = d.toNat := by
  have hlt : d.toNat < radix.toNat := UInt64.lt_iff_toNat_lt.mp h
  exact Nat.min_eq_left (by omega)

theorem digitValue_lt (hr : 0 < radix) (d : UInt64) : digitValue radix d < radix.toNat := by
  have hpos := toNat_pos hr
  exact Nat.lt_of_le_of_lt (Nat.min_le_right ..) (by omega)

theorem CanGrow.of_lt (h : d < radix) : CanGrow d := by
  have hlt : d.toNat < radix.toNat := UInt64.lt_iff_toNat_lt.mp h
  have hmax : radix.toNat < UInt64.size := radix.toNat_lt
  unfold CanGrow
  omega

theorem CanGrow.toNat_succ (h : CanGrow d) : (d + 1).toNat = d.toNat + 1 := by
  have hmax : d.toNat < UInt64.size := d.toNat_lt
  unfold CanGrow at h
  rw [UInt64.toNat_add]
  exact Nat.mod_eq_of_lt (by show d.toNat + 1 < UInt64.size; omega)

/-- a digit that cannot be counted up below the radix is the largest one or beyond -/
theorem CanGrow.digitValue_of_not_lt (h : CanGrow d) (hd : ¬ d + 1 < radix) :
    digitValue radix d = radix.toNat - 1 := by
  rw [UInt64.lt_iff_toNat_lt, h.toNat_succ] at hd
  exact Nat.min_eq_right (by omega)

theorem reading_append (ds es : List UInt64) : reading radix (ds ++ es) =
    reading radix ds * radix.toNat ^ es.length + reading radix es := by
  induction ds with
  | nil => rw [List.nil_append, reading, Nat.zero_mul, Nat.zero_add]
  | cons d ds ih =>
    rw [List.cons_append, reading, reading, ih, List.length_append, Nat.pow_add, Nat.add_mul,
      Nat.mul_assoc, Nat.add_assoc]

theorem reading_zeros (radix : UInt64) (n : Nat) : reading radix (List.replicate n 0) = 0 := by
  induction n with
  | zero => rfl
  | succ n ih =>
    have hzero : digitValue radix 0 = 0 := Nat.zero_min _
    rw [List.replicate_succ, reading, ih, hzero, Nat.zero_mul]

theorem reading_lt (hr : 0 < radix) (ds : List UInt64) :
    reading radix ds < radix.toNat ^ ds.length := by
  induction ds with
  | nil => exact Nat.one_pos
  | cons d ds ih =>
    calc digitValue radix d * radix.toNat ^ ds.length + reading radix ds
        < (digitValue radix d + 1) * radix.toNat ^ ds.length := by rw [Nat.succ_mul]; omega
      _ ≤ radix.toNat * radix.toNat ^ ds.length := Nat.mul_le_mul_right _ (digitValue_lt hr d)
      _ = radix.toNat ^ (d :: ds).length := Nat.pow_succ'.symm

/-- digits below the radix are known by what they show -/
theorem reading_injective (hr : 0 < radix) (hlen : ds.length = es.length)
    (hds : ∀ d ∈ ds, d < radix) (hes : ∀ e ∈ es, e < radix)
    (h : reading radix ds = reading radix es) : ds = es := by
  induction ds generalizing es with
  | nil => exact (List.length_eq_zero_iff.mp hlen.symm).symm
  | cons d ds ih =>
    cases es with
    | nil => cases hlen
    | cons e es =>
      obtain ⟨hd, hds⟩ := List.forall_mem_cons.mp hds
      obtain ⟨he, hes⟩ := List.forall_mem_cons.mp hes
      have hlen : ds.length = es.length := Nat.succ.inj hlen
      have hpos : 0 < radix.toNat ^ es.length := Nat.pow_pos (toNat_pos hr)
      -- the first digit is the quotient, and what the others show the remainder
      have hsplit : ∀ a b, b < radix.toNat ^ es.length →
          (a * radix.toNat ^ es.length + b) / radix.toNat ^ es.length = a ∧
            (a * radix.toNat ^ es.length + b) % radix.toNat ^ es.length = b := fun a b hb =>
        (Nat.div_mod_unique hpos).mpr ⟨by rw [Nat.mul_comm, Nat.add_comm], hb⟩
      obtain ⟨hd', hds'⟩ := hsplit d.toNat (reading radix ds) (hlen ▸ reading_lt hr ds)
      obtain ⟨he', hes'⟩ := hsplit e.toNat (reading radix es) (reading_lt hr es)
      rw [reading, reading, hlen, digitValue_of_lt hd, digitValue_of_lt he] at h
      rw [h] at hd' hds'
      rw [UInt64.toNat_inj.mp (hd'.symm.trans he'), ih hlen hds hes (hds'.symm.trans hes')]

end

/-! ## one step -/

/-- how a step may go: over all digits, or up to the digit that moves -/
inductive Advance (radix : UInt64) : List UInt64 → Bool × List UInt64 → Prop where
  | wrapped {ds : List UInt64} (h : reading radix ds + 1 = radix.toNat ^ ds.length) :
    Advance radix ds (false, List.replicate ds.length 0)
  | raised {left right : List UInt64} {d : UInt64} (hd : d + 1 < radix)
    (h : reading radix right + 1 = radix.toNat ^ right.length) :
    Advance radix (left ++ d :: right) (true, left ++ (d + 1) :: List.replicate right.length 0)

variable {radix d e : UInt64} {ds es : List UInt64}

theorem advance_cases (hr : 0 < radix) (hds : ∀ d ∈ ds, CanGrow d) :
    Advance radix ds (advance radix ds) := by
  induction ds with
  | nil => exact .wrapped rfl
  | cons d ds ih =>
    obtain ⟨hd, hds⟩ := List.forall_mem_cons.mp hds
    have ih := ih hds
    unfold advance
    generalize advance radix ds = s at ih
    cases ih with
    | wrapped h =>
      show Advance radix (d :: ds) (if d + 1 < radix then _ else _)
      by_cases hlt : d + 1 < radix
      · rw [if_pos hlt]
        exact @Advance.raised radix [] ds d hlt h
      · have hpos := toNat_pos hr
        have htop : radix.toNat = radix.toNat - 1 + 1 := by omega
        rw [if_neg hlt]
        refine .wrapped ?_
        rw [reading, hd.digitValue_of_not_lt hlt, List.length_cons, Nat.pow_succ', Nat.add_assoc, h,
          ← Nat.add_one_mul, ← htop]
    | @raised left right d' hd' h => exact @Advance.raised radix (d :: left) right d' hd' h

namespace Advance

variable {s : Bool × List UInt64}

/-- the digit that moves takes over what those behind it have counted -/
theorem reading_eq (h : Advance radix ds s) (hds : ∀ d ∈ ds, CanGrow d) (hs : s.1 = true) :
    reading radix s.2 = reading radix ds + 1 := by
  cases h with
  | wrapped h => cases hs
  | @raised left right d hd h =>
    have hd' : CanGrow d := hds d (List.mem_append_right _ (List.mem_cons_self ..))
    have hlt : d < radix := by
      rw [UInt64.lt_iff_toNat_lt, hd'.toNat_succ] at hd
      exact UInt64.lt_iff_toNat_lt.mpr (by omega)
    simp only [reading_append, reading, List.length_cons, List.length_replicate]
    rw [reading_zeros, digitValue_of_lt hd, digitValue_of_lt hlt, hd'.toNat_succ, Nat.succ_mul,
      Nat.add_zero, ← h]
    omega

theorem zeros (h : Advance radix ds s) (hs : s.1 = false) :
    s.2 = List.replicate ds.length 0 := by
  cases h with
  | wrapped h => rfl
  | raised hd h => cases hs

theorem exists_digit (h : Advance radix ds s) (hs : s.1 = true) : ∃ left d right,
    ds = left ++ d :: right ∧ s.2 = left ++ (d + 1) :: List.replicate right.length 0 := by
  cases h with
  | wrapped h => cases hs
  | @raised left right d hd h => exact ⟨left, d, right, rfl, rfl⟩

theorem mem (h : Advance radix ds s) (hr : 0 < radix) (he : e ∈ s.2) : e ∈ ds ∨ e < radix := by
  cases h with
  | wrapped h => exact .inr ((List.mem_replicate.mp he).2 ▸ hr)
  | raised hd h =>
    rcases List.mem_append.mp he with he | he
    · exact .inl (List.mem_append_left _ he)
    · rcases List.mem_cons.mp he with rfl | he
      · exact .inr hd
      · exact .inr ((List.mem_replicate.mp he).2 ▸ hr)

theorem fst_eq_false_iff (h : Advance radix ds s) (hr : 0 < radix)
    (hds : ∀ d ∈ ds, CanGrow d) (hlen : s.2.length = ds.length) :
    s.1 = false ↔ reading radix ds + 1 = radix.toNat ^ ds.length := by
  have hnext := h.reading_eq hds
  cases h with
  | wrapped h => exact iff_of_true rfl h
  | raised hd h =>
    refine iff_of_false Bool.noConfusion (Nat.ne_of_lt ?_)
    rw [← hnext rfl, ← hlen]
    exact reading_lt hr _

end Advance

/-! ## many steps -/

/-- the digits after `k` steps -/
def turned (radix : UInt64) (k : Nat) (ds : List UInt64) : List UInt64 :=
  (fun ds => (advance radix ds).2)^[k] ds

theorem turned_succ (radix : UInt64) (k : Nat) (ds : List UInt64) :
    turned radix (k + 1) ds = (advance radix (turned radix k ds)).2 :=
  Function.iterate_succ_apply' ..

theorem length_turned (radix : UInt64) (k : Nat) (ds : List UInt64) :
    (turned radix k ds).length = ds.length := by
  induction k with
  | zero => rfl
  | succ k ih => rw [turned_succ, length_advance, ih]

theorem mem_turned (hr : 0 < radix) (hds : ∀ d ∈ ds, CanGrow d) {k : Nat}
    (he : e ∈ turned radix k ds) : e ∈ ds ∨ e < radix := by
  induction k generalizing e with
  | zero => exact .inl he
  | succ k ih =>
    have hk : ∀ d ∈ turned radix k ds, CanGrow d :=
      fun d hd => (ih hd).elim (hds d) CanGrow.of_lt
    rw [turned_succ] at he
    exact ((advance_cases hr hk).mem hr he).elim ih .inr

theorem canGrow_turned (hr : 0 < radix) (hds : ∀ d ∈ ds, CanGrow d) (k : Nat) :
    ∀ d ∈ turned radix k ds, CanGrow d :=
  fun d hd => (mem_turned hr hds hd).elim (hds d) CanGrow.of_lt

/-- there is another step unless the reading is the last one -/
theorem advance_fst_eq_false_iff (hr : 0 < radix) (hds : ∀ d ∈ ds, CanGrow d) :
    (advance radix ds).1 = false ↔ reading radix ds + 1 = radix.toNat ^ ds.length :=
  (advance_cases hr hds).fst_eq_false_iff hr hds (length_advance radix ds)

theorem reading_turned (hr : 0 < radix) (hds : ∀ d ∈ ds, CanGrow d) {k : Nat}
    (hk : reading radix ds + k < radix.toNat ^ ds.length) :
    reading radix (turned radix k ds) = reading radix ds + k := by
  induction k with
  | zero => rfl
  | succ k ih =>
    have hall := canGrow_turned hr hds k
    have ih := ih (Nat.lt_of_succ_lt hk)
    have hmore : (advance radix (turned radix k ds)).1 = true := by
      rw [← Bool.not_eq_false, advance_fst_eq_false_iff hr hall, ih, length_turned]
      exact Nat.ne_of_lt hk
    rw [turned_succ, (advance_cases hr hall).reading_eq hall hmore, ih, Nat.add_assoc]

/-- the odometer turns over at the step at which the reading has reached the last one -/
theorem advance_turned_fst_eq_false_iff (hr : 0 < radix) (hds : ∀ d ∈ ds, CanGrow d) {k : Nat}
    (hk : reading radix ds + k < radix.toNat ^ ds.length) :
    (advance radix (turned radix k ds)).1 = false ↔
      reading radix ds + k = radix.toNat ^ ds.length - 1 := by
  rw [advance_fst_eq_false_iff hr (canGrow_turned hr hds k), reading_turned hr hds hk,
    length_turned]
  omega

/-! ## from zero on -/

theorem lt_of_mem_zeros (hr : 0 < radix) {n : Nat} (hd : d ∈ List.replicate n 0) : d < radix :=
  (List.mem_replicate.mp hd).2 ▸ hr

theorem canGrow_zeros (n : Nat) : ∀ d ∈ List.replicate n (0 : UInt64), CanGrow d :=
  fun _ hd => @CanGrow.of_lt 1 _ (lt_of_mem_zeros (by decide) hd)

theorem reading_turned_zeros (hr : 0 < radix) {n k : Nat} (hk : k < radix.toNat ^ n) :
    reading radix (turned radix k (List.replicate n 0)) = k := by
  rw [reading_turned hr (canGrow_zeros n), reading_zeros, Nat.zero_add]
  rwa [reading_zeros, Nat.zero_add, List.length_replicate]

/-- the row of digits is shown when its reading is -/
theorem existsUnique_turned (hr : 0 < radix) {n : Nat} (hlen : es.length = n)
    (hes : ∀ e ∈ es, e < radix) :
    ∃! k, k < radix.toNat ^ n ∧ turned radix k (List.replicate n 0) = es := by
  have hlt : reading radix es < radix.toNat ^ n := hlen ▸ reading_lt hr es
  refine ⟨reading radix es, ⟨hlt, ?_⟩, ?_⟩
  · refine reading_injective hr ?_ ?_ hes (reading_turned_zeros hr hlt)
    · rw [length_turned, List.length_replicate, hlen]
    · exact fun d hd => (mem_turned hr (canGrow_zeros n) hd).elim (lt_of_mem_zeros hr) id
  · rintro k ⟨hk, hkes⟩
    rw [← hkes, reading_turned_zeros hr hk]

/-- **The odometer counts.** A step turns over exactly at the last reading, and then all digits are
zero; otherwise it adds one to the reading by moving one digit, and those behind it are zero. So any
digits turn over after as many steps as the reading lacks, and from zero on every row of digits
below the radix is shown once before that. -/
theorem advance_counts (hr : 0 < radix) (hds : ∀ d ∈ ds, d.toNat ≠ UInt64.size - 1) :
    ((advance radix ds).1 = false ↔ reading radix ds = radix.toNat ^ ds.length - 1) ∧
    ((advance radix ds).1 = false → (advance radix ds).2 = List.replicate ds.length 0) ∧
    ((advance radix ds).1 = true → reading radix (advance radix ds).2 = reading radix ds + 1 ∧
      ∃ left d right, ds = left ++ d :: right ∧
        (advance radix ds).2 = left ++ (d + 1) :: List.replicate right.length 0) ∧
    (∀ k ≤ radix.toNat ^ ds.length - 1 - reading radix ds,
      ((advance radix (turned radix k ds)).1 = false ↔
        k = radix.toNat ^ ds.length - 1 - reading radix ds)) ∧
    ∀ n, (∀ k < radix.toNat ^ n, ((advance radix (turned radix k (List.replicate n 0))).1 = false ↔
        k = radix.toNat ^ n - 1)) ∧
      ∀ es : List UInt64, es.length = n → (∀ e ∈ es, e < radix) →
        ∃! k, k < radix.toNat ^ n ∧ turned radix k (List.replicate n 0) = es := by
  have hlt := reading_lt hr ds
  have hcases := advance_cases hr hds
  refine ⟨advance_turned_fst_eq_false_iff (k := 0) hr hds hlt, hcases.zeros, fun hmore =>
    ⟨hcases.reading_eq hds hmore, hcases.exists_digit hmore⟩, ?_, fun n => ⟨?_, ?_⟩⟩
  · intro k hk
    rw [advance_turned_fst_eq_false_iff hr hds (by omega)]
    omega
  · intro k hk
    have h := advance_turned_fst_eq_false_iff hr (canGrow_zeros n) (k := k)
    rw [reading_zeros, Nat.zero_add, List.length_replicate] at h
    exact h hk
  · exact fun es hlen hes => existsUnique_turned hr hlen hes

/-- The digit in the middle is beyond the radix, so it counts as the largest one and turns over. -/
theorem advance_counts_beyond : reading 3 [0, 7, 2] = 8 ∧
    (advance 3 [0, 7, 2]).2 = [1, 0, 0] ∧ reading 3 [1, 0, 0] = 9 ∧
      ∀ k ≤ 18, ((advance 3 (turned 3 k [0, 7, 2])).1 = false ↔ k = 18) := by
  obtain ⟨-, -, hnext, hlast, -⟩ := @advance_counts 3 [0, 7, 2] (by decide) (by simp [UInt64.size])
  exact ⟨rfl, rfl, (hnext rfl).1, hlast⟩

end WordExpr
