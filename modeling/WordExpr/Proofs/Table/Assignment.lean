import Mathlib.Logic.ExistsUnique
import WordExpr.Proofs.Width
import WordExpr.Table.Basic

/-!
# Assignments in order

`assignment w n k` are the `n` digits of `k` to the base `2 ^ bits`, the first one the most
significant. The odometer goes from each assignment to the next one and starts again after the last
(`advance_assignment`), and every assignment of words has one number below `(2 ^ bits) ^ n`
(`existsUnique_assignment`), which is how many `combinations` counts (`combinations_eq`).
-/

namespace WordExpr

def assignment (w : Width) : Nat → Nat → List UInt64
  | 0, _ => []
  | n + 1, k => UInt64.ofNat (k / (2 ^ w.bits) ^ n % 2 ^ w.bits) :: assignment w n k

variable (w : Width)

theorem length_assignment (n k : Nat) : (assignment w n k).length = n := by
  induction n with
  | zero => rfl
  | succ n ih => rw [assignment, List.length_cons, ih]

theorem assignment_zero (n : Nat) : assignment w n 0 = List.replicate n 0 := by
  induction n with
  | zero => rfl
  | succ n ih =>
    unfold assignment
    rw [ih, Nat.zero_div, Nat.zero_mod]
    rfl

/-- digits in front of the first one do not count -/
theorem assignment_add_mul (n k a : Nat) :
    assignment w n (k + a * (2 ^ w.bits) ^ n) = assignment w n k := by
  induction n generalizing a with
  | zero => rfl
  | succ n ih =>
    have hpos : 0 < (2 ^ w.bits) ^ n := Nat.pow_pos (Nat.two_pow_pos _)
    have ha : a * (2 ^ w.bits) ^ (n + 1) = (a * 2 ^ w.bits) * (2 ^ w.bits) ^ n := by
      rw [Nat.pow_succ']
      exact (Nat.mul_assoc ..).symm
    unfold assignment
    rw [ha, ih, Nat.add_mul_div_right _ _ hpos, Nat.add_mul_mod_self_right]

/-- the last digits are the fastest ones -/
theorem assignment_append (n m k : Nat) :
    assignment w (n + m) k = assignment w n (k / (2 ^ w.bits) ^ m) ++ assignment w m k := by
  induction n with
  | zero => rw [Nat.zero_add, assignment, List.nil_append]
  | succ n ih =>
    have hdiv : k / (2 ^ w.bits) ^ (n + m) = k / (2 ^ w.bits) ^ m / (2 ^ w.bits) ^ n := by
      rw [Nat.div_div_eq_div_mul, ← Nat.pow_add, Nat.add_comm]
    rw [Nat.succ_add, assignment, assignment, ih, hdiv, List.cons_append]

/-! ## the next assignment -/

theorem digit_lt_radix_iff {d : Nat} (hd : d < 2 ^ w.bits) :
    UInt64.ofNat d + 1 < w.radix ↔ d + 1 < 2 ^ w.bits := by
  have hlt := w.two_pow_bits_lt
  have hd' : (UInt64.ofNat d).toNat = d := UInt64.toNat_ofNat_of_lt' (Nat.lt_trans hd hlt)
  have hsucc : (UInt64.ofNat d + 1).toNat = d + 1 := by
    rw [UInt64.toNat_add, hd']
    exact Nat.mod_eq_of_lt (Nat.lt_of_le_of_lt hd hlt)
  rw [UInt64.lt_iff_toNat_lt, hsucc, w.toNat_radix]

/-- there is a next assignment unless the digits were all the largest ones -/
theorem advance_assignment (n k : Nat) (more : Bool)
    (hmore : more = true ↔ ¬ (2 ^ w.bits) ^ n ∣ k + 1) :
    advance w.radix (assignment w n k) = (more, assignment w n (k + 1)) := by
  induction n generalizing more with
  | zero =>
    have hm : more = false := Bool.eq_false_iff.mpr (fun h => hmore.mp h (Nat.one_dvd _))
    rw [hm]
    rfl
  | succ n ih =>
    unfold assignment advance
    by_cases hd : (2 ^ w.bits) ^ n ∣ k + 1
    · -- the digits behind the first one turn over
      have hlt : k / (2 ^ w.bits) ^ n % 2 ^ w.bits < 2 ^ w.bits := Nat.mod_lt _ (Nat.two_pow_pos _)
      have hdvd : (2 ^ w.bits) ^ (n + 1) ∣ k + 1 ↔
          (k / (2 ^ w.bits) ^ n + 1) % 2 ^ w.bits = 0 := by
        rw [← Nat.succ_div_of_dvd hd, Nat.pow_succ, ← Nat.dvd_iff_mod_eq_zero]
        exact (Nat.dvd_div_iff_mul_dvd hd).symm
      rw [ih false (by simp [hd]), Nat.succ_div_of_dvd hd]
      rw [hdvd] at hmore
      generalize k / (2 ^ w.bits) ^ n = m at hlt hmore ⊢
      by_cases hmax : m % 2 ^ w.bits + 1 < 2 ^ w.bits
      · have hmod : (m + 1) % 2 ^ w.bits = m % 2 ^ w.bits + 1 := by
          rw [← Nat.mod_add_mod, Nat.mod_eq_of_lt hmax]
        have hm : more = true := hmore.mpr (by rw [hmod]; exact Nat.succ_ne_zero _)
        show (if _ then _ else _) = _
        rw [if_pos ((digit_lt_radix_iff w hlt).mpr hmax), hm, hmod, UInt64.ofNat_add]
        rfl
      · have hmod : (m + 1) % 2 ^ w.bits = 0 := by
          have htop : m % 2 ^ w.bits + 1 = 2 ^ w.bits := by omega
          rw [← Nat.mod_add_mod, htop, Nat.mod_self]
        have hm : more = false := Bool.eq_false_iff.mpr (fun h => hmore.mp h hmod)
        show (if _ then _ else _) = _
        rw [if_neg (mt (digit_lt_radix_iff w hlt).mp hmax), hm, hmod]
        rfl
    · have hstep : (2 ^ w.bits) ^ n ∣ (2 ^ w.bits) ^ (n + 1) := Nat.pow_dvd_pow _ (Nat.le_succ n)
      have hm : more = true := hmore.mpr (fun h => hd (Nat.dvd_trans hstep h))
      rw [ih true (by simp [hd]), Nat.succ_div_of_not_dvd hd, hm]

/-! ## every assignment once -/

theorem assignment_div_mod (n k : Nat) :
    assignment w n k = assignment w n (k % (2 ^ w.bits) ^ n) := by
  have h := assignment_add_mul w n (k % (2 ^ w.bits) ^ n) (k / (2 ^ w.bits) ^ n)
  rwa [Nat.mul_comm, Nat.mod_add_div] at h

theorem existsUnique_assignment {ds : List UInt64} (hds : ∀ d ∈ ds, d.toNat < 2 ^ w.bits) :
    ∃! k, k < (2 ^ w.bits) ^ ds.length ∧ assignment w ds.length k = ds := by
  induction ds with
  | nil =>
    refine ⟨0, ⟨Nat.one_pos, rfl⟩, ?_⟩
    rintro k ⟨hk, -⟩
    exact Nat.lt_one_iff.mp hk
  | cons d ds ih =>
    obtain ⟨hd, hds⟩ := List.forall_mem_cons.mp hds
    obtain ⟨k, ⟨hk, hkds⟩, huniq⟩ := ih hds
    have hpos : 0 < (2 ^ w.bits) ^ ds.length := Nat.pow_pos (Nat.two_pow_pos _)
    refine ⟨k + d.toNat * (2 ^ w.bits) ^ ds.length, ⟨?_, ?_⟩, ?_⟩
    · rw [List.length_cons, Nat.pow_succ']
      calc k + d.toNat * (2 ^ w.bits) ^ ds.length
          < (d.toNat + 1) * (2 ^ w.bits) ^ ds.length := by rw [Nat.succ_mul]; omega
        _ ≤ 2 ^ w.bits * (2 ^ w.bits) ^ ds.length := Nat.mul_le_mul_right _ hd
    · rw [List.length_cons, assignment, assignment_add_mul, hkds, Nat.add_mul_div_right _ _ hpos,
        Nat.div_eq_of_lt hk, Nat.zero_add, Nat.mod_eq_of_lt hd, UInt64.ofNat_toNat]
    · rintro j ⟨hj, hjds⟩
      rw [List.length_cons, Nat.pow_succ'] at hj
      rw [List.length_cons, assignment] at hjds
      obtain ⟨hhead, htail⟩ := List.cons.inj hjds
      have hquot : j / (2 ^ w.bits) ^ ds.length < 2 ^ w.bits :=
        Nat.div_lt_of_lt_mul (by rwa [Nat.mul_comm])
      have hfirst : j / (2 ^ w.bits) ^ ds.length = d.toNat := by
        rw [← hhead, Nat.mod_eq_of_lt hquot]
        exact (UInt64.toNat_ofNat_of_lt' (Nat.lt_trans hquot w.two_pow_bits_lt)).symm
      have hrest : j % (2 ^ w.bits) ^ ds.length = k :=
        huniq _ ⟨Nat.mod_lt _ hpos, (assignment_div_mod w ds.length j).symm.trans htail⟩
      rw [← hfirst, ← hrest, Nat.mul_comm, Nat.mod_add_div]

/-! ## how many there are -/

/-- a power from that of half the exponent -/
theorem square_eq_pow (base n : Nat) :
    (if n % 2 = 0 then base ^ (n / 2) * base ^ (n / 2)
      else base ^ (n / 2) * base ^ (n / 2) * base) = base ^ n := by
  rw [← Nat.pow_add, ← Nat.pow_succ]
  split
  · congr 1
    omega
  · congr 1
    omega

theorem powBelow?_eq {bound base n : Nat} (hbase : 0 < base) (h : base ^ n < bound) :
    powBelow? bound base n = some (base ^ n) := by
  induction n using Nat.strongRecOn with
  | ind n ih =>
    unfold powBelow?
    by_cases hn : n = 0
    · rw [if_pos hn, hn, Nat.pow_zero]
    · have hhalf : base ^ (n / 2) < bound :=
        Nat.lt_of_le_of_lt (Nat.pow_le_pow_right hbase (Nat.div_le_self n 2)) h
      rw [if_neg hn, ih (n / 2) (by omega) hhalf]
      show (if (if n % 2 = 0 then _ else _) < bound then _ else none) = _
      rw [square_eq_pow, if_pos h]

theorem powBelow?_eq_some {bound base n m : Nat} (h : powBelow? bound base n = some m) :
    m = base ^ n ∧ (n = 0 ∨ m < bound) := by
  induction n using Nat.strongRecOn generalizing m with
  | ind n ih =>
    unfold powBelow? at h
    by_cases hn : n = 0
    · rw [if_pos hn] at h
      cases h
      exact ⟨by rw [hn, Nat.pow_zero], .inl hn⟩
    · rw [if_neg hn] at h
      obtain ⟨half, hhalf, h⟩ := Option.bind_eq_some_iff.mp h
      obtain ⟨rfl, -⟩ := ih (n / 2) (by omega) hhalf
      rw [square_eq_pow] at h
      obtain ⟨hlt, h⟩ := Option.ite_none_right_eq_some.mp h
      cases h
      exact ⟨rfl, .inr hlt⟩

theorem combinations_eq {n : Nat} (h : w.bits * n < 64) :
    combinations w n = .ok ((2 ^ w.bits) ^ n) := by
  have hlt : (2 ^ w.bits) ^ n < UInt64.size := by
    rw [← Nat.pow_mul]
    exact Nat.pow_lt_pow_right (by decide) h
  rw [combinations, w.toNat_radix, powBelow?_eq (Nat.two_pow_pos _) hlt]

theorem combinations_eq_error {n : Nat} (h : 64 ≤ w.bits * n) :
    combinations w n = .error (.tooManyCombinations w.bits n) := by
  have hle : UInt64.size ≤ (2 ^ w.bits) ^ n := by
    rw [← Nat.pow_mul]
    exact Nat.pow_le_pow_right Nat.two_pos h
  have hnone : powBelow? UInt64.size (2 ^ w.bits) n = none := by
    rw [Option.eq_none_iff_forall_ne_some]
    intro m hm
    obtain ⟨rfl, rfl | hlt⟩ := powBelow?_eq_some hm
    · omega
    · exact Nat.not_lt.mpr hle hlt
  rw [combinations, w.toNat_radix, hnone]

end WordExpr
