import Mathlib.Order.Bounds.Basic
import WordExpr.Proofs.Table.Line

/-!
# Tables into a sink with a limit

A sink that does not take the whole line gets its first bytes, and the enumeration stops at the item
that does not fit, with the assignment of this item in the cells.

* `Outcome.fitting n os`    how many items of `os`, from the first on, fit into `n` bytes;
* `Tabulation.ofOutcomes`   the table with the outcomes `os` in whatever sink, without a loop.

`Tabulation.rowsFrom_refused` follows the loop to the item that does not fit, and
`tabulate_eq_ofOutcomes` is what every enumeration comes to. `Expression.fingerprint_limited` says
this of an accepted expression and of the line that a sink without a limit gets.
-/

namespace WordExpr

/-! ## items that fit -/

namespace Outcome

def fitting : Nat → List Outcome → Nat
  | _, [] => 0
  | n, o :: os => if o.item.toUTF8.size ≤ n then fitting (n - o.item.toUTF8.size) os + 1 else 0

theorem size_line_cons (o : Outcome) (os : List Outcome) :
    (line (o :: os)).toUTF8.size = o.item.toUTF8.size + (line os).toUTF8.size :=
  ByteArray.size_append

/-- the first item of a line with its line feed -/
theorem toUTF8_line_cons (o : Outcome) (os : List Outcome) :
    (line (o :: os) ++ "\n").toUTF8 = o.item.toUTF8 ++ (line os ++ "\n").toUTF8 :=
  ByteArray.append_assoc

theorem fitting_le_length (n : Nat) (os : List Outcome) : fitting n os ≤ os.length := by
  induction os generalizing n with
  | nil => exact Nat.le_refl 0
  | cons o os ih =>
    unfold fitting
    split
    · exact Nat.succ_le_succ (ih _)
    · exact Nat.zero_le _

theorem le_fitting_iff {n k : Nat} {os : List Outcome} (hk : k ≤ os.length) :
    k ≤ fitting n os ↔ (line (os.take k)).toUTF8.size ≤ n := by
  induction os generalizing n k with
  | nil =>
    obtain rfl := Nat.le_zero.mp hk
    exact iff_of_true (Nat.zero_le _) (Nat.zero_le _)
  | cons o os ih =>
    cases k with
    | zero => exact iff_of_true (Nat.zero_le _) (Nat.zero_le _)
    | succ k =>
      rw [List.take_succ_cons, size_line_cons, fitting]
      have hih := ih (n := n - o.item.toUTF8.size) (Nat.le_of_succ_le_succ hk)
      split <;> omega

/-- the items that fit are as many as possible -/
theorem isGreatest_fitting (n : Nat) (os : List Outcome) :
    IsGreatest {k | k ≤ os.length ∧ (line (os.take k)).toUTF8.size ≤ n} (fitting n os) := by
  constructor
  · exact ⟨fitting_le_length n os, (le_fitting_iff (fitting_le_length n os)).mp (Nat.le_refl _)⟩
  · intro k hk
    exact (le_fitting_iff hk.1).mpr hk.2

end Outcome

/-! ## refused writes -/

theorem Sink.write_of_lt {s : Sink} {n : Nat} {bytes : ByteArray} (hs : s.left = some n)
    (hn : n < bytes.size) : s.write bytes = (s.append (bytes.extract 0 n), false) := by
  unfold write
  rw [hs]
  show (s.append (bytes.extract 0 n), decide (bytes.size ≤ n)) = _
  rw [decide_eq_false (Nat.not_le.mpr hn)]

theorem Sink.fits_of_left {s : Sink} {m n : Nat} (hs : s.left = some n) (hmn : m ≤ n) :
    s.Fits m := by
  intro l hl
  rw [hs] at hl
  exact Option.some.inj hl ▸ hmn

/-- the beginning of two texts, in the second one -/
theorem extract_append_of_size_le {a b : ByteArray} {n : Nat} (h : a.size ≤ n) :
    (a ++ b).extract 0 n = a ++ b.extract 0 (n - a.size) := by
  rw [ByteArray.extract_append, Nat.zero_sub]
  congr 1
  rw [← Nat.max_eq_left h, ByteArray.extract_zero_max_size]

/-- the beginning of two texts, in the first one -/
theorem extract_append_of_lt_size {a b : ByteArray} {n : Nat} (h : n < a.size) :
    (a ++ b).extract 0 n = a.extract 0 n := by
  rw [ByteArray.extract_append, Nat.zero_sub, Nat.sub_eq_zero_of_le (Nat.le_of_lt h),
    ByteArray.extract_same, ByteArray.append_empty]

namespace Tabulation

variable {t : Tree} {w : Width} {r : Registry} {o : Outcome} {s : Sink} {n : Nat}

theorem finishLine_of_lt (hs : s.left = some n) (hn : n < "\n".toUTF8.size) (c : Collector)
    (r : Registry) :
    finishLine c r s = ⟨.error .sinkFull, r, s.append ("\n".toUTF8.extract 0 n)⟩ := by
  unfold finishLine
  rw [Sink.write_of_lt hs hn]

theorem rowsFrom_of_lt (ho : t.evaluate r w = .ok o) (hs : s.left = some n)
    (hn : n < o.item.toUTF8.size) (rows : Nat) (c : Collector) :
    rowsFrom t w (rows + 1) c r s =
      ⟨.error .sinkFull, r, s.append (o.item.toUTF8.extract 0 n)⟩ := by
  rw [rowsFrom, ho]
  simp only [Collector.add, Sink.write_of_lt hs hn]

/-- the loop from the assignment of number `k` on, with too little room for what is left -/
theorem rowsFrom_refused {os : List Outcome} {k rows : Nat} (hos : os ≠ [])
    (hk : k + os.length = (2 ^ w.bits) ^ r.size)
    (heval : ∀ (i : Nat) (hi : i < os.length), t.evaluate (r.assign w (k + i)) w = .ok os[i])
    (hrows : os.length ≤ rows) (c : Collector) (hs : s.left = some n)
    (hn : n < (Outcome.line os ++ "\n").toUTF8.size) :
    rowsFrom t w rows c (r.assign w k) s = ⟨.error .sinkFull, r.assign w (k + Outcome.fitting n os),
      s.append ((Outcome.line os ++ "\n").toUTF8.extract 0 n)⟩ := by
  induction os generalizing k rows c s n with
  | nil => exact absurd rfl hos
  | cons o os ih =>
    obtain ⟨rows, rfl⟩ : ∃ n, rows = n + 1 :=
      ⟨rows - 1, by simp only [List.length_cons] at hrows; omega⟩
    have ho : t.evaluate (r.assign w k) w = .ok o := heval 0 (Nat.succ_pos _)
    rw [Outcome.toUTF8_line_cons] at hn ⊢
    rw [ByteArray.size_append] at hn
    by_cases hitem : o.item.toUTF8.size ≤ n
    · -- this item fits, and less is left for the others
      have hfits : s.Fits o.item.toUTF8.size := Sink.fits_of_left hs hitem
      have hleft : (s.append o.item.toUTF8).left = some (n - o.item.toUTF8.size) := by
        rw [Sink.left_append, hs]
        rfl
      have hrest : n - o.item.toUTF8.size < (Outcome.line os ++ "\n").toUTF8.size := by omega
      rw [extract_append_of_size_le hitem, ← Sink.append_append, Outcome.fitting, if_pos hitem]
      cases os with
      | nil =>
        rw [rowsFrom_last ho hfits hk, finishLine_of_lt hleft hrest]
        have hturn : r.assign w (k + (Outcome.fitting (n - o.item.toUTF8.size) [] + 1)) =
            r.assign w 0 := by
          rw [← r.assign_pow w, ← hk]
          rfl
        rw [hturn]
        rfl
      | cons o' os =>
        have hlt : k + 1 < (2 ^ w.bits) ^ r.size := by
          simp only [List.length_cons] at hk
          omega
        have hnumber (m : Nat) : k + (m + 1) = k + 1 + m := by omega
        rw [rowsFrom_step ho hfits hlt, hnumber (Outcome.fitting _ _)]
        apply ih (by simp)
        · simp only [List.length_cons] at hk ⊢
          omega
        · intro i hi
          rw [← hnumber]
          exact heval (i + 1) (Nat.succ_lt_succ hi)
        · exact Nat.le_of_succ_le_succ hrows
        · exact hleft
        · exact hrest
    · have hlt : n < o.item.toUTF8.size := Nat.not_le.mp hitem
      rw [rowsFrom_of_lt ho hs hlt, extract_append_of_lt_size hlt, Outcome.fitting,
        if_neg hitem]
      rfl

theorem constant_refused (ho : t.evaluate r w = .ok o) (hs : s.left = some n)
    (hn : n < (o.item ++ "\n").toUTF8.size) :
    constant t w r s =
      ⟨.error .sinkFull, r, s.append ((o.item ++ "\n").toUTF8.extract 0 n)⟩ := by
  have hbytes : (o.item ++ "\n").toUTF8 = o.item.toUTF8 ++ "\n".toUTF8 := rfl
  rw [hbytes] at hn ⊢
  rw [ByteArray.size_append] at hn
  by_cases hitem : o.item.toUTF8.size ≤ n
  · have hleft : (s.append o.item.toUTF8).left = some (n - o.item.toUTF8.size) := by
      rw [Sink.left_append, hs]
      rfl
    rw [constant_of_fits ho (Sink.fits_of_left hs hitem), finishLine_of_lt hleft (by omega),
      extract_append_of_size_le hitem, Sink.append_append]
  · have hlt : n < o.item.toUTF8.size := Nat.not_le.mp hitem
    unfold constant
    rw [ho]
    simp only [Collector.addUnhashed, Sink.write_of_lt hs hlt]
    rw [extract_append_of_lt_size hlt]

/-- The table with the outcomes `os`: the line in full, or what fits of it and the assignment of the
first item that does not. -/
def ofOutcomes (w : Width) (r : Registry) (os : List Outcome) (s : Sink) : Tabulation :=
  let line := (Outcome.line os ++ "\n").toUTF8
  let print : Fingerprint := ⟨Md5.digest (if r.isEmpty then .empty else (Outcome.line os).toUTF8),
    os.length, os.count .undefined⟩
  match s.left with
  | none => ⟨.ok print, r.assign w 0, s.append line⟩
  | some n =>
    if line.size ≤ n then ⟨.ok print, r.assign w 0, s.append line⟩
    else ⟨.error .sinkFull, r.assign w (Outcome.fitting n os), s.append (line.extract 0 n)⟩

theorem eq_sinkFull_of_ofOutcomes {os : List Outcome} {err : Error}
    (h : (ofOutcomes w r os s).result = .error err) : err = .sinkFull := by
  unfold ofOutcomes at h
  cases hs : s.left with
  | none =>
    rw [hs] at h
    cases h
  | some n =>
    rw [hs] at h
    by_cases hn : (Outcome.line os ++ "\n").toUTF8.size ≤ n
    · simp only [if_pos hn] at h
      cases h
    · simp only [if_neg hn] at h
      exact (Except.error.inj h).symm

end Tabulation

/-! ## the whole table -/

section

variable {t : Tree} {r : Registry} {w : Width} {os : List Outcome}

theorem tabulate_refused (hcells : r.cells.length = r.size) (hw : w.bits * r.size < 64)
    (hlen : os.length = (2 ^ w.bits) ^ r.size)
    (heval : ∀ (k : Nat) (hk : k < os.length), t.evaluate (r.assign w k) w = .ok os[k])
    {s : Sink} {n : Nat} (hs : s.left = some n) (hn : n < (Outcome.line os ++ "\n").toUTF8.size) :
    tabulate t r w s = ⟨.error .sinkFull, r.assign w (Outcome.fitting n os),
      s.append ((Outcome.line os ++ "\n").toUTF8.extract 0 n)⟩ := by
  rw [tabulate_eq_rows hcells hw]
  cases hempty : r.isEmpty with
  | true =>
    have hsize : r.size = 0 := List.isEmpty_iff_length_eq_zero.mp hempty
    rw [hsize, Nat.pow_zero] at hlen
    obtain ⟨o, rfl⟩ := List.length_eq_one_iff.mp hlen
    have ho : t.evaluate (r.assign w 0) w = .ok o := heval 0 Nat.one_pos
    have hitem : Outcome.line [o] = o.item := String.append_empty
    -- there are no cells
    have hcell (k : Nat) : r.assign w k = r.assign w 0 := by
      unfold Registry.assign
      rw [hsize]
      rfl
    rw [hcell (Outcome.fitting _ _)]
    rw [hitem] at hn ⊢
    rw [if_pos rfl, Tabulation.constant_refused ho hs hn]
  | false =>
    have hos : os ≠ [] := by
      rintro rfl
      exact Nat.ne_of_lt (Nat.pow_pos (Nat.two_pow_pos _)) hlen
    rw [if_neg Bool.false_ne_true, Tabulation.rowsFrom_refused (k := 0) hos
      (by rw [Nat.zero_add, hlen]) (fun i hi => by rw [Nat.zero_add]; exact heval i hi)
      (Nat.le_of_eq hlen) {} hs hn, Nat.zero_add]

theorem tabulate_eq_ofOutcomes (hcells : r.cells.length = r.size) (hw : w.bits * r.size < 64)
    (hlen : os.length = (2 ^ w.bits) ^ r.size)
    (heval : ∀ (k : Nat) (hk : k < os.length), t.evaluate (r.assign w k) w = .ok os[k])
    (s : Sink) : tabulate t r w s = Tabulation.ofOutcomes w r os s := by
  unfold Tabulation.ofOutcomes
  cases hs : s.left with
  | none =>
    refine tabulate_of_fits hcells hw hlen heval ?_
    intro l hl
    rw [hs] at hl
    cases hl
  | some n =>
    by_cases hn : (Outcome.line os ++ "\n").toUTF8.size ≤ n
    · simp only [if_pos hn]
      exact tabulate_of_fits hcells hw hlen heval (Sink.fits_of_left hs hn)
    · simp only [if_neg hn]
      exact tabulate_refused hcells hw hlen heval hs (Nat.not_le.mp hn)

end

/-! ## accepted expressions -/

/-- an empty sink that takes `limit` bytes in all -/
def Sink.limited (limit : Nat) : Sink := { room := some limit }

namespace Expression

variable {raw : String} {e : Expression} {w : Width}

namespace Lists

variable {os : List Outcome}

theorem withCells (hos : e.Lists w os) (cells : List UInt64) : (e.withCells cells).Lists w os :=
  ⟨hos.length, hos.evaluate⟩

theorem fingerprint_eq_ofOutcomes (hos : e.Lists w os)
    (hcells : e.registry.cells.length = e.registry.size) (hw : w.bits * e.registry.size < 64)
    (s : Sink) : e.fingerprint w s = Tabulation.ofOutcomes w e.registry os s :=
  tabulate_eq_ofOutcomes hcells hw hos.length hos.evaluate s

end Lists

/-- **A full sink holds a prefix, and the cells tell which.** Whatever was in the cells, an
enumeration into a sink that takes `limit` bytes succeeds exactly if these are enough for the line
`L` that a sink without a limit gets. The sink has the first bytes of `L`, as many as it takes. If
they are not all, the cells are left at the assignment whose number is that of the items that were
written in full; after the last item this is the first assignment. -/
theorem fingerprint_limited (h : parse raw = .ok e) (hw : w.bits * e.registry.size < 64)
    {cells : List UInt64} (hcells : cells.length = e.registry.size) (limit : Nat) :
    ∃ (os : List Outcome) (L : ByteArray) (T : Tabulation), e.Lists w os ∧
      ((e.withCells cells).fingerprint w .unlimited).sink.received = L ∧
      L = (Outcome.line os ++ "\n").toUTF8 ∧
      (e.withCells cells).fingerprint w (.limited limit) = T ∧
      ((∃ p, T.result = .ok p) ↔ L.size ≤ limit) ∧
      T.sink.received = L.extract 0 (min limit L.size) ∧
      ∀ err, T.result = .error err → err = .sinkFull ∧
        ∃ k, IsGreatest {k | k ≤ os.length ∧ (Outcome.line (os.take k)).toUTF8.size ≤ limit} k ∧
          T.registry = { e.registry with
            cells := assignment w e.registry.size (k % 2 ^ (w.bits * e.registry.size)) } := by
  obtain ⟨os, hos⟩ := exists_lists h w
  have heq (s : Sink) := (hos.withCells cells).fingerprint_eq_ofOutcomes hcells hw s
  have hleft : (Sink.limited limit).left = some limit := rfl
  refine ⟨os, _, _, hos, ?_, rfl, rfl, ?_⟩
  · rw [heq]
    exact ByteArray.empty_append
  rw [heq, Tabulation.ofOutcomes, hleft]
  generalize hL : (Outcome.line os ++ "\n").toUTF8 = L
  by_cases hfits : L.size ≤ limit
  · simp only [if_pos hfits]
    refine ⟨iff_of_true ⟨_, rfl⟩ hfits, ?_, fun err herr => by cases herr⟩
    rw [Nat.min_eq_right hfits, ByteArray.extract_zero_size]
    exact ByteArray.empty_append
  · simp only [if_neg hfits]
    refine ⟨iff_of_false (fun ⟨p, hp⟩ => by cases hp) hfits, ?_, fun err herr => ?_⟩
    · rw [Nat.min_eq_left (Nat.le_of_not_le hfits)]
      exact ByteArray.empty_append
    · refine ⟨(Except.error.inj herr).symm, _, Outcome.isGreatest_fitting limit os, ?_⟩
      rw [Nat.pow_mul, ← assignment_div_mod]
      rfl

/-- the comma of the third item does not fit: the cells are left at the third assignment -/
theorem fingerprint_limited_quotient :
    ∃ e, parse "x/y" = .ok e ∧ Width.single.bits * e.registry.size < 64 ∧
      ∃ T, (e.withCells [1, 1]).fingerprint .single (.limited 5) = T ∧
        T.result = .error .sinkFull ∧ T.sink.received = "n,0,n".toUTF8 ∧
        T.registry.cells = [1, 0] := by
  have hrun : (parse "x/y").toOption.map (fun e =>
      (e.registry.size, ((e.withCells [1, 1]).fingerprint .single .unlimited).sink.received)) =
      some (2, "n,0,n,1,\n".toUTF8) := by decide +kernel
  obtain ⟨e, he, hfacts⟩ := Option.map_eq_some_iff.mp hrun
  obtain ⟨hsize, hline⟩ := Prod.mk.inj hfacts
  have h := eq_ok_of_toOption he
  have hw : Width.single.bits * e.registry.size < 64 := by
    rw [hsize]
    decide
  have hcells : ([1, 1] : List UInt64).length = e.registry.size := hsize.symm
  obtain ⟨os, L, T, -, hL, hos, hT, hok, hreceived, herr⟩ := fingerprint_limited h hw hcells 5
  have hLeq : L = "n,0,n,1,\n".toUTF8 := hL.symm.trans hline
  have hoseq : os = [.undefined, .value 0, .undefined, .value 1] := by
    apply Outcome.line_injective
    apply (String.append_left_inj "\n").mp
    apply String.toByteArray_inj.mp
    exact hos.symm.trans (hLeq.trans (by decide +kernel))
  rw [hLeq] at hok hreceived
  cases hres : T.result with
  | ok p => exact absurd (hok.mp ⟨p, hres⟩) (by decide +kernel)
  | error err =>
    obtain ⟨rfl, k, hk, hreg⟩ := herr err hres
    have hk2 : k = 2 := by
      rw [hoseq] at hk
      exact (hk.unique (Outcome.isGreatest_fitting 5 _)).trans (by decide +kernel)
    refine ⟨e, h, hw, T, hT, hres, hreceived.trans (by decide +kernel), ?_⟩
    rw [hreg, hk2, hsize]
    show assignment .single 2 2 = [1, 0]
    decide +kernel

end Expression

end WordExpr
