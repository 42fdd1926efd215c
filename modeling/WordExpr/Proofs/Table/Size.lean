import WordExpr.Proofs.Table.Line
import WordExpr.Proofs.Table.Odometer

/-!
# How large a table may be

The number of assignments is looked at before anything else is done, so that a table that is too
large leaves sink and registry as they are, and no other failure is taken for this one
(`Tabulation.Begun`).

* `Tabulation.Loop`   the rows of a table one after the other, for as long as the odometer goes on:
                      no number of rows is allowed in advance. Every outcome is counted and every
                      cell may be stepped in 64 bits without wrapping around;
* `Tabulation.Run`    a whole table, of a constant or in a loop.

`Tabulation.loop_rowsFrom` says that the rows which there are in a table that is not refused make
such a loop, from any assignment on, and `tabulate_refuses_overflow` puts both sides together.
-/

namespace WordExpr

/-! ## refused tables -/

namespace Tabulation

/-- the size of the table has not been complained about -/
def Begun (T : Tabulation) : Prop :=
  ∀ bits arity, T.result ≠ .error (.tooManyCombinations bits arity)

variable (t : Tree) (w : Width) (c : Collector) (r : Registry) (s : Sink)

theorem begun_eval (err : EvalError) : Begun ⟨.error (.eval err), r, s⟩ := by
  intro bits arity h
  cases h

theorem begun_sinkFull : Begun ⟨.error .sinkFull, r, s⟩ := by
  intro bits arity h
  cases h

theorem begun_finishLine : (finishLine c r s).Begun := by
  unfold finishLine
  split
  · intro bits arity h
    cases h
  · exact begun_sinkFull _ _

theorem begun_constant : (constant t w r s).Begun := by
  unfold constant
  split
  · exact begun_eval _ _ _
  · split
    · exact begun_sinkFull _ _
    · exact begun_finishLine _ _ _

theorem begun_rowsFrom (rows : Nat) : (rowsFrom t w rows c r s).Begun := by
  induction rows generalizing c r s with
  | zero => exact begun_finishLine _ _ _
  | succ rows ih =>
    unfold rowsFrom
    split
    · exact begun_eval _ _ _
    · split
      · exact begun_sinkFull _ _
      · split
        · exact ih _ _ _
        · exact begun_finishLine _ _ _

end Tabulation

theorem combinations_eq_ite (w : Width) (n : Nat) : combinations w n =
    if w.bits * n ≤ 63 then .ok (2 ^ (w.bits * n)) else .error (.tooManyCombinations w.bits n) := by
  by_cases h : w.bits * n ≤ 63
  · rw [if_pos h, combinations_eq w (Nat.lt_succ_of_le h), Nat.pow_mul]
  · rw [if_neg h, combinations_eq_error w (Nat.not_le.mp h)]

theorem begun_tabulate {w : Width} {r : Registry} (h : w.bits * r.size ≤ 63) (t : Tree) (s : Sink) :
    (tabulate t r w s).Begun := by
  unfold tabulate
  rw [combinations_eq w (Nat.lt_succ_of_le h)]
  show (if r.reset.isEmpty then Tabulation.constant .. else Tabulation.rowsFrom ..).Begun
  split
  · exact Tabulation.begun_constant _ _ _ _
  · exact Tabulation.begun_rowsFrom _ _ _ _ _ _

/-! ## loops without a bound -/

/-- one more outcome is counted in 64 bits -/
def Collector.Counts (c : Collector) (o : Outcome) : Prop :=
  (c.count o).combinations < UInt64.size ∧ (c.count o).undefined < UInt64.size

namespace Tabulation

inductive Loop (t : Tree) (w : Width) : Collector → Registry → Sink → Tabulation → Prop where
  | stuck {c : Collector} {r : Registry} {s : Sink} {err : EvalError}
    (ho : t.evaluate r w = .error err) : Loop t w c r s ⟨.error (.eval err), r, s⟩
  | full {c : Collector} {r : Registry} {s s' : Sink} {o : Outcome}
    (ho : t.evaluate r w = .ok o) (hc : c.Counts o) (hs : s.write o.item.toUTF8 = (s', false)) :
    Loop t w c r s ⟨.error .sinkFull, r, s'⟩
  | last {c : Collector} {r r' : Registry} {s s' : Sink} {o : Outcome}
    (ho : t.evaluate r w = .ok o) (hc : c.Counts o) (hs : s.write o.item.toUTF8 = (s', true))
    (hd : ∀ d ∈ r.cells, CanGrow d) (hr : r.advance w = (false, r')) :
    Loop t w c r s (finishLine ((c.count o).hash o.item.toUTF8) r' s')
  | next {c : Collector} {r r' : Registry} {s s' : Sink} {o : Outcome} {T : Tabulation}
    (ho : t.evaluate r w = .ok o) (hc : c.Counts o) (hs : s.write o.item.toUTF8 = (s', true))
    (hd : ∀ d ∈ r.cells, CanGrow d) (hr : r.advance w = (true, r'))
    (h : Loop t w ((c.count o).hash o.item.toUTF8) r' s' T) : Loop t w c r s T

inductive Run (t : Tree) (w : Width) (r : Registry) (s : Sink) : Tabulation → Prop where
  | constant (hr : r.isEmpty = true) (hc : ∀ o, ({} : Collector).Counts o) :
    Run t w r s (constant t w r.reset s)
  | rows {T : Tabulation} (hr : r.isEmpty = false) (h : Loop t w {} r.reset s T) : Run t w r s T

variable {t : Tree} {w : Width} {c : Collector} {r : Registry} {s : Sink} {T T' : Tabulation}

/-- a bound that is large enough does not end a loop -/
theorem Loop.exists_rows (h : Loop t w c r s T) :
    ∃ n, ∀ rows, rowsFrom t w (n + rows + 1) c r s = T := by
  induction h with
  | stuck ho =>
    refine ⟨0, fun rows => ?_⟩
    rw [rowsFrom, ho]
  | full ho hc hs =>
    refine ⟨0, fun rows => ?_⟩
    rw [rowsFrom, ho]
    simp only [Collector.add, hs]
  | last ho hc hs hd hr =>
    refine ⟨0, fun rows => ?_⟩
    rw [rowsFrom, ho]
    simp only [Collector.add, hs, hr]
  | next ho hc hs hd hr h ih =>
    obtain ⟨n, hn⟩ := ih
    refine ⟨n + 1, fun rows => ?_⟩
    rw [rowsFrom, ho, Nat.add_right_comm]
    simp only [Collector.add, hs, hr, hn]

theorem Loop.unique (h : Loop t w c r s T) (h' : Loop t w c r s T') : T = T' := by
  obtain ⟨n, hn⟩ := h.exists_rows
  obtain ⟨n', hn'⟩ := h'.exists_rows
  rw [← hn n', ← hn' n, Nat.add_comm n n']

theorem Run.unique (h : Run t w r s T) (h' : Run t w r s T') : T = T' := by
  cases h with
  | constant hr hc =>
    cases h' with
    | constant => rfl
    | rows hr' => cases hr.symm.trans hr'
  | rows hr h =>
    cases h' with
    | constant hr' => cases hr.symm.trans hr'
    | rows hr' h' => exact h.unique h'

end Tabulation

/-! ## the rows that there are -/

/-- as many outcomes as there are rows behind, and not more of them undefined -/
structure Collector.Behind (c : Collector) (k : Nat) : Prop where
  combinations : c.combinations = k
  undefined : c.undefined ≤ k

namespace Collector.Behind

variable {c : Collector} {k : Nat}

theorem start : ({} : Collector).Behind 0 := ⟨rfl, Nat.le_refl 0⟩

theorem count (h : c.Behind k) (o : Outcome) : (c.count o).Behind (k + 1) := by
  refine ⟨congrArg (· + 1) h.combinations, ?_⟩
  have hle := h.undefined
  show (if o = .undefined then c.undefined + 1 else c.undefined) ≤ k + 1
  split
  · omega
  · omega

theorem hash (h : c.Behind k) (bytes : ByteArray) : (c.hash bytes).Behind k :=
  ⟨h.combinations, h.undefined⟩

theorem counts (h : c.Behind k) (hk : k + 1 < UInt64.size) (o : Outcome) : c.Counts o := by
  have hnext := h.count o
  exact ⟨hnext.combinations ▸ hk, Nat.lt_of_le_of_lt hnext.undefined hk⟩

end Collector.Behind

theorem lt_radix_of_mem_assignment {w : Width} {n k : Nat} {d : UInt64}
    (hd : d ∈ assignment w n k) : d < w.radix := by
  induction n with
  | zero => cases hd
  | succ n ih =>
    rcases List.mem_cons.mp hd with rfl | hd
    · have hlt : k / (2 ^ w.bits) ^ n % 2 ^ w.bits < 2 ^ w.bits := Nat.mod_lt _ (Nat.two_pow_pos _)
      rw [UInt64.lt_iff_toNat_lt, w.toNat_radix]
      rwa [UInt64.toNat_ofNat_of_lt' (Nat.lt_trans hlt w.two_pow_bits_lt)]
    · exact ih hd

namespace Tabulation

variable {t : Tree} {w : Width} {r : Registry}

/-- one row, and the rows behind it if there are any -/
theorem loop_row {rows : Nat} {c : Collector} (hc : ∀ o, c.Counts o)
    (hd : ∀ d ∈ r.cells, CanGrow d)
    (hnext : ∀ o r' s', r.advance w = (true, r') →
      Loop t w ((c.count o).hash o.item.toUTF8) r' s'
        (rowsFrom t w rows ((c.count o).hash o.item.toUTF8) r' s')) (s : Sink) :
    Loop t w c r s (rowsFrom t w (rows + 1) c r s) := by
  unfold rowsFrom
  cases ho : t.evaluate r w with
  | error err => exact .stuck ho
  | ok o =>
    simp only [Collector.add]
    cases hs : s.write o.item.toUTF8 with
    | mk s' ok =>
      cases hr : r.advance w with
      | mk more r' =>
        cases ok with
        | false => exact .full ho (hc o) hs
        | true =>
          cases more with
          | false => exact .last ho (hc o) hs hd hr
          | true => exact .next ho (hc o) hs hd hr (hnext o r' s' hr)

theorem canGrow_assign {k : Nat} : ∀ d ∈ (r.assign w k).cells, CanGrow d :=
  fun _ hd => CanGrow.of_lt (lt_radix_of_mem_assignment hd)

/-- from assignment number `k` on: the odometer turns over after the last row that is allowed -/
theorem loop_rowsFrom (htotal : (2 ^ w.bits) ^ r.size < UInt64.size) {k rows : Nat}
    (hk : k + (rows + 1) = (2 ^ w.bits) ^ r.size) {c : Collector} (hc : c.Behind k) (s : Sink) :
    Loop t w c (r.assign w k) s (rowsFrom t w (rows + 1) c (r.assign w k) s) := by
  have hcounts := hc.counts (by omega)
  induction rows generalizing k c s with
  | zero =>
    have hturn : (r.assign w k).advance w = (false, r.assign w (k + 1)) :=
      r.advance_assign w k false (by rw [hk]; simp)
    refine loop_row hcounts canGrow_assign ?_ s
    intro o r' s' hr
    cases hturn.symm.trans hr
  | succ rows ih =>
    have hlt : k + 1 < (2 ^ w.bits) ^ r.size := by omega
    have hmore : (r.assign w k).advance w = (true, r.assign w (k + 1)) :=
      r.advance_assign w k true (by simp [Nat.not_dvd_of_pos_of_lt (Nat.succ_pos k) hlt])
    refine loop_row hcounts canGrow_assign ?_ s
    intro o r' s' hr
    cases hmore.symm.trans hr
    have hnext := (hc.count o).hash o.item.toUTF8
    exact ih (by omega) hnext s' (hnext.counts (by omega))

theorem run_tabulate (hcells : r.cells.length = r.size) (hw : w.bits * r.size ≤ 63) (s : Sink) :
    Run t w r s (tabulate t r w s) := by
  have htotal : (2 ^ w.bits) ^ r.size < UInt64.size := by
    rw [← Nat.pow_mul]
    exact Nat.pow_lt_pow_right (by decide) (Nat.lt_succ_of_le hw)
  rw [tabulate_eq_rows hcells (Nat.lt_succ_of_le hw), ← r.reset_eq_assign hcells w]
  cases hr : r.isEmpty with
  | true =>
    rw [if_pos rfl]
    exact .constant hr (Collector.Behind.start.counts (by decide))
  | false =>
    obtain ⟨rows, hrows⟩ : ∃ rows, (2 ^ w.bits) ^ r.size = rows + 1 :=
      Nat.exists_eq_add_one.mpr (Nat.pow_pos (Nat.two_pow_pos _))
    rw [if_neg Bool.false_ne_true]
    refine .rows hr ?_
    rw [r.reset_eq_assign hcells w, hrows]
    exact loop_rowsFrom htotal (by rw [hrows, Nat.zero_add]) .start s

end Tabulation

/-! ## both sides of the limit -/

/-- **Too large a table is refused at once, and no other table overflows.** There are
`2 ^ (bits * n)` assignments of `n` variables, or too many for 64 bits. A table fails for this
reason exactly in the second case, and then nothing has been done to sink, variables and cells. In
the first case the table is that of the loop which goes on for as long as the odometer does, in
which no counter and no digit wraps around. (A registry that is reached has one cell for each
variable, `Registry.Reached.length_cells`.) -/
theorem tabulate_refuses_overflow (w : Width) :
    (∀ n, combinations w n = if w.bits * n ≤ 63 then .ok (2 ^ (w.bits * n))
      else .error (.tooManyCombinations w.bits n)) ∧
    ∀ (t : Tree) (r : Registry) (s : Sink),
      ((∃ bits arity, (tabulate t r w s).result = .error (.tooManyCombinations bits arity)) ↔
        63 < w.bits * r.size) ∧
      (63 < w.bits * r.size →
        tabulate t r w s = ⟨.error (.tooManyCombinations w.bits r.size), r, s⟩) ∧
      (w.bits * r.size ≤ 63 → r.cells.length = r.size →
        ∀ T, Tabulation.Run t w r s T ↔ T = tabulate t r w s) := by
  refine ⟨combinations_eq_ite w, fun t r s => ⟨⟨?_, ?_⟩, fun h => tabulate_eq_tooMany h t s, ?_⟩⟩
  · rintro ⟨bits, arity, hresult⟩
    by_contra hle
    exact begun_tabulate (Nat.not_lt.mp hle) t s bits arity hresult
  · intro h
    exact ⟨w.bits, r.size, by rw [tabulate_eq_tooMany h]⟩
  · intro hw hcells T
    have hrun := Tabulation.run_tabulate (t := t) hcells hw s
    constructor
    · exact fun h => h.unique hrun
    · rintro rfl
      exact hrun

/-- eight variables: at seven bits there is a table, at eight bits it is too large by one bit -/
theorem tabulate_refuses_overflow_eight : ∃ (t : Tree) (r : Registry) (s : Sink),
    t = ⟨#[{ symbol := some (.variable 3) }], 0⟩ ∧
    r = { Registry.ofNames ["a", "b", "c", "d", "e", "f", "g", "h"] with
      cells := [1, 2, 3, 4, 5, 6, 7, 0xffffffffffffffff] } ∧
    s = { room := some 5 } ∧
    tabulate t r ⟨8, by decide, by decide⟩ s = ⟨.error (.tooManyCombinations 8 8), r, s⟩ ∧
    ∃ T, Tabulation.Run t ⟨7, by decide, by decide⟩ r s T := by
  refine ⟨_, _, _, rfl, rfl, rfl, ?_, ?_⟩
  · obtain ⟨-, h⟩ := tabulate_refuses_overflow ⟨8, by decide, by decide⟩
    exact (h _ _ _).2.1 (by decide +kernel)
  · obtain ⟨-, h⟩ := tabulate_refuses_overflow ⟨7, by decide, by decide⟩
    exact ⟨_, ((h _ _ _).2.2 (by decide +kernel) (by decide +kernel) _).mpr rfl⟩

end WordExpr
