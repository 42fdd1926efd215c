import WordExpr.Proofs.Accepted
import WordExpr.Proofs.Table.Assignment

/-!
# The table of an accepted expression

`Outcome.line os` are the items of the outcomes `os` one after the other, and `Sink.Fits s n` says
that a sink takes `n` more bytes. `Tabulation.rowsFrom_step` and `Tabulation.rowsFrom_last` say what
one row does whose item fits, and `Tabulation.rowsFrom_of_fits` follows the loop from any
assignment: it ends by the odometer, after the last assignment and with all cells at zero, whatever
number of rows it is allowed beyond those that there are.

`Expression.fingerprint_eq`: the table of an accepted expression has one item for every assignment,
in the order of their numbers.
-/

namespace WordExpr

/-! ## items -/

namespace Outcome

def line : List Outcome → String
  | [] => ""
  | o :: os => o.item ++ line os

end Outcome

namespace Collector

/-- all of `os` counted and hashed -/
def addAll (c : Collector) (os : List Outcome) : Collector where
  hashed := c.hashed ++ (Outcome.line os).toUTF8
  combinations := c.combinations + os.length
  undefined := c.undefined + os.count .undefined

theorem addAll_nil (c : Collector) : c.addAll [] = c := by
  have h : c.hashed ++ (Outcome.line []).toUTF8 = c.hashed := ByteArray.append_empty
  unfold addAll
  rw [h]
  rfl

theorem addAll_cons (c : Collector) (o : Outcome) (os : List Outcome) :
    ((c.count o).hash o.item.toUTF8).addAll os = c.addAll (o :: os) := by
  have hhashed : c.hashed ++ o.item.toUTF8 ++ (Outcome.line os).toUTF8 =
      c.hashed ++ (Outcome.line (o :: os)).toUTF8 := ByteArray.append_assoc
  have hcombinations : c.combinations + 1 + os.length = c.combinations + (o :: os).length := by
    rw [List.length_cons]
    omega
  have hundefined : (c.count o).undefined + os.count .undefined =
      c.undefined + (o :: os).count .undefined := by
    rw [List.count_cons, count]
    by_cases ho : o = .undefined
    · simp only [ho, if_true, beq_self_eq_true]
      omega
    · simp only [ho, if_false, beq_eq_false_iff_ne.mpr ho]
      rfl
  show (⟨c.hashed ++ _ ++ _, c.combinations + 1 + _, _ + _⟩ : Collector) = ⟨_, _, _⟩
  rw [hhashed, hcombinations, ← hundefined]
  rfl

theorem finish_addAll (os : List Outcome) : (({} : Collector).addAll os).finish =
    ⟨Md5.digest (Outcome.line os).toUTF8, os.length, os.count .undefined⟩ := by
  have hhashed : (ByteArray.empty ++ (Outcome.line os).toUTF8) = (Outcome.line os).toUTF8 :=
    ByteArray.empty_append
  show (⟨Md5.digest (.empty ++ _), 0 + os.length, 0 + os.count .undefined⟩ : Fingerprint) = _
  rw [hhashed, Nat.zero_add, Nat.zero_add]

/-- one outcome that is not hashed -/
theorem finish_count (o : Outcome) : (({} : Collector).count o).finish =
    ⟨Md5.digest .empty, [o].length, [o].count .undefined⟩ := by
  cases o <;> rfl

end Collector

/-! ## sinks with room left -/

namespace Sink

def append (s : Sink) (bytes : ByteArray) : Sink := { s with received := s.received ++ bytes }

/-- `n` more bytes may be taken -/
def Fits (s : Sink) (n : Nat) : Prop := ∀ l, s.left = some l → n ≤ l

theorem fits_of_room {s : Sink} (h : s.room = none) (n : Nat) : s.Fits n := by
  intro l hl
  rw [left, h] at hl
  cases hl

theorem Fits.mono {s : Sink} {m n : Nat} (h : s.Fits n) (hmn : m ≤ n) : s.Fits m :=
  fun l hl => Nat.le_trans hmn (h l hl)

theorem left_append (s : Sink) (bytes : ByteArray) :
    (s.append bytes).left = s.left.map (· - bytes.size) := by
  show s.room.map (· - (s.received ++ bytes).size) = (s.room.map _).map _
  rw [Option.map_map, ByteArray.size_append]
  congr 1
  funext l
  exact (Nat.sub_sub ..).symm

theorem Fits.append {s : Sink} {bytes : ByteArray} {n : Nat} (h : s.Fits (bytes.size + n)) :
    (s.append bytes).Fits n := by
  intro l hl
  rw [left_append] at hl
  obtain ⟨l', hl', rfl⟩ := Option.map_eq_some_iff.mp hl
  have hle := h l' hl'
  omega

theorem write_of_fits {s : Sink} {bytes : ByteArray} (h : s.Fits bytes.size) :
    s.write bytes = (s.append bytes, true) := by
  unfold write
  cases hl : s.left with
  | none => rfl
  | some n =>
    have hn : bytes.size ≤ n := h n hl
    have hall : bytes.extract 0 n = bytes := by
      rw [← Nat.max_eq_left hn, ByteArray.extract_zero_max_size]
    show (s.append (bytes.extract 0 n), decide (bytes.size ≤ n)) = _
    rw [hall, decide_eq_true hn]

theorem append_append (s : Sink) (a b : ByteArray) :
    (s.append a).append b = s.append (a ++ b) := by
  unfold append
  congr 1
  exact ByteArray.append_assoc

theorem append_empty (s : Sink) : s.append .empty = s := by
  unfold append
  rw [ByteArray.append_empty]

end Sink

/-! ## the loop -/

/-- the registry with the assignment of number `k` -/
def Registry.assign (r : Registry) (w : Width) (k : Nat) : Registry :=
  { r with cells := assignment w r.size k }

namespace Registry

variable (r : Registry) (w : Width)

theorem advance_assign (k : Nat) (more : Bool)
    (hmore : more = true ↔ ¬ (2 ^ w.bits) ^ r.size ∣ k + 1) :
    (r.assign w k).advance w = (more, r.assign w (k + 1)) := by
  rw [advance, assign, advance_assignment w r.size k more hmore]
  rfl

theorem assign_pow : r.assign w ((2 ^ w.bits) ^ r.size) = r.assign w 0 := by
  have h := assignment_add_mul w r.size 0 1
  rw [Nat.zero_add, Nat.one_mul] at h
  rw [assign, h, assign]

end Registry

namespace Tabulation

theorem finishLine_of_fits {s : Sink} (hs : s.Fits "\n".toUTF8.size) (c : Collector)
    (r : Registry) : finishLine c r s = ⟨.ok c.finish, r, s.append "\n".toUTF8⟩ := by
  unfold finishLine
  rw [Sink.write_of_fits hs]

theorem finishLine_eq {s : Sink} (hs : s.room = none) (c : Collector) (r : Registry) :
    finishLine c r s = ⟨.ok c.finish, r, s.append "\n".toUTF8⟩ :=
  finishLine_of_fits (Sink.fits_of_room hs _) c r

section

variable {t : Tree} {w : Width} {r : Registry} {o : Outcome} {k rows : Nat} {s : Sink}

theorem add_of_fits (hs : s.Fits o.item.toUTF8.size) (c : Collector) :
    c.add o s = ((c.count o).hash o.item.toUTF8, s.append o.item.toUTF8, true) := by
  rw [Collector.add, Sink.write_of_fits hs]

/-- a row that another one follows -/
theorem rowsFrom_step (ho : t.evaluate (r.assign w k) w = .ok o) (hs : s.Fits o.item.toUTF8.size)
    (hk : k + 1 < (2 ^ w.bits) ^ r.size) (c : Collector) :
    rowsFrom t w (rows + 1) c (r.assign w k) s =
      rowsFrom t w rows ((c.count o).hash o.item.toUTF8) (r.assign w (k + 1))
        (s.append o.item.toUTF8) := by
  have hmore : ¬ (2 ^ w.bits) ^ r.size ∣ k + 1 := Nat.not_dvd_of_pos_of_lt (Nat.succ_pos k) hk
  rw [rowsFrom, ho]
  simp only [add_of_fits hs]
  rw [r.advance_assign w k true (by simp [hmore])]

/-- the last row: the odometer turns over -/
theorem rowsFrom_last (ho : t.evaluate (r.assign w k) w = .ok o) (hs : s.Fits o.item.toUTF8.size)
    (hk : k + 1 = (2 ^ w.bits) ^ r.size) (c : Collector) :
    rowsFrom t w (rows + 1) c (r.assign w k) s =
      finishLine ((c.count o).hash o.item.toUTF8) (r.assign w 0) (s.append o.item.toUTF8) := by
  rw [rowsFrom, ho]
  simp only [add_of_fits hs]
  rw [r.advance_assign w k false (by rw [hk]; simp), hk, r.assign_pow w]

end

/-- from the assignment of number `k` to the last one -/
theorem rowsFrom_of_fits {t : Tree} {w : Width} {r : Registry} {os : List Outcome} {k rows : Nat}
    (hos : os ≠ []) (hk : k + os.length = (2 ^ w.bits) ^ r.size)
    (heval : ∀ (i : Nat) (hi : i < os.length), t.evaluate (r.assign w (k + i)) w = .ok os[i])
    (hrows : os.length ≤ rows) (c : Collector) {s : Sink}
    (hs : s.Fits (Outcome.line os).toUTF8.size) :
    rowsFrom t w rows c (r.assign w k) s =
      finishLine (c.addAll os) (r.assign w 0) (s.append (Outcome.line os).toUTF8) := by
  induction os generalizing k rows c s with
  | nil => exact absurd rfl hos
  | cons o os ih =>
    obtain ⟨rows, rfl⟩ : ∃ n, rows = n + 1 :=
      ⟨rows - 1, by simp only [List.length_cons] at hrows; omega⟩
    have ho : t.evaluate (r.assign w k) w = .ok o := heval 0 (Nat.succ_pos _)
    have hline : (s.append o.item.toUTF8).append (Outcome.line os).toUTF8 =
        s.append (Outcome.line (o :: os)).toUTF8 := Sink.append_append ..
    have hsum : s.Fits (o.item.toUTF8.size + (Outcome.line os).toUTF8.size) := by
      rw [← ByteArray.size_append]
      exact hs
    have hitem : s.Fits o.item.toUTF8.size := hsum.mono (Nat.le_add_right ..)
    rw [← c.addAll_cons, ← hline]
    cases os with
    | nil =>
      rw [rowsFrom_last ho hitem hk, Collector.addAll_nil]
      congr 1
      exact (Sink.append_empty _).symm
    | cons o' os =>
      have hlt : k + 1 < (2 ^ w.bits) ^ r.size := by
        simp only [List.length_cons] at hk
        omega
      rw [rowsFrom_step ho hitem hlt]
      refine ih (by simp) (by simp only [List.length_cons] at hk ⊢; omega) (fun i hi => ?_)
        (Nat.le_of_succ_le_succ hrows) _ hsum.append
      have hsum : k + 1 + i = k + (i + 1) := by omega
      rw [hsum]
      exact heval (i + 1) (Nat.succ_lt_succ hi)

theorem rowsFrom_eq {t : Tree} {w : Width} {r : Registry} {os : List Outcome} {k rows : Nat}
    (hos : os ≠ []) (hk : k + os.length = (2 ^ w.bits) ^ r.size)
    (heval : ∀ (i : Nat) (hi : i < os.length), t.evaluate (r.assign w (k + i)) w = .ok os[i])
    (hrows : os.length ≤ rows) (c : Collector) {s : Sink} (hs : s.room = none) :
    rowsFrom t w rows c (r.assign w k) s =
      finishLine (c.addAll os) (r.assign w 0) (s.append (Outcome.line os).toUTF8) :=
  rowsFrom_of_fits hos hk heval hrows c (Sink.fits_of_room hs _)

theorem constant_of_fits {t : Tree} {w : Width} {r : Registry} {o : Outcome}
    (ho : t.evaluate r w = .ok o) {s : Sink} (hs : s.Fits o.item.toUTF8.size) :
    constant t w r s = finishLine (({} : Collector).count o) r (s.append o.item.toUTF8) := by
  unfold constant
  rw [ho]
  simp only [Collector.addUnhashed, Sink.write_of_fits hs]

theorem constant_eq {t : Tree} {w : Width} {r : Registry} {o : Outcome}
    (ho : t.evaluate r w = .ok o) {s : Sink} (hs : s.room = none) :
    constant t w r s = finishLine (({} : Collector).count o) r (s.append o.item.toUTF8) :=
  constant_of_fits ho (Sink.fits_of_room hs _)

end Tabulation

/-! ## the whole table -/

theorem exists_outcomes {P : Nat → Outcome → Prop} {n : Nat} (h : ∀ k < n, ∃ o, P k o) :
    ∃ os : List Outcome, os.length = n ∧ ∀ (k : Nat) (hk : k < os.length), P k os[k] := by
  choose f hf using fun k : Fin n => h k k.2
  refine ⟨List.ofFn f, List.length_ofFn, fun k hk => ?_⟩
  rw [List.getElem_ofFn]
  exact hf ⟨k, _⟩

namespace Expression

variable {raw : String} {e : Expression}

/-- an expression comes with one cell for each variable -/
theorem length_cells (h : parse raw = .ok e) : e.registry.cells.length = e.registry.size := by
  obtain ⟨toks, ps, x, q, t, -, rfl⟩ := accepted h
  show (Registry.ofNames t.names).cells.length = (Registry.ofNames t.names).canonicalize.size
  rw [(Registry.numbered_ofNames _).cells, List.length_replicate, Registry.size_canonicalize]

/-- **Every assignment once, in order.** Whatever was in the cells, the table of an accepted
expression holds the outcome of the assignment of number `k` at place `k`, for all
`2 ^ (bits * n)` of them, and the cells are zero afterwards. -/
theorem fingerprint_eq (h : parse raw = .ok e) (w : Width) (hw : w.bits * e.registry.size < 64)
    (cells : List UInt64) (hcells : cells.length = e.registry.size) (s : Sink)
    (hs : s.room = none) :
    ∃ os : List Outcome, os.length = 2 ^ (w.bits * e.registry.size) ∧
      (∀ (k : Nat) (hk : k < os.length), e.tree.evaluate
        { e.registry with cells := assignment w e.registry.size k } w = .ok os[k]) ∧
      (∀ ds : List UInt64, ds.length = e.registry.size → (∀ d ∈ ds, d.toNat < 2 ^ w.bits) →
        ∃! k, k < os.length ∧ assignment w e.registry.size k = ds) ∧
      { e with registry := { e.registry with cells := cells } }.fingerprint w s =
        ⟨.ok ⟨Md5.digest (if e.registry.size = 0 then .empty else (Outcome.line os).toUTF8),
            os.length, os.count .undefined⟩,
          { e.registry with cells := List.replicate e.registry.size 0 },
          s.append (Outcome.line os ++ "\n").toUTF8⟩ := by
  have hpow : (2 ^ w.bits) ^ e.registry.size = 2 ^ (w.bits * e.registry.size) :=
    (Nat.pow_mul ..).symm
  obtain ⟨os, hlen, heval⟩ := exists_outcomes (n := 2 ^ (w.bits * e.registry.size))
    (fun k _ => exists_evaluate h (r := e.registry.assign w k) (length_assignment w _ k) w)
  refine ⟨os, hlen, heval, ?_, ?_⟩
  · intro ds hds hlt
    rw [hlen, ← hpow, ← hds]
    exact existsUnique_assignment w hlt
  have hzero : ({ e.registry with cells := List.replicate e.registry.size 0 } : Registry) =
      e.registry.assign w 0 := by
    unfold Registry.assign
    rw [assignment_zero]
  have hreset : ({ e.registry with cells := cells } : Registry).reset = e.registry.assign w 0 := by
    rw [← hzero, ← hcells, ← List.map_const']
    rfl
  have hcomb : combinations w ({ e.registry with cells := cells } : Registry).size =
      .ok ((2 ^ w.bits) ^ e.registry.size) := combinations_eq w hw
  unfold fingerprint tabulate
  rw [hcomb, hzero]
  simp only [hreset]
  by_cases hn : e.registry.size = 0
  · -- without variables there is one outcome, and it is not hashed
    have hempty : (e.registry.assign w 0).isEmpty = true := List.isEmpty_iff_length_eq_zero.mpr hn
    rw [hn, Nat.mul_zero, Nat.pow_zero] at hlen
    obtain ⟨o, rfl⟩ := List.length_eq_one_iff.mp hlen
    have ho : e.tree.evaluate (e.registry.assign w 0) w = .ok o := heval 0 Nat.one_pos
    have hline : Outcome.line [o] = o.item := String.append_empty
    rw [if_pos hempty, if_pos hn, Tabulation.constant_eq ho hs,
      Tabulation.finishLine_eq (s := s.append _) hs, Sink.append_append, hline,
      Collector.finish_count]
    rfl
  · have hne : (e.registry.assign w 0).isEmpty = false := by
      rw [Bool.eq_false_iff]
      exact fun he => hn (List.isEmpty_iff_length_eq_zero.mp he)
    have hos : os ≠ [] := by
      rintro rfl
      exact Nat.ne_of_lt (Nat.two_pow_pos _) hlen
    have hrun := Tabulation.rowsFrom_eq (k := 0) hos (by rw [Nat.zero_add, hlen, hpow])
      (fun i hi => by rw [Nat.zero_add]; exact heval i hi)
      (Nat.le_of_eq (hlen.trans hpow.symm)) {} hs
    rw [hne, if_neg Bool.false_ne_true, if_neg hn, hrun,
      Tabulation.finishLine_eq (s := s.append _) hs, Sink.append_append, Collector.finish_addAll]
    rfl

/-- the line of a quotient of bits, with what is hashed of it -/
theorem fingerprint_quotient :
    ∃ e c, parse "x/y" = .ok e ∧ ({ e with registry := { e.registry with cells := [7, 9] } } :
      Expression).fingerprint .single .unlimited = c ∧
      c.result = .ok ⟨Md5.digest "n,0,n,1,".toUTF8, 4, 2⟩ ∧
      c.sink.received = "n,0,n,1,\n".toUTF8 ∧ c.registry.cells = [0, 0] := by
  have hrows : (parse "x/y").toOption.map (fun e => (e.registry.size, (List.range 4).map fun k =>
      (e.tree.evaluate { e.registry with cells := assignment .single 2 k } .single).toOption)) =
      some (2, [some .undefined, some (.value 0), some .undefined, some (.value 1)]) := by
    decide +kernel
  cases h : parse "x/y" with
  | error r =>
    rw [h] at hrows
    cases hrows
  | ok e =>
    rw [h] at hrows
    obtain ⟨hn, hrows⟩ := Prod.mk.inj (Option.some.inj hrows)
    obtain ⟨os, hlen, heval, -, heq⟩ := fingerprint_eq h .single (by rw [hn]; decide) [7, 9]
      (by rw [hn]; rfl) .unlimited rfl
    rw [hn] at hlen heval heq
    have hlen : os.length = 4 := hlen
    have hos : os.map some = [some .undefined, some (.value 0), some .undefined,
        some (.value 1)] := by
      rw [← hrows]
      refine List.ext_getElem (by simp [hlen]) fun k hk _ => ?_
      rw [List.getElem_map, List.getElem_map, List.getElem_range,
        heval k (by simpa using hk)]
      rfl
    obtain rfl : os = [.undefined, .value 0, .undefined, .value 1] :=
      List.map_injective_iff.mpr (Option.some_injective _) hos
    have hline : Outcome.line [.undefined, .value 0, .undefined, .value 1] = "n,0,n,1," := by
      decide +kernel
    have hbytes : (Sink.unlimited.append ("n,0,n,1," ++ "\n").toUTF8).received =
        "n,0,n,1,\n".toUTF8 := by
      decide +kernel
    rw [hline] at heq
    exact ⟨e, _, rfl, heq, rfl, hbytes, rfl⟩

end Expression

end WordExpr
