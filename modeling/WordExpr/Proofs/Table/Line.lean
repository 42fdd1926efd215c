import WordExpr.Proofs.Evaluation.Residues
import WordExpr.Proofs.Spelling.Words
import WordExpr.Proofs.Table.Enumeration

/-!
# What a line tells

No item has a comma but the one at its end, and different outcomes have different texts, so that a
line can be taken apart again (`Outcome.line_injective`). The outcomes in the order of the
assignments (`Expression.Lists`) are `2 ^ (bits * n)` many for `n` variables: their number tells the
number of variables, and their order depends on nothing else.

`Expression.line_eq_iff`: two accepted expressions have the same line exactly if they have as many
variables and the same outcome for all values of them.
-/

namespace WordExpr

open Text

/-! ## items one after the other -/

/-- what stands in front of the first comma, and what behind it -/
theorem append_cons_inj {α : Type} {a : α} {xs xs' ys ys' : List α} (h : a ∉ xs) (h' : a ∉ xs')
    (heq : xs ++ a :: ys = xs' ++ a :: ys') : xs = xs' ∧ ys = ys' := by
  induction xs generalizing xs' with
  | nil =>
    cases xs' with
    | nil => exact ⟨rfl, (List.cons.inj heq).2⟩
    | cons x' xs' => exact absurd (List.mem_cons.mpr (.inl (List.cons.inj heq).1)) h'
  | cons x xs ih =>
    cases xs' with
    | nil => exact absurd (List.mem_cons.mpr (.inl (List.cons.inj heq).1.symm)) h
    | cons x' xs' =>
      obtain ⟨rfl, htail⟩ := List.cons.inj heq
      obtain ⟨rfl, hys⟩ := ih (fun hx => h (List.mem_cons_of_mem _ hx))
        (fun hx => h' (List.mem_cons_of_mem _ hx)) htail
      exact ⟨rfl, hys⟩

namespace Outcome

theorem toList_item (o : Outcome) : o.item.toList = o.text.toList ++ [','] := by
  rw [item, String.toList_append]
  rfl

theorem comma_notMem_text (o : Outcome) : ',' ∉ o.text.toList := by
  cases o with
  | value v =>
    intro h
    rw [text, toList_decimalText] at h
    exact absurd (isDigit_of_mem_decimal h) (by decide)
  | undefined => decide

theorem text_injective : Function.Injective text := by
  have hletter (v : UInt64) : (value v).text.toList ≠ undefined.text.toList := by
    intro h
    rw [text, toList_decimalText] at h
    have hmem : 'n' ∈ decimal v.toNat := h ▸ List.mem_singleton_self 'n'
    exact absurd (isDigit_of_mem_decimal hmem) (by decide)
  intro o o' h
  have hlist : o.text.toList = o'.text.toList := congrArg String.toList h
  cases o with
  | value v =>
    cases o' with
    | value v' =>
      rw [text, text, toList_decimalText, toList_decimalText] at hlist
      rw [UInt64.toNat_inj.mp (decimal_injective hlist)]
    | undefined => exact absurd hlist (hletter v)
  | undefined =>
    cases o' with
    | value v' => exact absurd hlist.symm (hletter v')
    | undefined => rfl

theorem toList_line_cons (o : Outcome) (os : List Outcome) :
    (line (o :: os)).toList = o.text.toList ++ ',' :: (line os).toList := by
  rw [line, String.toList_append, toList_item, List.append_assoc]
  rfl

theorem line_ne_line_nil (o : Outcome) (os : List Outcome) : line (o :: os) ≠ line [] := by
  intro h
  have hlist := congrArg String.toList h
  rw [toList_line_cons] at hlist
  exact List.append_ne_nil_of_right_ne_nil _ (List.cons_ne_nil _ _) hlist

/-- a line is cut at its commas in one way only -/
theorem line_injective : Function.Injective line := by
  intro os os' h
  induction os generalizing os' with
  | nil =>
    cases os' with
    | nil => rfl
    | cons o' os' => exact absurd h.symm (line_ne_line_nil o' os')
  | cons o os ih =>
    cases os' with
    | nil => exact absurd h (line_ne_line_nil o os)
    | cons o' os' =>
      have hlist := congrArg String.toList h
      rw [toList_line_cons, toList_line_cons] at hlist
      obtain ⟨htext, hrest⟩ :=
        append_cons_inj o.comma_notMem_text o'.comma_notMem_text hlist
      rw [text_injective (String.toList_inj.mp htext), ih (String.toList_inj.mp hrest)]

end Outcome

/-! ## the table of any tree -/

theorem Registry.reset_eq_assign {r : Registry} (h : r.cells.length = r.size) (w : Width) :
    r.reset = r.assign w 0 := by
  rw [reset, List.map_const', h, assign, assignment_zero]

theorem tabulate_eq_tooMany {w : Width} {r : Registry} (hw : 64 ≤ w.bits * r.size) (t : Tree)
    (s : Sink) : tabulate t r w s = ⟨.error (.tooManyCombinations w.bits r.size), r, s⟩ := by
  unfold tabulate
  rw [combinations_eq_error w hw]

/-- an enumeration that is not too large starts with the first assignment, whatever the cells are -/
theorem tabulate_eq_rows {t : Tree} {r : Registry} {w : Width} (hcells : r.cells.length = r.size)
    (hw : w.bits * r.size < 64) (s : Sink) : tabulate t r w s =
      if r.isEmpty then Tabulation.constant t w (r.assign w 0) s
      else Tabulation.rowsFrom t w ((2 ^ w.bits) ^ r.size) {} (r.assign w 0) s := by
  unfold tabulate
  rw [combinations_eq w hw]
  simp only [r.reset_eq_assign hcells w]
  rfl

/-- the outcomes of all assignments, into a sink that takes the whole line -/
theorem tabulate_of_fits {t : Tree} {r : Registry} {w : Width} {os : List Outcome}
    (hcells : r.cells.length = r.size) (hw : w.bits * r.size < 64)
    (hlen : os.length = (2 ^ w.bits) ^ r.size)
    (heval : ∀ (k : Nat) (hk : k < os.length), t.evaluate (r.assign w k) w = .ok os[k])
    {s : Sink} (hs : s.Fits (Outcome.line os ++ "\n").toUTF8.size) : tabulate t r w s =
      ⟨.ok ⟨Md5.digest (if r.isEmpty then .empty else (Outcome.line os).toUTF8), os.length,
        os.count .undefined⟩, r.assign w 0, s.append (Outcome.line os ++ "\n").toUTF8⟩ := by
  have hend (s : Sink) : (s.append (Outcome.line os).toUTF8).append "\n".toUTF8 =
      s.append (Outcome.line os ++ "\n").toUTF8 := Sink.append_append ..
  have hsum : s.Fits ((Outcome.line os).toUTF8.size + "\n".toUTF8.size) := by
    rw [← ByteArray.size_append]
    exact hs
  have hline : s.Fits (Outcome.line os).toUTF8.size := hsum.mono (Nat.le_add_right ..)
  rw [tabulate_eq_rows hcells hw]
  cases hn : r.isEmpty with
  | true =>
    have hsize : r.size = 0 := List.isEmpty_iff_length_eq_zero.mp hn
    rw [hsize, Nat.pow_zero] at hlen
    obtain ⟨o, rfl⟩ := List.length_eq_one_iff.mp hlen
    have ho : t.evaluate (r.assign w 0) w = .ok o := heval 0 Nat.one_pos
    have hitem : Outcome.line [o] = o.item := String.append_empty
    rw [hitem] at hline hsum
    rw [if_pos rfl, if_pos rfl, Tabulation.constant_of_fits ho hline,
      Tabulation.finishLine_of_fits hsum.append, Collector.finish_count, ← hitem, hend]
  | false =>
    have hos : os ≠ [] := by
      rintro rfl
      exact Nat.ne_of_lt (Nat.pow_pos (Nat.two_pow_pos _)) hlen
    have hrun := Tabulation.rowsFrom_of_fits (k := 0) hos (by rw [Nat.zero_add, hlen])
      (fun i hi => by rw [Nat.zero_add]; exact heval i hi) (Nat.le_of_eq hlen) {} hline
    rw [if_neg Bool.false_ne_true, if_neg Bool.false_ne_true, hrun,
      Tabulation.finishLine_of_fits hsum.append, Collector.finish_addAll, hend]

namespace Expression

/-- with other cells -/
def withCells (e : Expression) (cells : List UInt64) : Expression :=
  { e with registry := { e.registry with cells } }

/-- `os` are the outcomes of an expression in the order of the assignments -/
structure Lists (e : Expression) (w : Width) (os : List Outcome) : Prop where
  length : os.length = (2 ^ w.bits) ^ e.registry.size
  evaluate : ∀ (k : Nat) (hk : k < os.length),
    e.tree.evaluate (e.registry.assign w k) w = .ok os[k]

variable {raw raw' : String} {e e' : Expression} {w : Width}

theorem exists_lists (h : parse raw = .ok e) (w : Width) : ∃ os, e.Lists w os := by
  obtain ⟨os, hlen, heval⟩ := exists_outcomes (n := (2 ^ w.bits) ^ e.registry.size)
    (fun k _ => exists_evaluate h (r := e.registry.assign w k) (length_assignment w _ k) w)
  exact ⟨os, hlen, heval⟩

theorem fingerprint_eq_tooMany (hw : 64 ≤ w.bits * e.registry.size) (s : Sink) :
    e.fingerprint w s =
      ⟨.error (.tooManyCombinations w.bits e.registry.size), e.registry, s⟩ :=
  tabulate_eq_tooMany hw e.tree s

/-- the assignments of an expression that is enumerated fit 64 bits -/
theorem bits_mul_size_lt {s : Sink} {p : Fingerprint} (hp : (e.fingerprint w s).result = .ok p) :
    w.bits * e.registry.size < 64 := by
  by_contra hlt
  rw [fingerprint_eq_tooMany (Nat.not_lt.mp hlt)] at hp
  cases hp

theorem Lists.fingerprint_eq_ok {os : List Outcome} (hos : e.Lists w os) (h : parse raw = .ok e)
    (hw : w.bits * e.registry.size < 64) :
    (e.fingerprint w .unlimited).result = .ok ⟨Md5.digest (if e.isConstant then .empty else
        (Outcome.line os).toUTF8), os.length, os.count .undefined⟩ ∧
      (e.fingerprint w .unlimited).sink.received = (Outcome.line os ++ "\n").toUTF8 := by
  have htab := tabulate_of_fits (length_cells h) hw hos.length hos.evaluate
    (Sink.fits_of_room (s := .unlimited) rfl _)
  unfold fingerprint
  rw [htab]
  exact ⟨rfl, ByteArray.empty_append⟩

/-! ## values and assignments -/

/-- an outcome depends on the values modulo `2 ^ bits` -/
theorem evaluate_withCells_reduce (h : parse raw = .ok e) {cells : List UInt64}
    (hcells : cells.length = e.registry.size) (w : Width) :
    ∃ o, (e.withCells cells).evaluate w = .ok o ∧
      (e.withCells (cells.map w.reduce)).evaluate w = .ok o := by
  obtain ⟨x, hx, hreg⟩ := exists_reads h
  have hreg' : x.Registered { e.registry with cells := cells.map w.reduce } :=
    hreg _ (by rw [List.length_map, hcells])
  have hres := hreg'.imp (fun a _ => e.registry.residue_reduce w cells a)
  obtain ⟨o, ho, ho'⟩ := hx.evaluate_relabel (g := id) (w := w) (x.relabel_id.symm ▸ hx)
    (hreg { e.registry with cells } hcells) (x.relabel_id.symm ▸ hreg') hres
  exact ⟨o, congrArg _ ho, congrArg _ ho'⟩

/-- all values are those of an assignment, up to multiples of `2 ^ bits` -/
theorem exists_assignment (w : Width) (cells : List UInt64) :
    ∃ k < (2 ^ w.bits) ^ cells.length, assignment w cells.length k = cells.map w.reduce := by
  have hlt : ∀ d ∈ cells.map w.reduce, d.toNat < 2 ^ w.bits := by
    intro d hd
    obtain ⟨c, -, rfl⟩ := List.mem_map.mp hd
    exact w.toNat_reduce_lt c
  obtain ⟨k, hk, -⟩ := existsUnique_assignment w hlt
  rw [List.length_map] at hk
  exact ⟨k, hk⟩

namespace Lists

variable {os os' : List Outcome}

theorem evaluate_assignment (hos : e.Lists w os) (k : Nat) (hk : k < os.length) :
    (e.withCells (assignment w e.registry.size k)).evaluate w = .ok os[k] :=
  congrArg _ (hos.evaluate k hk)

theorem evaluate_withCells (hos : e.Lists w os) (h : parse raw = .ok e) {cells : List UInt64}
    (hcells : cells.length = e.registry.size) {k : Nat} (hk : k < os.length)
    (hassign : assignment w e.registry.size k = cells.map w.reduce) :
    (e.withCells cells).evaluate w = .ok os[k] := by
  obtain ⟨o, ho, ho'⟩ := evaluate_withCells_reduce h hcells w
  rw [← hassign, hos.evaluate_assignment k hk] at ho'
  rw [ho, ho']

/-- the number of outcomes tells the number of variables -/
theorem size_eq (hos : e.Lists w os) (hos' : e'.Lists w os) :
    e.registry.size = e'.registry.size := by
  have hradix : 2 ≤ 2 ^ w.bits := Nat.le_self_pow (Nat.ne_of_gt w.pos) 2
  exact Nat.pow_right_injective hradix (hos.length.symm.trans hos'.length)

theorem eq_iff (hos : e.Lists w os) (hos' : e'.Lists w os') (h : parse raw = .ok e)
    (h' : parse raw' = .ok e') :
    os = os' ↔ e.registry.size = e'.registry.size ∧
      ∀ cells : List UInt64, cells.length = e.registry.size →
        ∃ o, (e.withCells cells).evaluate w = .ok o ∧ (e'.withCells cells).evaluate w = .ok o := by
  constructor
  · rintro rfl
    have hsize := hos.size_eq hos'
    refine ⟨hsize, fun cells hcells => ?_⟩
    obtain ⟨k, hk, hassign⟩ := exists_assignment w cells
    rw [hcells] at hk hassign
    have hlt : k < os.length := hos.length ▸ hk
    refine ⟨os[k], hos.evaluate_withCells h hcells hlt hassign, ?_⟩
    exact hos'.evaluate_withCells h' (hcells.trans hsize) hlt (hsize ▸ hassign)
  · rintro ⟨hsize, hall⟩
    have hlen : os.length = os'.length := by rw [hos.length, hos'.length, hsize]
    refine List.ext_getElem hlen (fun k hk hk' => ?_)
    obtain ⟨o, ho, ho'⟩ := hall (assignment w e.registry.size k) (length_assignment w _ k)
    rw [hos.evaluate_assignment k hk] at ho
    rw [hsize, hos'.evaluate_assignment k hk'] at ho'
    exact (Except.ok.inj ho).trans (Except.ok.inj ho').symm

end Lists

/-! ## equal lines -/

/-- **A line is all that can be seen of an expression.** Two accepted expressions whose tables are
complete have the same line exactly if they have as many variables and, whatever the values of
these are, the same outcome. The same line has the same fingerprint. The digest of a constant
expression is that of no bytes. -/
theorem line_eq_iff (h : parse raw = .ok e) (h' : parse raw' = .ok e') {p p' : Fingerprint}
    (hp : (e.fingerprint w .unlimited).result = .ok p)
    (hp' : (e'.fingerprint w .unlimited).result = .ok p') :
    ((e.fingerprint w .unlimited).sink.received = (e'.fingerprint w .unlimited).sink.received ↔
      e.registry.size = e'.registry.size ∧
        ∀ cells : List UInt64, cells.length = e.registry.size →
          ∃ o, (e.withCells cells).evaluate w = .ok o ∧
            (e'.withCells cells).evaluate w = .ok o) ∧
    ((e.fingerprint w .unlimited).sink.received = (e'.fingerprint w .unlimited).sink.received →
      p = p') ∧
    (e.isConstant = true → ∀ w' : Width, ∃ q, (e.fingerprint w' .unlimited).result = .ok q ∧
      q.digest = Md5.digest .empty) := by
  obtain ⟨os, hos⟩ := exists_lists h w
  obtain ⟨os', hos'⟩ := exists_lists h' w
  obtain ⟨hres, hline⟩ := hos.fingerprint_eq_ok h (bits_mul_size_lt hp)
  obtain ⟨hres', hline'⟩ := hos'.fingerprint_eq_ok h' (bits_mul_size_lt hp')
  have hlines : (e.fingerprint w .unlimited).sink.received =
      (e'.fingerprint w .unlimited).sink.received ↔ os = os' := by
    rw [hline, hline']
    constructor
    · intro hbytes
      have htext := String.toByteArray_inj.mp hbytes
      exact Outcome.line_injective ((String.append_left_inj _).mp htext)
    · rintro rfl
      rfl
  refine ⟨hlines.trans (hos.eq_iff hos' h h'), fun heq => ?_, fun hconst w' => ?_⟩
  · obtain rfl := hlines.mp heq
    have hconst : e.isConstant = e'.isConstant := by
      rw [Bool.eq_iff_iff]
      unfold isConstant Registry.isEmpty
      rw [List.isEmpty_iff_length_eq_zero, List.isEmpty_iff_length_eq_zero]
      exact iff_of_eq (congrArg (· = 0) (hos.size_eq hos'))
    rw [hp, hconst, ← hres', hp'] at hres
    exact Except.ok.inj hres
  · obtain ⟨os, hos⟩ := exists_lists h w'
    have hsize : e.registry.size = 0 := List.isEmpty_iff_length_eq_zero.mp hconst
    obtain ⟨hres, -⟩ := hos.fingerprint_eq_ok h (by rw [hsize, Nat.mul_zero]; decide)
    exact ⟨_, hres, by rw [hconst]; rfl⟩

/-- on one bit, differences are exclusive disjunctions -/
theorem line_eq_iff_single : ∃ e e', parse "x - y" = .ok e ∧ parse "p^q" = .ok e' ∧
    (∃ p, (e.fingerprint .single .unlimited).result = .ok p ∧
      (e'.fingerprint .single .unlimited).result = .ok p) ∧
    ∀ a b : UInt64, ∃ o, (e.withCells [a, b]).evaluate .single = .ok o ∧
      (e'.withCells [a, b]).evaluate .single = .ok o := by
  have hrun (raw : String) (hraw : raw = "x - y" ∨ raw = "p^q") :
      (parse raw).toOption.map (fun e => ((e.fingerprint .single .unlimited).result.isOk,
        (e.fingerprint .single .unlimited).sink.received, e.registry.size)) =
      some (true, "0,1,1,0,\n".toUTF8, 2) := by
    rcases hraw with rfl | rfl
    · decide +kernel
    · decide +kernel
  have htable (raw : String) (hraw : raw = "x - y" ∨ raw = "p^q") : ∃ e p, parse raw = .ok e ∧
      (e.fingerprint .single .unlimited).result = .ok p ∧
      (e.fingerprint .single .unlimited).sink.received = "0,1,1,0,\n".toUTF8 ∧
      e.registry.size = 2 := by
    obtain ⟨e, he, hfacts⟩ := Option.map_eq_some_iff.mp (hrun raw hraw)
    obtain ⟨hok, hfacts⟩ := Prod.mk.inj hfacts
    obtain ⟨hline, hsize⟩ := Prod.mk.inj hfacts
    cases hp : (e.fingerprint .single .unlimited).result with
    | error r =>
      rw [hp] at hok
      cases hok
    | ok p => exact ⟨e, p, eq_ok_of_toOption he, hp, hline, hsize⟩
  obtain ⟨e, p, he, hp, hline, hsize⟩ := htable "x - y" (.inl rfl)
  obtain ⟨e', p', he', hp', hline', -⟩ := htable "p^q" (.inr rfl)
  obtain ⟨hiff, heq, -⟩ := line_eq_iff he he' hp hp'
  obtain rfl := heq (hline.trans hline'.symm)
  obtain ⟨-, hall⟩ := hiff.mp (hline.trans hline'.symm)
  exact ⟨e, e', he, he', ⟨p, hp, hp'⟩, fun a b => hall [a, b] hsize.symm⟩

end Expression

end WordExpr
