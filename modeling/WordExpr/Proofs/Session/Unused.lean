import WordExpr.Proofs.Session.History

/-!
# Variables that are not used

`Expression.internEach e names` is `e` after its registry has been given some more names. New names
become the last variables (`size_internEach`), whose digits are the fastest ones of an assignment
(`assignment_append`), and no leaf of the tree looks at their cells. So every outcome is repeated
where it is (`Continues.lists_repeated`): `Expression.fingerprint_unused` says what becomes of the
line and of its fingerprint.
-/

namespace WordExpr

/-! ## each element several times -/

section

variable {α : Type} {m : Nat}

theorem length_flatMap_replicate (m : Nat) (xs : List α) :
    (xs.flatMap (List.replicate m)).length = xs.length * m := by
  simp only [List.length_flatMap, List.length_replicate, List.map_const', List.sum_replicate_nat]

theorem count_flatMap_replicate [DecidableEq α] (m : Nat) (xs : List α) (a : α) :
    (xs.flatMap (List.replicate m)).count a = xs.count a * m := by
  induction xs with
  | nil => exact (Nat.zero_mul m).symm
  | cons x xs ih =>
    rw [List.flatMap_cons, List.count_append, List.count_replicate, ih, List.count_cons,
      Nat.add_mul]
    split <;> omega

theorem getElem?_flatMap_replicate (hm : 0 < m) (xs : List α) (j : Nat) :
    (xs.flatMap (List.replicate m))[j]? = xs[j / m]? := by
  induction xs generalizing j with
  | nil => rfl
  | cons x xs ih =>
    rw [List.flatMap_cons, List.getElem?_append, List.length_replicate]
    by_cases hj : j < m
    · rw [if_pos hj, List.getElem?_replicate, if_pos hj, Nat.div_eq_of_lt hj]
      rfl
    · rw [if_neg hj, ih, Nat.div_eq_sub_div hm (Nat.not_lt.mp hj), List.getElem?_cons_succ]

end

/-! ## new names -/

theorem Atom.Within.word?_append {a : Atom} {r r' : Registry} (h : a.Within r.cells.length)
    {cells : List UInt64} (hcells : r'.cells = r.cells ++ cells) : r'.word? a = r.word? a := by
  cases a with
  | constant c => rfl
  | «variable» id =>
    show r'.cells[id]? = r.cells[id]?
    rw [hcells, List.getElem?_append_left h]
  | name text => exact False.elim h

namespace Expression

variable {raw : String} {e e' : Expression}

def internEach (e : Expression) (names : List String) : Expression :=
  e.after (names.map fun name => .onRegistry (.intern name))

theorem size_internEach (hr : e.registry.Reached) {names : List String} (hnd : names.Nodup)
    (hnew : ∀ v ∈ e.registry.vars, v.name ∉ names) :
    (e.internEach names).registry.size = e.registry.size + names.length := by
  induction names generalizing e with
  | nil => rfl
  | cons name names ih =>
    obtain ⟨hname, hnd⟩ := List.nodup_cons.mp hnd
    have hother : ∀ v ∈ e.registry.vars, v.name ≠ name :=
      fun v hv heq => hnew v hv (heq ▸ List.mem_cons_self)
    have hvars : (e.registry.intern name).2.vars =
        e.registry.vars ++ [⟨name, name, 1, e.registry.size⟩] := by rw [hr.intern_other hother]
    -- the other names are new in the next registry, too
    have hnext := ih (e := e.perform (.onRegistry (.intern name))) (hr.intern name) hnd <| by
      intro v hv
      rcases List.mem_append.mp (hvars ▸ hv) with hold | hlast
      · exact fun hmem => hnew v hold (List.mem_cons_of_mem _ hmem)
      · rw [List.mem_singleton.mp hlast]
        exact hname
    have hsize : (e.registry.intern name).2.size = e.registry.size + 1 := by
      rw [Registry.size, hvars, List.length_append]
      rfl
    calc (e.internEach (name :: names)).registry.size
        = (e.registry.intern name).2.size + names.length := hnext
      _ = e.registry.size + (names.length + 1) := by rw [hsize]; omega

/-! ## the same outcome for all their values -/

/-- every outcome comes once for each assignment of the last `m` variables -/
theorem Continues.lists_repeated (hc : e.Continues e') (h : parse raw = .ok e) {m : Nat}
    (hsize : e'.registry.size = e.registry.size + m) {w : Width} {os : List Outcome}
    (hos : e.Lists w os) : e'.Lists w (os.flatMap (List.replicate ((2 ^ w.bits) ^ m))) where
  length := by rw [length_flatMap_replicate, hos.length, hsize, Nat.pow_add]
  evaluate k hk := by
    have hpos : 0 < (2 ^ w.bits) ^ m := Nat.pow_pos (Nat.two_pow_pos _)
    obtain ⟨hlt, hget⟩ := List.getElem?_eq_some_iff.mp
      ((getElem?_flatMap_replicate hpos os k).symm.trans (List.getElem?_eq_getElem hk))
    have hcells : (e'.registry.assign w k).cells =
        (e.registry.assign w (k / (2 ^ w.bits) ^ m)).cells ++ assignment w m k := by
      show assignment w e'.registry.size k = _
      rw [hsize, assignment_append]
      rfl
    have hlen := length_assignment w e.registry.size (k / (2 ^ w.bits) ^ m)
    rw [hc.tree, evaluate_congr_words h (Nat.le_of_eq hlen.symm) (fun a ha =>
      Atom.Within.word?_append (hlen.symm ▸ ha) hcells) w, hos.evaluate _ hlt, hget]

/-- **Unused variables repeat outcomes in place.** After new names have been interned, each item of
the line comes once for every assignment of the new variables, one behind the other. The line is
hashed, even if that of the expression was not for want of variables. -/
theorem fingerprint_unused (h : parse raw = .ok e) {names : List String} (hne : names ≠ [])
    (hnd : names.Nodup) (hnew : ∀ v ∈ e.registry.vars, v.name ∉ names) {w : Width}
    (hw : w.bits * (e.registry.size + names.length) < 64) :
    ∃ (os os' : List Outcome) (p p' : Fingerprint),
      os' = os.flatMap (List.replicate (2 ^ (w.bits * names.length))) ∧
      (e.fingerprint w .unlimited).result = .ok p ∧
      (e.fingerprint w .unlimited).sink.received = (Outcome.line os ++ "\n").toUTF8 ∧
      ((e.internEach names).fingerprint w .unlimited).result = .ok p' ∧
      ((e.internEach names).fingerprint w .unlimited).sink.received =
        (Outcome.line os' ++ "\n").toUTF8 ∧
      p'.combinations = p.combinations * 2 ^ (w.bits * names.length) ∧
      p'.undefined = p.undefined * 2 ^ (w.bits * names.length) ∧
      p'.digest = Md5.digest (Outcome.line os').toUTF8 := by
  obtain ⟨os, hos⟩ := exists_lists h w
  have hc : e.Continues (e.internEach names) := .after h _
  have hsize := size_internEach (Continues.start h).reached hnd hnew
  have hos' := hc.lists_repeated h hsize hos
  rw [← Nat.pow_mul] at hos'
  have hfew : w.bits * e.registry.size < 64 :=
    Nat.lt_of_le_of_lt (Nat.mul_le_mul_left _ (Nat.le_add_right ..)) hw
  obtain ⟨hresult, hline⟩ := hos.fingerprint_eq_ok h hfew
  have htable := hos'.fingerprint_eq_ofOutcomes hc.reached.length_cells (by rwa [hsize]) .unlimited
  have hvars : (e.internEach names).registry.isEmpty = false := by
    rw [Bool.eq_false_iff]
    intro hempty
    have hzero : (e.internEach names).registry.size = 0 :=
      List.isEmpty_iff_length_eq_zero.mp hempty
    have hpos := List.length_pos_iff.mpr hne
    omega
  refine ⟨os, _, _, _, rfl, hresult, hline, by rw [htable]; rfl, ?_,
    length_flatMap_replicate .., count_flatMap_replicate .., ?_⟩
  · rw [htable]
    exact ByteArray.empty_append
  · rw [hvars]
    rfl

/-- a constant, whose line was not hashed -/
theorem fingerprint_unused_constant : ∃ e p, parse "7/0" = .ok e ∧
    (e.fingerprint .single .unlimited).sink.received = "n,\n".toUTF8 ∧
    ((e.internEach ["x", "y"]).fingerprint .single .unlimited).result = .ok p ∧
    ((e.internEach ["x", "y"]).fingerprint .single .unlimited).sink.received =
      "n,n,n,n,\n".toUTF8 ∧ p.digest = Md5.digest "n,n,n,n,".toUTF8 := by
  have hrun : (parse "7/0").toOption.map (fun e => (e.registry.vars,
      (e.fingerprint .single .unlimited).sink.received)) = some ([], "n,\n".toUTF8) := by
    decide +kernel
  obtain ⟨e, he, hfacts⟩ := Option.map_eq_some_iff.mp hrun
  obtain ⟨hvars, hbytes⟩ := Prod.mk.inj hfacts
  have h := eq_ok_of_toOption he
  have hsize : e.registry.size = 0 := congrArg List.length hvars
  have hnew : ∀ v ∈ e.registry.vars, v.name ∉ ["x", "y"] := by
    rw [hvars]
    exact fun v hv => nomatch hv
  obtain ⟨os, _, _, p, rfl, -, hline, hresult, hline', -, -, hdigest⟩ :=
    fingerprint_unused h (List.cons_ne_nil _ _) (by decide) hnew (w := .single)
      (by rw [hsize]; decide)
  -- the line says which outcome it is
  have hitem : Outcome.line os ++ "\n" = Outcome.line [.undefined] ++ "\n" :=
    String.toByteArray_inj.mp (hline.symm.trans hbytes)
  obtain rfl := Outcome.line_injective ((String.append_left_inj _).mp hitem)
  exact ⟨e, p, h, hbytes, hresult, hline', hdigest⟩

/-- the name `x` is new, since the variable that was written so has another one now -/
example : (parse "~x").toOption.map (fun e =>
    ((e.fingerprint .single .unlimited).sink.received,
      ((e.internEach ["x"]).fingerprint .single .unlimited).sink.received)) =
    some ("1,0,\n".toUTF8, "1,1,0,0,\n".toUTF8) := by decide +kernel

end Expression

end WordExpr
