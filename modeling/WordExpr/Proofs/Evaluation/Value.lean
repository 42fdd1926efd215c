import WordExpr.Proofs.Evaluation.Reading

/-!
# The evaluator and the reference semantics

An arena without a cycle whose nodes are all sound has a value at every width: the one that the
reference semantics gives to the formula it reads as. The evaluation has met a zero divisor exactly
if it had before or if some `/` or `%` has a right operand of value 0 (`Tree.evaluateAt_eq_value`).
-/

namespace WordExpr

/-! ## the rule of a node -/

namespace Node

variable {n : Node} {id : NodeId} {r : Registry} {w : Width} {met : Bool}

theorem eval_leaf {a : Atom} {v : UInt64} (hs : n.symbol = some a.symbol) (ha : r.word? a = some v)
    (left right : Option (Bool → Evaluation)) :
    n.eval id r w left right met = (.ok (n.applyFlags w v), met) := by
  cases a with
  | name text =>
    obtain ⟨x, hx, hv⟩ := Option.bind_eq_some_iff.mp ha
    simp only [Node.eval, hs, Atom.symbol, Registry.cellNamed, hx, Registry.cell, hv, flagged]
  | constant c =>
    cases ha
    simp only [Node.eval, hs, Atom.symbol, flagged]
  | «variable» x =>
    change r.value? x = some v at ha
    simp only [Node.eval, hs, Atom.symbol, Registry.cell, ha, flagged]

theorem eval_group {left : Bool → Evaluation} {v : UInt64} {met' : Bool} (hs : n.symbol = none)
    (hl : left met = (.ok v, met')) (right : Option (Bool → Evaluation)) :
    n.eval id r w (some left) right met = (.ok (n.applyFlags w v), met') := by
  simp only [Node.eval, hs, hl, flagged]

theorem eval_binary {op : Operator} {left right : Bool → Evaluation} {a b : UInt64}
    {met' met'' : Bool} (hs : n.symbol = some (.operator op)) (hl : left met = (.ok a, met'))
    (hr : right met' = (.ok b, met'')) :
    n.eval id r w (some left) (some right) met =
      (.ok (n.applyFlags w (op.apply a b)), met'' || op.fails b) := by
  simp only [Node.eval, hs, hl, hr, flagged]

end Node

/-! ## the value of a reading -/

namespace Tree.Reads

variable {t : Tree} {r : Registry} {id : NodeId} {x : Formula}

theorem evalFrom (h : t.Reads id x) (hreg : x.Registered r) (w : Width) {fuel : Nat}
    (hfuel : x.height ≤ fuel) (met : Bool) :
    ∃ v, t.evalFrom r w fuel id met = (.ok v, met || x.dividesByZero r w.bits) ∧
      v.toNat < 2 ^ w.bits ∧ w.word v = x.value r w.bits := by
  induction h generalizing fuel met with
  | @leaf id a hs hl hr =>
    obtain ⟨v, hv⟩ := hreg
    refine ⟨(t.node id).applyFlags w v, ?_, Node.toNat_applyFlags_lt .., ?_⟩
    · unfold Formula.dividesByZero
      rw [Bool.or_false]
      cases fuel with
      | zero => exact Node.eval_leaf hs hv ..
      | succ fuel => exact Node.eval_leaf hs hv ..
    · rw [Node.word_applyFlags, Formula.value, hv, w.word_eq_ofNat]
      rfl
  | @group id c x hs hl h ih =>
    obtain ⟨fuel, rfl⟩ : ∃ k, fuel = k + 1 := ⟨fuel - 1, by rw [Formula.height] at hfuel; omega⟩
    obtain ⟨v, he, -, hv⟩ := ih hreg (Nat.le_of_succ_le_succ hfuel) met
    refine ⟨(t.node id).applyFlags w v, ?_, Node.toNat_applyFlags_lt .., ?_⟩
    · rw [Tree.evalFrom, hl]
      exact Node.eval_group hs he _
    · rw [Node.word_applyFlags, Formula.value, hv]
  | @binary id c d op x y hs hl hr h h' ih ih' =>
    obtain ⟨fuel, rfl⟩ : ∃ k, fuel = k + 1 := ⟨fuel - 1, by rw [Formula.height] at hfuel; omega⟩
    have hmax : max x.height y.height ≤ fuel := Nat.le_of_succ_le_succ hfuel
    obtain ⟨a, hea, hlta, ha⟩ := ih hreg.1 (Nat.le_trans (Nat.le_max_left ..) hmax) met
    obtain ⟨b, heb, hltb, hb⟩ := ih' hreg.2 (Nat.le_trans (Nat.le_max_right ..) hmax)
      (met || x.dividesByZero r w.bits)
    refine ⟨(t.node id).applyFlags w (op.apply a b), ?_, Node.toNat_applyFlags_lt .., ?_⟩
    · rw [Tree.evalFrom, hl, hr]
      refine (Node.eval_binary hs hea heb).trans ?_
      rw [w.fails_eq op hltb, hb, Formula.dividesByZero]
      simp only [Bool.or_assoc]
    · rw [Node.word_applyFlags, w.word_apply op hlta hltb, Formula.value, ha, hb]

/-- the links that may be followed are enough for every reading -/
theorem evaluateAt (h : t.Reads id x) (hreg : x.Registered r) (w : Width) (met : Bool) :
    ∃ v, t.evaluateAt id r w met = (.ok v, met || x.dividesByZero r w.bits) ∧
      v.toNat < 2 ^ w.bits ∧ w.word v = x.value r w.bits :=
  h.evalFrom hreg w (Nat.le_sub_one_of_lt h.height_lt) met

/-- the whole evaluation comes to the outcome of the formula -/
theorem evaluate (h : t.Reads t.root x) (hreg : x.Registered r) (w : Width) :
    t.evaluate r w = .ok (x.outcome r w) := by
  obtain ⟨v, he, hlt, hv⟩ := h.evaluateAt hreg w false
  rw [Bool.false_or] at he
  unfold Tree.evaluate Formula.outcome
  rw [he]
  cases x.dividesByZero r w.bits with
  | true => rfl
  | false =>
    have hword : UInt64.ofNat (x.value r w.bits).toNat = v := by
      rw [← hv, w.toNat_word_of_lt hlt, UInt64.ofNat_toNat]
    rw [if_neg Bool.false_ne_true, hword]

/-! ## zero divisors below a node -/

/-- below a node there is the node itself and what is below its children -/
theorem reaches_iff {j : NodeId} : t.Reaches id j ↔ id = j ∨ ∃ c, t.Child id c ∧ t.Reaches c j :=
  ⟨fun h => h.cases_head, fun h => by
    rcases h with rfl | ⟨c, hc, hj⟩
    · exact .refl
    · exact .head hc hj⟩

theorem dividesByZero_iff (h : t.Reads id x) (n : Nat) :
    x.dividesByZero r n = true ↔ ∃ j op d y, t.Reaches id j ∧
      (t.node j).symbol = some (.operator op) ∧ op.divides = true ∧
      (t.node j).right = some d ∧ t.Reads d y ∧ y.value r n = 0 := by
  induction h with
  | @leaf id a hs hl hr =>
    refine iff_of_false Bool.false_ne_true ?_
    rintro ⟨j, op, d, y, hj, hop, -⟩
    rcases reaches_iff.mp hj with rfl | ⟨c, hc, -⟩
    · have hatom := a.operator?_symbol
      rw [Option.some.inj (hs.symm.trans hop)] at hatom
      cases hatom
    · rcases hc with hc | ⟨-, hc⟩
      · cases hl.symm.trans hc
      · cases hr.symm.trans hc
  | @group id c x hs hl h ih =>
    unfold Formula.dividesByZero
    rw [ih]
    constructor
    · rintro ⟨j, op, d, y, hj, hrest⟩
      exact ⟨j, op, d, y, .head (child_left hl) hj, hrest⟩
    · rintro ⟨j, op, d, y, hj, hop, hrest⟩
      rcases reaches_iff.mp hj with rfl | ⟨c', hc, hj⟩
      · cases hs.symm.trans hop
      · rcases hc with hc | ⟨hc, -⟩
        · cases hl.symm.trans hc
          exact ⟨j, op, d, y, hj, hop, hrest⟩
        · rw [Node.isGroup, hs] at hc
          cases hc
  | @binary id c d op x y hs hl hr h h' ih ih' =>
    rw [Formula.dividesByZero, Bool.or_eq_true, Bool.or_eq_true, ih, ih', Bool.and_eq_true,
      beq_iff_eq]
    constructor
    · rintro ((⟨j, o, e, z, hj, hrest⟩ | ⟨j, o, e, z, hj, hrest⟩) | ⟨hdiv, hzero⟩)
      · exact ⟨j, o, e, z, .head (child_left hl) hj, hrest⟩
      · exact ⟨j, o, e, z, .head (child_right hs hr) hj, hrest⟩
      · exact ⟨id, op, d, y, .refl, hs, hdiv, hr, h', hzero⟩
    · rintro ⟨j, o, e, z, hj, ho, hdiv, he, hz, hzero⟩
      rcases reaches_iff.mp hj with rfl | ⟨c', hc, hj⟩
      · cases hs.symm.trans ho
        cases hr.symm.trans he
        rw [h'.unique hz]
        exact .inr ⟨hdiv, hzero⟩
      · rcases hc with hc | ⟨-, hc⟩
        · cases hl.symm.trans hc
          exact .inl (.inl ⟨j, o, e, z, hj, ho, hdiv, he, hz, hzero⟩)
        · cases hr.symm.trans hc
          exact .inl (.inr ⟨j, o, e, z, hj, ho, hdiv, he, hz, hzero⟩)

end Tree.Reads

/-! ## every sound arena -/

/-- The evaluator gives the value of the formula modulo `2 ^ bits`, whatever has been met before,
and notes every zero divisor. -/
theorem Tree.evaluateAt_eq_value (t : Tree) (id : NodeId) (r : Registry) (w : Width) (met : Bool)
    (hac : t.Acyclic id) (hs : ∀ j, t.Reaches id j → (t.node j).Sound r) :
    ∃ x v met', t.Reads id x ∧ t.evaluateAt id r w met = (.ok v, met') ∧ v.toNat < 2 ^ w.bits ∧
      v.toNat = (x.value r w.bits).toNat ∧
      (met' = true ↔ met = true ∨ ∃ j op d y, t.Reaches id j ∧
        (t.node j).symbol = some (.operator op) ∧ op.divides = true ∧
        (t.node j).right = some d ∧ t.Reads d y ∧ y.value r w.bits = 0) := by
  obtain ⟨x, hx, hreg⟩ := t.exists_reads hac hs
  obtain ⟨v, he, hlt, hv⟩ := hx.evaluateAt hreg w met
  refine ⟨x, v, _, hx, he, hlt, ?_, ?_⟩
  · rw [← hv, w.toNat_word_of_lt hlt]
  · rw [Bool.or_eq_true, hx.dividesByZero_iff w.bits]

/-- a division by a cell of 256 at 8 bits -/
theorem Tree.evaluateAt_masked_divisor :
    ∃ v, Tree.evaluateAt ⟨#[{ left := some 1, right := some 2, symbol := some (.operator .div) },
        { symbol := some (.constant 7), minus := true }, { symbol := some (.variable 0) }], 0⟩
      0 { cells := [256] } ⟨8, by decide, by decide⟩ false = (.ok v, true) ∧ v.toNat < 2 ^ 8 := by
  generalize ht : (⟨#[{ left := some 1, right := some 2, symbol := some (.operator .div) },
    { symbol := some (.constant 7), minus := true }, { symbol := some (.variable 0) }], 0⟩ :
    Tree) = t
  have h0 : t.node 0 = { left := some 1, right := some 2, symbol := some (.operator .div) } := by
    rw [← ht]
    rfl
  have h1 : t.node 1 = { symbol := some (.constant 7), minus := true } := by
    rw [← ht]
    rfl
  have h2 : t.node 2 = { symbol := some (.variable 0) } := by
    rw [← ht]
    rfl
  have hleaf : ∀ i, i = 1 ∨ i = 2 → ∀ j, ¬ t.Child i j := by
    rintro i (rfl | rfl) j (hj | ⟨-, hj⟩)
    · rw [h1] at hj; cases hj
    · rw [h1] at hj; cases hj
    · rw [h2] at hj; cases hj
    · rw [h2] at hj; cases hj
  have hroot : ∀ j, t.Child 0 j → j = 1 ∨ j = 2 := by
    rintro j (hj | ⟨-, hj⟩)
    · rw [h0] at hj; cases hj; exact .inl rfl
    · rw [h0] at hj; cases hj; exact .inr rfl
  have hreach : ∀ j, t.Reaches 0 j → j = 0 ∨ j = 1 ∨ j = 2 := by
    intro j hj
    rcases Reads.reaches_iff.mp hj with rfl | ⟨c, hc, hj⟩
    · exact .inl rfl
    · rcases Reads.reaches_iff.mp hj with rfl | ⟨d, hd, -⟩
      · exact .inr (hroot c hc)
      · exact absurd hd (hleaf c (hroot c hc) d)
  have hac : t.Acyclic 0 := by
    intro j hj hcycle
    obtain ⟨c, hc, hback⟩ := Relation.TransGen.head'_iff.mp hcycle
    rcases hreach j hj with rfl | hj
    · rcases Reads.reaches_iff.mp hback with rfl | ⟨d, hd, -⟩
      · exact absurd (hroot 0 hc) (by decide)
      · exact hleaf c (hroot c hc) d hd
    · exact hleaf j hj c hc
  have hs : ∀ j, t.Reaches 0 j → (t.node j).Sound { cells := [256] } := by
    intro j hj
    rcases hreach j hj with rfl | rfl | rfl
    · rw [h0]; exact .binary rfl rfl rfl rfl
    · rw [h1]; exact .leaf (a := .constant 7) rfl rfl rfl rfl
    · rw [h2]; exact .leaf (a := .variable 0) rfl rfl rfl rfl
  obtain ⟨x, v, met', hx, he, hlt, -, hmet⟩ :=
    t.evaluateAt_eq_value 0 { cells := [256] } ⟨8, by decide, by decide⟩ false hac hs
  have hread : t.Reads 2 (.leaf (t.node 2).flags (.variable 0)) :=
    .leaf (by rw [h2]; rfl) (by rw [h2]) (by rw [h2])
  have hmet' : met' = true := hmet.mpr (.inr ⟨0, .div, 2, _, .refl, by rw [h0], rfl, by rw [h0],
    hread, by rw [h2]; decide⟩)
  exact ⟨v, hmet' ▸ he, hlt⟩

end WordExpr
