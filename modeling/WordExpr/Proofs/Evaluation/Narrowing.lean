import WordExpr.Proofs.Evaluation.Value

/-!
# Narrower words

Sums, differences, products and the bitwise operators have low bits that depend on the low bits of
their operands only (`Operator.narrows`). So do the flags, and no operator of the kind divides.

* `Formula.Uses P x`          every operator of `x` has `P`;
* `Formula.setWidth_value`    such a formula is worth at `m` bits what it is worth at `n` bits,
                              cut off to `m`;
* `Tree.evaluate_narrowed`    the same of the evaluator and every sound arena without a cycle.

Shifts and divisions are not of the kind: the high bits of an operand come down, or decide.
-/

namespace WordExpr

/-- `+ - * & | ^`: low bits come from low bits -/
def Operator.narrows : Operator → Bool
  | bitOr | bitXor | bitAnd | add | sub | mul => true
  | shiftLeft | shiftRight | div | mod | neg | bitNot => false

section

variable {m n : Nat}

theorem setWidth_sub (hmn : m ≤ n) (l r : BitVec n) :
    (l - r).setWidth m = l.setWidth m - r.setWidth m := by
  rw [BitVec.sub_eq_add_neg, BitVec.setWidth_add _ _ hmn, BitVec.setWidth_neg_of_le hmn,
    ← BitVec.sub_eq_add_neg]

theorem Operator.setWidth_meaning {op : Operator} (hop : op.narrows = true) (hmn : m ≤ n)
    (l r : BitVec n) :
    (op.meaning l r).setWidth m = op.meaning (l.setWidth m) (r.setWidth m) := by
  cases op with
  | bitOr => exact BitVec.setWidth_or
  | bitXor => exact BitVec.setWidth_xor
  | bitAnd => exact BitVec.setWidth_and
  | add => exact BitVec.setWidth_add l r hmn
  | sub => exact setWidth_sub hmn l r
  | mul => exact BitVec.setWidth_mul l r hmn
  | shiftLeft | shiftRight | div | mod | neg | bitNot => cases hop

theorem Operator.divides_of_narrows {op : Operator} (hop : op.narrows = true) :
    op.divides = false := by
  cases op with
  | div | mod => cases hop
  | bitOr | bitXor | bitAnd | shiftLeft | shiftRight | add | sub | mul | neg | bitNot => rfl

theorem Flags.setWidth_act (hmn : m ≤ n) (f : Flags) (v : BitVec n) :
    (f.act v).setWidth m = f.act (v.setWidth m) := by
  have hminus : (if f.minus then -v else v).setWidth m =
      if f.minus then -v.setWidth m else v.setWidth m := by
    rw [apply_ite (BitVec.setWidth m), BitVec.setWidth_neg_of_le hmn]
  show (if f.complement then ~~~_ else _ : BitVec n).setWidth m = if f.complement then ~~~_ else _
  rw [apply_ite (BitVec.setWidth m), BitVec.setWidth_not hmn, hminus]

end

/-! ## formulas -/

namespace Formula

/-- what every operator of a formula has -/
def Uses (P : Operator → Prop) : Formula → Prop
  | leaf _ _ => True
  | group _ x => x.Uses P
  | binary _ op x y => P op ∧ x.Uses P ∧ y.Uses P

variable {r : Registry} {x : Formula}

theorem setWidth_value {m n : Nat} (hmn : m ≤ n) (hx : x.Uses (fun op => op.narrows = true)) :
    (x.value r n).setWidth m = x.value r m := by
  induction x with
  | leaf f a =>
    show (f.act _).setWidth m = f.act _
    rw [Flags.setWidth_act hmn, BitVec.setWidth_ofNat_of_le hmn]
  | group f x ih =>
    show (f.act _).setWidth m = f.act _
    rw [Flags.setWidth_act hmn, ih hx]
  | binary f op x y ihx ihy =>
    obtain ⟨hop, hx, hy⟩ := hx
    show (f.act _).setWidth m = f.act _
    rw [Flags.setWidth_act hmn, op.setWidth_meaning hop hmn, ihx hx, ihy hy]

theorem dividesByZero_eq_false (hx : x.Uses (fun op => op.narrows = true)) (n : Nat) :
    x.dividesByZero r n = false := by
  induction x with
  | leaf f a => rfl
  | group f x ih => exact ih hx
  | binary f op x y ihx ihy =>
    obtain ⟨hop, hx, hy⟩ := hx
    show (x.dividesByZero r n || y.dividesByZero r n || (op.divides && _)) = false
    rw [ihx hx, ihy hy, op.divides_of_narrows hop]
    rfl

/-- where nothing is divided there is a value -/
theorem exists_outcome (hx : x.Uses (fun op => op.narrows = true)) (w : Width) :
    ∃ v, x.outcome r w = .value v ∧ v.toNat = (x.value r w.bits).toNat := by
  refine ⟨_, if_neg (by rw [dividesByZero_eq_false hx]; exact Bool.false_ne_true), ?_⟩
  exact UInt64.toNat_ofNat_of_lt' (Nat.lt_trans (x.value r w.bits).isLt w.two_pow_bits_lt)

end Formula

/-! ## arenas -/

namespace Tree

variable {t : Tree} {r : Registry} {w w' : Width}

theorem Reads.uses {id : NodeId} {x : Formula} {P : Operator → Prop} (h : t.Reads id x)
    (hP : ∀ j op, t.Reaches id j → (t.node j).symbol = some (.operator op) → P op) :
    x.Uses P := by
  induction h with
  | leaf hs hl hr => trivial
  | group hs hl h ih => exact ih (fun j op hj => hP j op (.head (child_left hl) hj))
  | @binary id c d op x y hs hl hr h h' ih ih' =>
    refine ⟨hP id op .refl hs, ?_, ?_⟩
    · exact ih (fun j op hj => hP j op (.head (child_left hl) hj))
    · exact ih' (fun j op hj => hP j op (.head (child_right hs hr) hj))

/-- **Narrower words see the low bits.** A sound arena without a cycle whose operators are all among
`+ - * & | ^` has a value at every width, whatever is in the cells, and its value at a narrower
width is the remainder of that at a wider one. -/
theorem evaluate_narrowed (hle : w'.bits ≤ w.bits) (hac : t.Acyclic t.root)
    (hs : ∀ j, t.Reaches t.root j → (t.node j).Sound r)
    (hops : ∀ j op, t.Reaches t.root j → (t.node j).symbol = some (.operator op) →
      op.narrows = true) :
    ∃ v v', t.evaluate r w = .ok (.value v) ∧ t.evaluate r w' = .ok (.value v') ∧
      v'.toNat = v.toNat % 2 ^ w'.bits := by
  obtain ⟨x, hx, hreg⟩ := t.exists_reads hac hs
  have huses : x.Uses (fun op => op.narrows = true) := hx.uses hops
  obtain ⟨v, hv, hval⟩ := Formula.exists_outcome (r := r) huses w
  obtain ⟨v', hv', hval'⟩ := Formula.exists_outcome (r := r) huses w'
  refine ⟨v, v', ?_, ?_, ?_⟩
  · rw [hx.evaluate hreg w, hv]
  · rw [hx.evaluate hreg w', hv']
  · rw [hval', hval, ← Formula.setWidth_value hle huses, BitVec.toNat_setWidth]

/-- the complement of a product with a name under a minus sign, at 12 bits and at 5 -/
theorem evaluate_narrowed_flagged :
    ∃ (t : Tree) (r : Registry), t = ⟨#[{ left := some 1, complement := true },
        { left := some 2, right := some 3, symbol := some (.operator .mul) },
        { symbol := some (.constant 1000003) },
        { left := some 4, right := some 5, symbol := some (.operator .sub), minus := true },
        { symbol := some (.term "x"), minus := true }, { symbol := some (.variable 1) }], 0⟩ ∧
      r = { ((({} : Registry).intern "x").2.intern "y").2 with cells := [5000, 0x1000000004d] } ∧
      ∃ v v' : UInt64, t.evaluate r ⟨12, by decide, by decide⟩ = .ok (.value v) ∧
        t.evaluate r ⟨5, by decide, by decide⟩ = .ok (.value v') ∧ v'.toNat = v.toNat % 32 := by
  refine ⟨_, _, rfl, rfl, ?_⟩
  generalize ht : (⟨#[_, _, _, _, _, _], 0⟩ : Tree) = t
  have hd : t.Descends := by
    subst ht
    decide
  have hsize : t.size = 6 := by
    subst ht
    rfl
  have hlt (j : NodeId) (hj : t.Reaches t.root j) : j < 6 :=
    hsize ▸ hd.lt_size (by rw [hsize, ← ht]; decide) hj
  have hle : (⟨5, by decide, by decide⟩ : Width).bits ≤
      (⟨12, by decide, by decide⟩ : Width).bits := by decide
  apply evaluate_narrowed hle
  · exact hd.acyclic t.root
  · intro j hj
    have hj := hlt j hj
    subst ht
    match j, hj with
    | 0, _ => exact .group rfl rfl
    | 1, _ => exact .binary rfl rfl rfl rfl
    | 2, _ => exact .leaf (a := .constant 1000003) rfl rfl rfl rfl
    | 3, _ => exact .binary rfl rfl rfl rfl
    | 4, _ => exact .leaf (a := .name "x") rfl rfl rfl rfl
    | 5, _ => exact .leaf (a := .variable 1) rfl rfl rfl rfl
  · intro j op hj hop
    have hj := hlt j hj
    subst ht
    match j, hj with
    | 1, _ | 3, _ =>
      cases hop
      rfl
    | 0, _ | 2, _ | 4, _ | 5, _ => cases hop

end Tree

end WordExpr
