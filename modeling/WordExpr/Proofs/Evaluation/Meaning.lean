import WordExpr.Evaluation
import WordExpr.Proofs.Formula
import WordExpr.Proofs.Width

/-!
# What a formula means

The reference semantics: a formula is worth an integer modulo `2 ^ bits`, a `BitVec bits`, under the
words of a registry.

* `Operator.meaning`    the ten binary operators: sums, differences and products modulo `2 ^ bits`,
                        bitwise operators, `l * 2 ^ r` and `l / 2 ^ r` for the shifts, and unsigned
                        division with the value 0 on a zero divisor;
* `Flags.act`           negation first, then complement;
* `Formula.value`       the value of a formula;
* `Formula.dividesByZero`   whether some division in it has a right operand of value 0;
* `Formula.outcome`         the value, unless a division by zero makes it undefined.

The rest of the module compares this with the words that the evaluator computes with: `Width.word`
takes a 64-bit word to its residue, and masking (`Width.word_reduce`), the flags of a node
(`Node.word_applyFlags`) and every operator (`Width.word_apply`) go along with it.
-/

namespace WordExpr

/-! ## the reference semantics -/

/-- The unary operators do not stand between operands; on a right one they mean what they say. -/
def Operator.meaning {n : Nat} (op : Operator) (l r : BitVec n) : BitVec n :=
  match op with
  | bitOr => l ||| r
  | bitXor => l ^^^ r
  | bitAnd => l &&& r
  | shiftLeft => .ofNat n (l.toNat * 2 ^ r.toNat)
  | shiftRight => .ofNat n (l.toNat / 2 ^ r.toNat)
  | add => l + r
  | sub => l - r
  | mul => l * r
  | div => .ofNat n (if r = 0 then 0 else l.toNat / r.toNat)
  | mod => .ofNat n (if r = 0 then 0 else l.toNat % r.toNat)
  | neg => -r
  | bitNot => ~~~r

/-- an operator that needs a divisor -/
def Operator.divides (op : Operator) : Bool := op = div || op = mod

def Flags.act {n : Nat} (f : Flags) (v : BitVec n) : BitVec n :=
  let v := if f.minus then -v else v
  if f.complement then ~~~v else v

/-- the word of an atom, if the registry has one for it -/
def Registry.word? (r : Registry) : Atom → Option UInt64
  | .constant v => some v
  | .variable id => r.value? id
  | .name text => (r.lookup text).bind r.value?

namespace Formula

def Registered (r : Registry) : Formula → Prop := Every (fun a => ∃ v, r.word? a = some v)

def value (r : Registry) (n : Nat) : Formula → BitVec n
  | leaf f a => f.act (.ofNat n ((r.word? a).getD 0).toNat)
  | group f x => f.act (x.value r n)
  | binary f op x y => f.act (op.meaning (x.value r n) (y.value r n))

def dividesByZero (r : Registry) (n : Nat) : Formula → Bool
  | leaf _ _ => false
  | group _ x => x.dividesByZero r n
  | binary _ op x y =>
    x.dividesByZero r n || y.dividesByZero r n || (op.divides && y.value r n == 0)

def outcome (r : Registry) (w : Width) (x : Formula) : Outcome :=
  if x.dividesByZero r w.bits then .undefined
  else .value (UInt64.ofNat (x.value r w.bits).toNat)

end Formula

/-! ## words and residues -/

namespace Width

variable (w : Width)

def word (v : UInt64) : BitVec w.bits := v.toBitVec.setWidth w.bits

theorem toNat_word (v : UInt64) : (w.word v).toNat = v.toNat % 2 ^ w.bits :=
  BitVec.toNat_setWidth ..

theorem word_eq_ofNat (v : UInt64) : w.word v = .ofNat w.bits v.toNat :=
  BitVec.eq_of_toNat_eq (by rw [toNat_word, BitVec.toNat_ofNat])

theorem word_reduce (v : UInt64) : w.word (w.reduce v) = w.word v :=
  BitVec.eq_of_toNat_eq (by rw [toNat_word, toNat_word, toNat_reduce, Nat.mod_mod])

/-- a word that fits the width is its own residue -/
theorem toNat_word_of_lt {v : UInt64} (hv : v.toNat < 2 ^ w.bits) : (w.word v).toNat = v.toNat := by
  rw [toNat_word, Nat.mod_eq_of_lt hv]

theorem two_pow_bits_dvd {k : Nat} (hk : 64 ≤ k) : 2 ^ w.bits ∣ 2 ^ k :=
  Nat.pow_dvd_pow 2 (Nat.le_trans (Nat.le_of_lt w.bits_lt) hk)

theorem mod_mod_two_pow_bits (a : Nat) : a % 2 ^ 64 % 2 ^ w.bits = a % 2 ^ w.bits :=
  Nat.mod_mod_of_dvd a (w.two_pow_bits_dvd (Nat.le_refl 64))

/-! ## operators on residues -/

theorem word_add (a b : UInt64) : w.word (a + b) = w.word a + w.word b := by
  refine BitVec.eq_of_toNat_eq ?_
  rw [toNat_word, UInt64.toNat_add, mod_mod_two_pow_bits, BitVec.toNat_add, toNat_word, toNat_word,
    ← Nat.add_mod]

theorem word_mul (a b : UInt64) : w.word (a * b) = w.word a * w.word b := by
  refine BitVec.eq_of_toNat_eq ?_
  rw [toNat_word, UInt64.toNat_mul, mod_mod_two_pow_bits, BitVec.toNat_mul, toNat_word, toNat_word,
    ← Nat.mul_mod]

theorem word_sub (a b : UInt64) : w.word (a - b) = w.word a - w.word b := by
  have h : w.word (a - b) + w.word b = w.word a := by
    rw [← word_add, UInt64.sub_add_cancel]
  rw [← h, BitVec.add_sub_cancel]

theorem word_zero : w.word 0 = 0 := by
  refine BitVec.eq_of_toNat_eq ?_
  rw [toNat_word]
  exact Nat.zero_mod _

theorem word_neg (a : UInt64) : w.word (-a) = -w.word a := by
  rw [← UInt64.zero_sub, word_sub, word_zero]
  exact BitVec.zero_sub _

theorem word_complement (a : UInt64) : w.word (~~~a) = ~~~w.word a :=
  BitVec.setWidth_not (Nat.le_of_lt w.bits_lt)

theorem word_shiftLeft {a b : UInt64} (hb : b.toNat < 2 ^ w.bits) :
    w.word (Operator.apply .shiftLeft a b) = Operator.meaning .shiftLeft (w.word a) (w.word b) := by
  refine BitVec.eq_of_toNat_eq ?_
  have hm : (Operator.meaning .shiftLeft (w.word a) (w.word b)).toNat =
      a.toNat * 2 ^ b.toNat % 2 ^ w.bits := by
    unfold Operator.meaning
    rw [BitVec.toNat_ofNat, toNat_word_of_lt w hb, toNat_word, Nat.mod_mul_mod]
  rw [hm, toNat_word, Operator.apply]
  by_cases h : b < 64
  · have h64 : b.toNat < 64 := h
    rw [if_pos h, UInt64.toNat_shiftLeft, Nat.mod_eq_of_lt h64, Nat.shiftLeft_eq,
      mod_mod_two_pow_bits]
  · -- every bit is shifted out
    have h64 : 64 ≤ b.toNat := Nat.le_of_not_lt h
    rw [if_neg h, Nat.mod_eq_zero_of_dvd (Nat.dvd_mul_left_of_dvd (w.two_pow_bits_dvd h64) a.toNat)]
    rfl

theorem word_shiftRight {a b : UInt64} (ha : a.toNat < 2 ^ w.bits) (hb : b.toNat < 2 ^ w.bits) :
    w.word (Operator.apply .shiftRight a b) =
      Operator.meaning .shiftRight (w.word a) (w.word b) := by
  refine BitVec.eq_of_toNat_eq ?_
  rw [Operator.meaning, BitVec.toNat_ofNat, toNat_word_of_lt w ha, toNat_word_of_lt w hb,
    toNat_word, Operator.apply]
  by_cases h : b < 64
  · have h64 : b.toNat < 64 := h
    rw [if_pos h, UInt64.toNat_shiftRight, Nat.mod_eq_of_lt h64, Nat.shiftRight_eq_div_pow]
  · have h64 : 64 ≤ b.toNat := Nat.le_of_not_lt h
    have hlt : a.toNat < 2 ^ b.toNat :=
      Nat.lt_of_lt_of_le a.toNat_lt (Nat.pow_le_pow_right (by decide) h64)
    rw [if_neg h, Nat.div_eq_of_lt hlt]
    rfl

theorem word_eq_zero_iff {b : UInt64} (hb : b.toNat < 2 ^ w.bits) : w.word b = 0 ↔ b = 0 := by
  constructor
  · intro h
    have h0 : b.toNat = 0 := by rw [← toNat_word_of_lt w hb, h]; rfl
    exact UInt64.toNat.inj h0
  · intro h
    rw [h, word_zero]

/-- an operator on words that fit the width gives the residue that it means -/
theorem word_apply (op : Operator) {a b : UInt64} (ha : a.toNat < 2 ^ w.bits)
    (hb : b.toNat < 2 ^ w.bits) :
    w.word (op.apply a b) = op.meaning (w.word a) (w.word b) := by
  cases op with
  | bitOr => exact BitVec.setWidth_or
  | bitXor => exact BitVec.setWidth_xor
  | bitAnd => exact BitVec.setWidth_and
  | shiftLeft => exact w.word_shiftLeft hb
  | shiftRight => exact w.word_shiftRight ha hb
  | add => exact w.word_add a b
  | sub => exact w.word_sub a b
  | mul => exact w.word_mul a b
  | div =>
    unfold Operator.apply Operator.meaning
    rw [toNat_word_of_lt w ha, toNat_word_of_lt w hb]
    by_cases h : b = 0
    · rw [if_pos h, if_pos ((w.word_eq_zero_iff hb).mpr h), word_eq_ofNat]
      rfl
    · rw [if_neg h, if_neg (mt (w.word_eq_zero_iff hb).mp h), word_eq_ofNat, UInt64.toNat_div]
  | mod =>
    rw [Operator.apply, Operator.meaning, toNat_word_of_lt w ha, toNat_word_of_lt w hb]
    by_cases h : b = 0
    · rw [if_pos h, if_pos ((w.word_eq_zero_iff hb).mpr h), word_eq_ofNat]
      rfl
    · rw [if_neg h, if_neg (mt (w.word_eq_zero_iff hb).mp h), word_eq_ofNat, UInt64.toNat_mod]
  | neg =>
    unfold Operator.apply
    rw [UInt64.zero_sub]
    exact w.word_neg b
  | bitNot => exact w.word_complement b

theorem fails_eq (op : Operator) {b : UInt64} (hb : b.toNat < 2 ^ w.bits) :
    op.fails b = (op.divides && w.word b == 0) := by
  have h : (b == 0) = (w.word b == 0) := by
    rw [Bool.eq_iff_iff, beq_iff_eq, beq_iff_eq, w.word_eq_zero_iff hb]
  cases op with
  | div | mod => exact h
  | bitOr | bitXor | bitAnd | shiftLeft | shiftRight | add | sub | mul | neg | bitNot => rfl

end Width

/-! ## the flags of a node -/

namespace Node

theorem word_applyFlags (n : Node) (w : Width) (v : UInt64) :
    w.word (n.applyFlags w v) = n.flags.act (w.word v) := by
  unfold applyFlags Flags.act flags
  cases n.minus <;> cases n.complement <;>
    simp [w.word_reduce, w.word_neg, w.word_complement]

theorem toNat_applyFlags_lt (n : Node) (w : Width) (v : UInt64) :
    (n.applyFlags w v).toNat < 2 ^ w.bits := by
  unfold applyFlags
  cases n.minus <;> cases n.complement <;> exact w.toNat_reduce_lt _

end Node

end WordExpr
