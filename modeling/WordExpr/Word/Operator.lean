import WordExpr.Source.Alphabet

/-!
# Operators

`Operator` is the operator alphabet, ten binary and two unary ones, each written as a single
character (`Operator.char`, read back by `Operator.ofChar?`).

* `Operator.code`    a byte whose high half is the binding level;
* `Operator.level`   how tightly an operator binds: loosest first `|`, `^`, `&`, the shifts,
                     `+ -`, `* / %`, then the unary ones;
* `Operator.apply`   the value of an operator on two 64-bit words;
* `Operator.fails`   whether a right operand makes the operator undefined (a zero divisor).
-/

namespace WordExpr

inductive Operator where
  | bitOr
  | bitXor
  | bitAnd
  | shiftLeft
  | shiftRight
  | add
  | sub
  | mul
  | div
  | mod
  | neg
  | bitNot
deriving DecidableEq, Repr

namespace Operator

/-! ## spelling -/

def all : List Operator :=
  [bitOr, bitXor, bitAnd, shiftLeft, shiftRight, add, sub, mul, div, mod, neg, bitNot]

def char : Operator → Char
  | bitOr => '|'
  | bitXor => '^'
  | bitAnd => '&'
  | shiftLeft => '<'
  | shiftRight => '>'
  | add => '+'
  | sub => '-'
  | mul => '*'
  | div => '/'
  | mod => '%'
  | neg => negation
  | bitNot => '~'

/-- the operator a character spells -/
def ofChar? (c : Char) : Option Operator := all.find? (fun op => op.char == c)

theorem ofChar?_char (op : Operator) : ofChar? op.char = some op := by
  cases op <;> decide

theorem char_of_ofChar? {c : Char} {op : Operator} (h : ofChar? c = some op) : op.char = c := by
  simpa using List.find?_some h

/-! ## binding -/

def code : Operator → Nat
  | bitOr => 0x40
  | bitXor => 0x50
  | bitAnd => 0x60
  | shiftLeft => 0x90
  | shiftRight => 0x91
  | add => 0xA0
  | sub => 0xA1
  | mul => 0xB0
  | div => 0xB1
  | mod => 0xB2
  | neg => 0xC0
  | bitNot => 0xC1

def level (op : Operator) : Nat := op.code / 16

def isUnary (op : Operator) : Bool := 0xC ≤ op.level
def isBinary (op : Operator) : Bool := !op.isUnary

/-- `gt` when `a` binds tighter than `b`; operators on one level associate to the left -/
def compareBinding (a b : Operator) : Ordering := compare a.level b.level

/-! ## values -/

/-- The value on 64-bit words. Shifts by 64 or more and divisions by zero give 0; the unary
operators act on the right operand. -/
def apply (op : Operator) (l r : UInt64) : UInt64 :=
  match op with
  | bitOr => l ||| r
  | bitXor => l ^^^ r
  | bitAnd => l &&& r
  | shiftLeft => if r < 64 then l <<< r else 0
  | shiftRight => if r < 64 then l >>> r else 0
  | add => l + r
  | sub => l - r
  | mul => l * r
  | div => if r = 0 then 0 else l / r
  | mod => if r = 0 then 0 else l % r
  | neg => 0 - r
  | bitNot => ~~~r

/-- a division or remainder whose divisor is zero -/
def fails (op : Operator) (r : UInt64) : Bool :=
  match op with
  | div | mod => r == 0
  | _ => false

end Operator

end WordExpr
