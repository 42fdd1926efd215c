import WordExpr.Error

/-!
# Numeric literals

`literal` reads a number: hexadecimal after `0x` or `0X`, decimal otherwise, an optional `+`
before the digits in both. Numbers that do not fit 64 bits are read as the largest one that
does, as soon as the digits read so far no longer fit; what follows them is not looked at.
-/

namespace WordExpr

/-- the value of a digit, `none` where the character is no digit of the base -/
def digit? (base : Nat) (c : Char) : Option Nat :=
  let n := c.toNat
  let v :=
    if 0x30 ≤ n ∧ n ≤ 0x39 then n - 0x30
    else if 0x61 ≤ n ∧ n ≤ 0x66 then n - 0x57
    else if 0x41 ≤ n ∧ n ≤ 0x46 then n - 0x37
    else base
  if v < base then some v else none

/-- `value` is what the digits before have given -/
def saturating (base value : Nat) : List Char → Option Nat
  | [] => some value
  | c :: cs =>
    match digit? base c with
    | none => none
    | some d =>
      if value * base + d < UInt64.size then saturating base (value * base + d) cs
      else some (UInt64.size - 1)

/-- at least one digit is needed -/
def unsigned (base : Nat) : List Char → Option Nat
  | [] => none
  | cs => saturating base 0 cs

def number (base : Nat) : List Char → Option Nat
  | '+' :: cs => unsigned base cs
  | cs => unsigned base cs

def literalChars : List Char → Option Nat
  | '0' :: 'x' :: cs => number 16 cs
  | '0' :: 'X' :: cs => number 16 cs
  | cs => number 10 cs

def literal (text : String) : Except ParseError UInt64 :=
  match literalChars text.toList with
  | some n => .ok (UInt64.ofNat n)
  | none => .error (.invalidLiteral text)

end WordExpr
