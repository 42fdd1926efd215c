/-!
# Numbers and lines of a text

* `decimal`, `decimalText`  the decimal digits of a number, without leading zeros; 0 is one digit;
* `isBlank`, `trim`         a blank is any of the 25 white-space characters of Unicode, and `trim`
                            removes them from both ends;
* `split`, `lines`          a text cut at a character, and at every line feed.

A carriage return is a blank, so a line that ended in carriage return and line feed is the same
after `trim`.
-/

namespace WordExpr.Text

/-! ## numbers -/

def decimal (n : Nat) : List Char := Nat.toDigits 10 n
def decimalText (n : Nat) : String := n.repr

theorem toList_decimalText (n : Nat) : (decimalText n).toList = decimal n := by
  simp [decimalText, decimal]

/-! ## blanks -/

def isBlank (c : Char) : Bool :=
  let n := c.toNat
  (0x09 ≤ n && n ≤ 0x0D) || (0x2000 ≤ n && n ≤ 0x200A)
    || [0x20, 0x85, 0xA0, 0x1680, 0x2028, 0x2029, 0x202F, 0x205F, 0x3000].contains n

def trimChars (cs : List Char) : List Char :=
  ((cs.dropWhile isBlank).reverse.dropWhile isBlank).reverse

def trim (s : String) : String := String.ofList (trimChars s.toList)

/-! ## lines -/

/-- the pieces between separators; there is always one more piece than separators -/
def split (separator : Char) : List Char → List (List Char)
  | [] => [[]]
  | c :: cs =>
    if c == separator then [] :: split separator cs
    else
      match split separator cs with
      | [] => [[c]]
      | piece :: rest => (c :: piece) :: rest

def lines (s : String) : List String := (split '\n' s.toList).map String.ofList

end WordExpr.Text
