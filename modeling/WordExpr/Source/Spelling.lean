import WordExpr.Source.Alphabet

/-!
# Normal spelling

Two ways of writing are brought to one before anything else looks at an expression:

* a minus sign that opens the expression or follows a binary operator is a negation and
  becomes the negation mark;
* a run of adjacent `<`, or of adjacent `>`, is one shift and becomes a single character.

`normalize` keeps whitespace in place, so that `a b` stays apart from `ab`; `clean` also
removes it.
-/

namespace WordExpr

/-- whether a minus sign after the last kept character negates what follows -/
def opensOperand : Option Char → Bool
  | none => true
  | some c => isBinaryOperator c

def isShift (c : Char) : Bool := c == '<' || c == '>'

/-- `seen` is the previous character, `kept` the last one that is not whitespace -/
def normalizeFrom (seen kept : Option Char) : List Char → List Char
  | [] => []
  | c :: cs =>
    if isWhitespace c then c :: normalizeFrom (some c) kept cs
    else
      let d := if c == '-' && opensOperand kept then negation else c
      if isShift d && seen == some d then normalizeFrom seen kept cs
      else d :: normalizeFrom (some d) (some d) cs

def normalize (raw : String) : String := String.ofList (normalizeFrom none none raw.toList)

def withoutWhitespace (cs : List Char) : List Char := cs.filter (fun c => !isWhitespace c)

def clean (raw : String) : String := String.ofList (withoutWhitespace (normalize raw).toList)

end WordExpr
