/-!
# The alphabet of expressions

Every character an expression may hold belongs to exactly one `CharClass`:

* `term`                     letters, digits and `_` (ASCII only);
* `binaryOperator`           `+ - * / % < > & ^ |`;
* `unaryOperator`            the negation mark (grave accent, U+0060) and `~`;
* `opening`, `closing`       the three bracket styles, which are interchangeable;
* `whitespace`               space, tab, line feed and carriage return, nothing else.

`CharClass.of?` classifies a character; `none` means that it is outside the alphabet.
-/

namespace WordExpr

/-! ## single characters -/

/-- the mark of negation in normal spelling, where a minus sign is always subtraction -/
def negation : Char := '\x60'

def isAlpha (c : Char) : Bool := c.isAlpha || c == '_'
def isNumeric (c : Char) : Bool := c.isDigit
def isTermChar (c : Char) : Bool := isAlpha c || isNumeric c
def isWhitespace (c : Char) : Bool := [' ', '\t', '\n', '\r'].contains c

def isBinaryOperator (c : Char) : Bool :=
  ['+', '-', '*', '/', '%', '<', '>', '&', '^', '|'].contains c

def isUnaryOperator (c : Char) : Bool := c == negation || c == '~'
def isOperator (c : Char) : Bool := isBinaryOperator c || isUnaryOperator c
def isOpening (c : Char) : Bool := ['(', '\x7b', '['].contains c
def isClosing (c : Char) : Bool := [')', '\x7d', ']'].contains c
def isBracket (c : Char) : Bool := isOpening c || isClosing c

/-! ## classes -/

inductive CharClass where
  | term
  | binaryOperator
  | unaryOperator
  | opening
  | closing
  | whitespace
deriving DecidableEq, Repr

def CharClass.of? (c : Char) : Option CharClass :=
  if isTermChar c then some .term
  else if isBinaryOperator c then some .binaryOperator
  else if isUnaryOperator c then some .unaryOperator
  else if isOpening c then some .opening
  else if isClosing c then some .closing
  else if isWhitespace c then some .whitespace
  else none

end WordExpr
