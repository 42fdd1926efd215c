import WordExpr.Text.Graphic

/-!
# Quoted text

Messages show a character between apostrophes (`quoteChar`) and a text between quotation marks
(`quote`). Inside,

* a backslash, a line feed, a carriage return, a tab and the character 0 are written with a
  backslash and a letter (or `0`);
* the delimiter itself gets a backslash, the other delimiter does not;
* every other character that is not graphic is written as its code point, in lower-case
  hexadecimal without leading zeros, between braces after a backslash and `u`.
-/

namespace WordExpr.Text

def codePoint (c : Char) : List Char :=
  ['\\', 'u', '\x7b'] ++ Nat.toDigits 16 c.toNat ++ ['\x7d']

/-- the written form of one character between two delimiters -/
def escape (delimiter c : Char) : List Char :=
  if c == '\n' then ['\\', 'n']
  else if c == '\r' then ['\\', 'r']
  else if c == '\t' then ['\\', 't']
  else if c == '\x00' then ['\\', '0']
  else if c == '\\' || c == delimiter then ['\\', c]
  else if isGraphic c then [c]
  else codePoint c

def between (delimiter : Char) (cs : List Char) : String :=
  String.ofList (delimiter :: (cs.flatMap (escape delimiter) ++ [delimiter]))

def quoteChar (c : Char) : String := between '\'' [c]
def quote (s : String) : String := between '"' s.toList

end WordExpr.Text
