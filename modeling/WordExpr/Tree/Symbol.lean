import WordExpr.Source.Literal
import WordExpr.Word.Operator

/-!
# Symbols

A `Symbol` is what a node of a tree stands for: a name as it was written, a constant, a
registered variable, or an operator. `Symbol.ofTerm` reads the text of a term: a letter or `_`
in front makes it a name, anything else must be a numeric literal.
-/

namespace WordExpr

/-- the place of a variable in its registry -/
abbrev VarId := Nat

inductive Symbol where
  | term (name : String)
  | constant (value : UInt64)
  | variable (id : VarId)
  | operator (op : Operator)
deriving DecidableEq, Repr

namespace Symbol

def ofTerm (text : String) : Except ParseError Symbol :=
  match text.toList with
  | [] => .error (.invalidLiteral text)
  | c :: _ => if isAlpha c then .ok (.term text) else (literal text).map constant

def operator? : Symbol → Option Operator
  | operator op => some op
  | _ => none

end Symbol

end WordExpr
