import WordExpr.Source.Alphabet

/-!
# The well-formedness automaton

`State` is what the automaton remembers of the text read so far and `State.step` is its table,
driven by the class of every character, whitespace included. Whitespace after a term leads to
`termEnded`, where another term is refused: two terms with only spaces between them are not one
term. `State.accepting` are the states a text may end in.
-/

namespace WordExpr

inductive State where
  | start
  | opened
  | closed
  | operator
  | unary
  | term
  | termEnded
  | refused
deriving DecidableEq, Repr

namespace State

def name : State → String
  | start => "Initial"
  | opened => "OpenParen"
  | closed => "CloseParen"
  | operator => "Operator"
  | unary => "UnaryOp"
  | term => "Token"
  | termEnded => "TokenTrailingSpace"
  | refused => "Invalid"

/-- what may start an operand; whitespace stays in the state it is read in -/
def beginOperand (waiting : State) : CharClass → State
  | .opening => opened
  | .term => term
  | .unaryOperator => unary
  | .whitespace => waiting
  | .binaryOperator | .closing => refused

def step : State → CharClass → State
  | start, k => beginOperand start k
  | opened, k => beginOperand opened k
  | operator, k => beginOperand operator k
  | unary, .unaryOperator => refused
  | unary, k => beginOperand unary k
  | closed, .closing => closed
  | closed, .binaryOperator => operator
  | closed, .whitespace => closed
  | closed, _ => refused
  | term, .opening => opened
  | term, .closing => closed
  | term, .binaryOperator => operator
  | term, .term => term
  | term, .whitespace => termEnded
  | term, .unaryOperator => refused
  | termEnded, .opening => opened
  | termEnded, .closing => closed
  | termEnded, .binaryOperator => operator
  | termEnded, .unaryOperator => unary
  | termEnded, .whitespace => termEnded
  | termEnded, .term => refused
  | refused, _ => refused

/-- a character outside the alphabet is refused in every state -/
def read (s : State) (c : Char) : State :=
  match CharClass.of? c with
  | some k => s.step k
  | none => refused

def accepting : State → Bool
  | closed | term | termEnded => true
  | _ => false

end State

end WordExpr
