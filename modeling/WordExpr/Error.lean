import WordExpr.Source.Automaton
import WordExpr.Text.Quoted

/-!
# What can go wrong

One type for each stage, a constructor for each cause, and `message` for the wording:

* `Rejection`   the well-formedness automaton refuses a text;
* `ParseError`  the tree builder refuses a token or an unfinished input, for a `Fault`;
* `EvalError`   a tree and a registry do not fit together (never the fault of an input text);
* `Error`       any of these, an unsupported width, too large a table, or a full sink.

Offsets count bytes of the UTF-8 text that the stage was given.
-/

namespace WordExpr

open Text

/-! ## well-formedness -/

inductive Rejection where
  | empty
  | unexpected (found : Char) (offset : Nat) (state : State)
  | unbalanced (opened closed : Nat)
  | incomplete (state : State)
deriving DecidableEq, Repr

def Rejection.message : Rejection → String
  | empty => "expression is empty"
  | unexpected found offset state =>
    s!"unexpected {quoteChar found} at offset {offset} (state {state.name})"
  | unbalanced opened closed => s!"unbalanced parentheses: {opened} opened, {closed} closed"
  | incomplete state => s!"expression cannot end in state {state.name}"

/-! ## parsing -/

/-- why a token, or the end of the input, does not fit where it stands -/
inductive Fault where
  | unknownOperator
  | stackedUnary
  | binaryAfterUnary
  | missingLeft
  | missingRight
  | operatorOutsideGroup
  | noFreeSlot
  | unmatchedClose
  | closeOutsideGroup
  | emptyGroup
  | danglingUnary
  | missingOperand
deriving DecidableEq, Repr

def Fault.message : Fault → String
  | unknownOperator => "unknown operator"
  | stackedUnary => "stacked unary operators"
  | binaryAfterUnary => "binary operator after unary operator"
  | missingLeft => "missing left operand"
  | missingRight => "missing right operand"
  | operatorOutsideGroup => "operator outside any group"
  | noFreeSlot => "no free operand slot"
  | unmatchedClose => "close parenthesis without a matching open"
  | closeOutsideGroup => "close parenthesis outside any group"
  | emptyGroup => "empty group"
  | danglingUnary => "unary operator without an operand"
  | missingOperand => "operator is missing an operand"

inductive ParseError where
  | unexpected (found : Char) (offset : Nat)
  | invalidLiteral (text : String)
  | structural (fault : Fault) (token : String) (offset : Nat)
  | unclosed (depth : Nat)
  | empty
deriving DecidableEq, Repr

def ParseError.message : ParseError → String
  | unexpected found offset => s!"unexpected character {quoteChar found} at offset {offset}"
  | invalidLiteral text => s!"invalid numeric literal {quote text}"
  | structural fault token offset => s!"{fault.message} at offset {offset} (token {quote token})"
  | unclosed depth => s!"{depth} parenthesis group(s) left open"
  | empty => "no expression to parse"

/-! ## evaluation -/

inductive EvalError where
  | unresolvedVariable (name : String)
  | unknownVariable (id : Nat)
  | emptyNode (id : Nat)
  | missingOperand (id : Nat)
deriving DecidableEq, Repr

def EvalError.message : EvalError → String
  | unresolvedVariable name => s!"can't find variable {quote name} in the registry"
  | unknownVariable id => s!"variable id {id} is not registered"
  | emptyNode id => s!"node {id} has neither a symbol nor a child"
  | missingOperand id => s!"operator node {id} is missing an operand"

/-! ## any stage -/

inductive Error where
  | notWellFormed (why : Rejection)
  | parse (why : ParseError)
  | eval (why : EvalError)
  | unsupportedWidth (bits : Nat)
  | tooManyCombinations (bits arity : Nat)
  | sinkFull
deriving DecidableEq, Repr

def Error.message : Error → String
  | notWellFormed why => s!"expression is not well-formed: {why.message}"
  | parse why => s!"parse error: {why.message}"
  | eval why => s!"evaluation error: {why.message}"
  | unsupportedWidth bits => s!"unsupported bit width {bits} (expected 1..=32)"
  | tooManyCombinations bits arity =>
    s!"too many combinations for max_bits={bits} with {arity} variables"
  | sinkFull => "I/O error: sink is full"

end WordExpr
