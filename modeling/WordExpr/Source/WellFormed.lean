import WordExpr.Error

/-!
# Well-formed texts

`validate` runs the automaton over a text and stops at the first character it refuses. A text
that it reads to the end must hold as many opening as closing brackets, of any style and in any
order, and must end in an accepting state; the count is looked at first.
-/

namespace WordExpr

/-- the automaton in the middle of a text -/
structure Reading where
  state : State := .start
  offset : Nat := 0
  opened : Nat := 0
  closed : Nat := 0
deriving DecidableEq, Repr

namespace Reading

def step (r : Reading) (c : Char) : Reading where
  state := r.state.read c
  offset := r.offset + c.utf8Size
  opened := if isOpening c then r.opened + 1 else r.opened
  closed := if isClosing c then r.closed + 1 else r.closed

def verdict (r : Reading) : Except Rejection Unit :=
  if r.opened ≠ r.closed then .error (.unbalanced r.opened r.closed)
  else if r.state.accepting then .ok ()
  else .error (.incomplete r.state)

def check (r : Reading) : List Char → Except Rejection Unit
  | [] => r.verdict
  | c :: cs =>
    if (r.step c).state = .refused then .error (.unexpected c r.offset r.state)
    else (r.step c).check cs

end Reading

def validate (text : String) : Except Rejection Unit :=
  match text.toList with
  | [] => .error .empty
  | cs => Reading.check {} cs

end WordExpr
