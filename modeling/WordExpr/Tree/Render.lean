import WordExpr.Text.Basic
import WordExpr.Tree.Walk

/-!
# Trees as text

`Tree.render` writes a tree so that it can be read back. An operator gets brackets where its
place would otherwise bind it differently: below a tighter operator, or on the right of one of
its own level. A flag is written in front of its operand; of two flags the complement stands
outside, `~(` before the negation. Variables are written by the name they are given, and as `v`
with their number where they have none. `Outline.render` says what is written.
-/

namespace WordExpr

open Text

/-- how a node stands below an operator: the operator, and whether the node is on its right -/
abbrev Place := Option (Operator × Bool)

def bracketed (op : Operator) : Place → Bool
  | none => false
  | some (above, onRight) =>
    match op.compareBinding above with
    | .lt => true
    | .eq => onRight
    | .gt => false

def inBrackets (cs : List Char) : List Char := '(' :: (cs ++ [')'])

/-- the flags of a node in front of its text; `plain` is the text without flags, `operand` the
text that a flag can stand before -/
def withFlags (n : Node) (plain operand : List Char) : List Char :=
  match n.minus, n.complement with
  | false, false => plain
  | true, false => negation :: operand
  | false, true => '~' :: operand
  | true, true => '~' :: inBrackets (negation :: operand)

namespace Outline

variable (names : VarId → Option String)

def variableName (id : VarId) : List Char :=
  match names id with
  | some name => name.toList
  | none => 'v' :: decimal id

def render (place : Place) : Outline → List Char
  | empty => []
  | node _ n l r =>
    match n.symbol with
    | none => let body := inBrackets (l.render none); withFlags n body body
    | some (.term name) => withFlags n name.toList name.toList
    | some (.constant v) => withFlags n (decimal v.toNat) (decimal v.toNat)
    | some (.variable id) => withFlags n (variableName names id) (variableName names id)
    | some (.operator op) =>
      let body := l.render (some (op, false)) ++ op.char :: r.render (some (op, true))
      withFlags n (if bracketed op place then inBrackets body else body) (inBrackets body)

end Outline

/-! ## in front of a text

`Outline.renderOnto` writes an outline in front of what follows it. It never copies what is already
written, and `renderOnto_eq` says that it writes the same. -/

def inBracketsOnto (body : List Char → List Char) (rest : List Char) : List Char :=
  '(' :: body (')' :: rest)

def withFlagsOnto (n : Node) (plain operand : List Char → List Char) (rest : List Char) :
    List Char :=
  match n.minus, n.complement with
  | false, false => plain rest
  | true, false => negation :: operand rest
  | false, true => '~' :: operand rest
  | true, true => '~' :: inBracketsOnto (fun rest => negation :: operand rest) rest

theorem withFlagsOnto_eq {n : Node} {plain operand : List Char → List Char} {p o : List Char}
    (hp : ∀ rest, plain rest = p ++ rest) (ho : ∀ rest, operand rest = o ++ rest)
    (rest : List Char) : withFlagsOnto n plain operand rest = withFlags n p o ++ rest := by
  unfold withFlagsOnto withFlags
  split <;> simp [inBracketsOnto, inBrackets, hp, ho]

namespace Outline

variable (names : VarId → Option String)

def renderOnto (place : Place) (rest : List Char) : Outline → List Char
  | empty => rest
  | node _ n l r =>
    match n.symbol with
    | none =>
      let body := inBracketsOnto (fun rest => l.renderOnto none rest)
      withFlagsOnto n body body rest
    | some (.term name) => withFlags n name.toList name.toList ++ rest
    | some (.constant v) => withFlags n (decimal v.toNat) (decimal v.toNat) ++ rest
    | some (.variable id) =>
      withFlags n (variableName names id) (variableName names id) ++ rest
    | some (.operator op) =>
      let body := fun rest =>
        l.renderOnto (some (op, false)) (op.char :: r.renderOnto (some (op, true)) rest)
      withFlagsOnto n (if bracketed op place then inBracketsOnto body else body)
        (inBracketsOnto body) rest

theorem renderOnto_eq (o : Outline) (place : Place) (rest : List Char) :
    o.renderOnto names place rest = o.render names place ++ rest := by
  induction o generalizing place rest with
  | empty => rfl
  | node id n l r ihl ihr =>
    unfold renderOnto render
    split
    · exact withFlagsOnto_eq (by simp [inBracketsOnto, inBrackets, ihl])
        (by simp [inBracketsOnto, inBrackets, ihl]) rest
    · rfl
    · rfl
    · rfl
    · refine withFlagsOnto_eq (fun rest => ?_) (fun rest => ?_) rest
      · split <;> simp [inBracketsOnto, inBrackets, ihl, ihr]
      · simp [inBracketsOnto, inBrackets, ihl, ihr]

end Outline

namespace Tree

def render (t : Tree) (names : VarId → Option String) : String :=
  String.ofList (t.outline.renderOnto names none [])

theorem toList_render (t : Tree) (names : VarId → Option String) :
    (t.render names).toList = t.outline.render names none := by
  rw [render, String.toList_ofList, Outline.renderOnto_eq, List.append_nil]

/-- variables as `v` and their number -/
def renderAnonymous (t : Tree) : String := t.render (fun _ => none)

end Tree

end WordExpr
