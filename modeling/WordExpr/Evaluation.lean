import WordExpr.Registry
import WordExpr.Text.Basic
import WordExpr.Tree.Walk
import WordExpr.Word.Width

/-!
# Evaluation

The value of a tree under the cells of a registry, at a width. Every node's value is reduced to
the width, then negated and then complemented if its flags say so. A zero divisor makes the
whole evaluation undefined and counts as the value 0; evaluation goes on.

* `Node.eval`       the rule of a node. An `Evaluation` is a value or an error, and whether a zero
                    divisor was met, also where an error ends the evaluation;
* `Outline.eval`    the rule applied to every node of an outline; an empty one has no value;
* `Tree.evalFrom`   the rule applied along the links of a tree, which are followed only as far as
                    the value depends on them: a leaf has no children that count;
* `Tree.evaluate`   the `Outcome` of a tree.

`Tree.eval_outlineAt` says that a tree has the value of its outline. An error means that the tree
and the registry do not fit together.
-/

namespace WordExpr

inductive Outcome where
  | value (v : UInt64)
  | undefined
deriving DecidableEq, Repr

def Outcome.value? : Outcome → Option UInt64
  | value v => some v
  | undefined => none

def Outcome.text : Outcome → String
  | value v => Text.decimalText v.toNat
  | undefined => "n"

/-! ## nodes -/

/-- reduced to the width after every step -/
def Node.applyFlags (n : Node) (w : Width) (v : UInt64) : UInt64 :=
  let v := w.reduce v
  let v := if n.minus then w.reduce (0 - v) else v
  if n.complement then w.reduce (~~~v) else v

def Registry.cell (r : Registry) (id : VarId) : Except EvalError UInt64 :=
  match r.value? id with
  | some v => .ok v
  | none => .error (.unknownVariable id)

def Registry.cellNamed (r : Registry) (name : String) : Except EvalError UInt64 :=
  match r.lookup name with
  | some id => r.cell id
  | none => .error (.unresolvedVariable name)

/-! ## trees -/

/-- a value or an error, and whether a zero divisor has been met -/
abbrev Evaluation := Except EvalError UInt64 × Bool

/-- the flags of a node on the value of its body -/
@[inline] def Node.flagged (n : Node) (w : Width) : Evaluation → Evaluation
  | (.ok v, met) => (.ok (n.applyFlags w v), met)
  | failed => failed

/-- The rule of a node: its value from the evaluations of its children, where it has them. A child
is evaluated only if the value depends on it, with what was met before it. -/
@[inline] def Node.eval (n : Node) (id : NodeId) (r : Registry) (w : Width)
    (left right : Option (Bool → Evaluation)) (met : Bool) : Evaluation :=
  n.flagged w <|
    match n.symbol, left, right with
    | some (.constant v), _, _ => (.ok v, met)
    | some (.variable x), _, _ => (r.cell x, met)
    | some (.term name), _, _ => (r.cellNamed name, met)
    | none, some left, _ => left met
    | none, none, _ => (.error (.emptyNode id), met)
    | some (.operator op), some left, some right =>
      match left met with
      | (.error e, met) => (.error e, met)
      | (.ok a, met) =>
        match right met with
        | (.error e, met) => (.error e, met)
        | (.ok b, met) => (.ok (op.apply a b), met || op.fails b)
    | some (.operator _), _, _ => (.error (.missingOperand id), met)

def Outline.eval (r : Registry) (w : Width) : Outline → Option (Bool → Evaluation)
  | empty => none
  | node id n left right => some (n.eval id r w (left.eval r w) (right.eval r w))

namespace Tree

/-- follows `fuel` links at most -/
def evalFrom (t : Tree) (r : Registry) (w : Width) (fuel : Nat) (id : NodeId) (met : Bool) :
    Evaluation :=
  let n := t.node id
  match fuel with
  | 0 => n.eval id r w none none met
  | fuel + 1 =>
    n.eval id r w (n.left.map (fun id met => t.evalFrom r w fuel id met))
      (n.right.map (fun id met => t.evalFrom r w fuel id met)) met

/-- the value of the part of a tree below a node -/
def evaluateAt (t : Tree) (id : NodeId) (r : Registry) (w : Width) (met : Bool) : Evaluation :=
  t.evalFrom r w (t.size - 1) id met

def evaluate (t : Tree) (r : Registry) (w : Width) : Except EvalError Outcome :=
  match t.evaluateAt t.root r w false with
  | (.error e, _) => .error e
  | (.ok _, true) => .ok .undefined
  | (.ok v, false) => .ok (.value v)

/-! ## evaluation follows the outline -/

theorem eval_outlineFrom (t : Tree) (r : Registry) (w : Width) (fuel : Nat) (id : NodeId) :
    (t.outlineFrom (fuel + 1) (some id)).eval r w = some (t.evalFrom r w fuel id) := by
  induction fuel generalizing id with
  | zero => simp [outlineFrom, Outline.eval, evalFrom]
  | succ fuel ih =>
    have step (place : Option NodeId) :
        (t.outlineFrom (fuel + 1) place).eval r w = place.map (t.evalFrom r w fuel) := by
      cases place with
      | none => rfl
      | some id => exact ih id
    rw [outlineFrom, Outline.eval, step, step]
    rfl

theorem eval_outlineAt (t : Tree) (r : Registry) (w : Width) (id : NodeId) (h : 0 < t.size) :
    (t.outlineAt id).eval r w = some (t.evaluateAt id r w) := by
  obtain ⟨n, hn⟩ : ∃ n, t.size = n + 1 := ⟨t.size - 1, by omega⟩
  unfold outlineAt
  rw [hn, eval_outlineFrom]
  simp [evaluateAt, hn, funext_iff]

end Tree

end WordExpr
