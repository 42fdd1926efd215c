import WordExpr.Tree.Walk

/-!
# Formulas

A `Formula` is an expression as a tree of its own, without an arena: leaves hold an `Atom`, a group
is one pair of brackets, and every node has its two flags.

* `Atom`               a name, a constant or a registered variable;
* `Outline.formula?`   the formula an outline shows: every leaf without children, every group with
                       a left child only, every operator with both;
* `Tree.formula?`      the formula of a whole tree.
-/

namespace WordExpr

/-! ## flags and atoms -/

structure Flags where
  minus : Bool := false
  complement : Bool := false
deriving DecidableEq, Repr

def Node.flags (n : Node) : Flags := ⟨n.minus, n.complement⟩

/-- what a leaf may stand for -/
inductive Atom where
  | name (text : String)
  | constant (v : UInt64)
  | variable (id : VarId)
deriving DecidableEq, Repr

def Atom.symbol : Atom → Symbol
  | .name text => .term text
  | .constant v => .constant v
  | .variable id => .variable id

def Symbol.atom? : Symbol → Option Atom
  | .term text => some (.name text)
  | .constant v => some (.constant v)
  | .variable id => some (.variable id)
  | .operator _ => none

theorem Atom.atom?_symbol (a : Atom) : a.symbol.atom? = some a := by
  cases a <;> rfl

theorem Atom.operator?_symbol (a : Atom) : a.symbol.operator? = none := by
  cases a <;> rfl

theorem Symbol.symbol_of_atom? {s : Symbol} {a : Atom} (h : s.atom? = some a) : a.symbol = s := by
  cases s <;> cases h <;> rfl

/-- a term is read as a name or as a constant -/
theorem Symbol.of_ofTerm {text : String} {s : Symbol} (h : ofTerm text = .ok s) :
    s = .term text ∨ ∃ v, s = .constant v := by
  rw [ofTerm] at h
  split at h
  · cases h
  · split at h
    · cases h
      exact .inl rfl
    · cases hl : literal text with
      | error e =>
        rw [hl] at h
        cases h
      | ok v =>
        rw [hl] at h
        cases h
        exact .inr ⟨v, rfl⟩

theorem Symbol.exists_atom_of_ofTerm {text : String} {s : Symbol} (h : ofTerm text = .ok s) :
    ∃ a : Atom, a.symbol = s := by
  rcases of_ofTerm h with rfl | ⟨v, rfl⟩
  · exact ⟨.name text, rfl⟩
  · exact ⟨.constant v, rfl⟩

/-- a term that cannot be read is reported with its text -/
theorem Symbol.eq_invalidLiteral {text : String} {e : ParseError} (h : ofTerm text = .error e) :
    e = .invalidLiteral text := by
  rw [ofTerm] at h
  split at h
  · exact (Except.error.inj h).symm
  · split at h
    · cases h
    · rw [literal] at h
      split at h
      · cases h
      · exact (Except.error.inj h).symm

/-! ## formulas -/

inductive Formula where
  | leaf (f : Flags) (a : Atom)
  | group (f : Flags) (inner : Formula)
  | binary (f : Flags) (op : Operator) (l r : Formula)
deriving DecidableEq, Repr

/-- what every atom of a formula has -/
def Formula.Every (P : Atom → Prop) : Formula → Prop
  | leaf _ a => P a
  | group _ x => x.Every P
  | binary _ _ x y => x.Every P ∧ y.Every P

theorem Formula.Every.imp {P Q : Atom → Prop} {x : Formula} (h : x.Every P)
    (hpq : ∀ a, P a → Q a) : x.Every Q := by
  induction x with
  | leaf f a => exact hpq a h
  | group f x ih => exact ih h
  | binary f op x y ihx ihy => exact ⟨ihx h.1, ihy h.2⟩

theorem Formula.Every.and {P Q : Atom → Prop} {x : Formula} (hp : x.Every P) (hq : x.Every Q) :
    x.Every (fun a => P a ∧ Q a) := by
  induction x with
  | leaf f a => exact ⟨hp, hq⟩
  | group f x ih => exact ih hp hq
  | binary f op x y ihx ihy => exact ⟨ihx hp.1 hq.1, ihy hp.2 hq.2⟩

namespace Outline

/-- nothing where a child is missing or there is one too many -/
def formula? : Outline → Option Formula
  | empty => none
  | node _ n l r =>
    match n.symbol with
    | none => if r.isEmpty then l.formula?.map (.group n.flags) else none
    | some (.operator op) =>
      match l.formula?, r.formula? with
      | some a, some b => some (.binary n.flags op a b)
      | _, _ => none
    | some s => if l.isEmpty && r.isEmpty then s.atom?.map (.leaf n.flags) else none

end Outline

def Tree.formula? (t : Tree) : Option Formula := t.outline.formula?

end WordExpr
