import WordExpr.Proofs.Formula
import WordExpr.Source.Token

/-!
# The grammar of expressions

An expression is a sequence of `Piece`s: operands, operators, opening and closing brackets.

* `pieces?`    the pieces of a sequence of tokens, where every operator has a character of the
               alphabet and every term is a name or a number; whitespace drops out and the style of
               a bracket does not count;
* `Sentence`   the sequences that are expressions: primaries with binary operators between them. A
               `Primary` is an operand or a sentence in brackets, with one unary operator in front
               or none;
* `Derives`    the reference grammar with its six levels of binary operators, each associative to
               the left, and the formula that it gives to a sequence.

A sequence is a sentence exactly if the reference grammar derives it (`Sentence.exists_derives`,
`Derives.sentence`).
-/

namespace WordExpr

/-! ## pieces -/

inductive Piece where
  | operand (a : Atom)
  | operator (op : Operator)
  | opening
  | closing
deriving DecidableEq, Repr

/-- another operand in the place of an operand -/
def Piece.relabel (g : Atom → Atom) : Piece → Piece
  | operand a => operand (g a)
  | c => c

def Token.piece? (t : Token) : Option Piece :=
  match t.kind with
  | .term =>
    match Symbol.ofTerm t.text with
    | .ok s => s.atom?.map .operand
    | .error _ => none
  | .operator => (Operator.ofChar? t.firstChar).map .operator
  | .bracket => some (if isOpening t.firstChar then .opening else .closing)
  | .whitespace => none

/-- what a token of a piece looks like -/
def Piece.Fits (t : Token) : Piece → Prop
  | operand a => t.kind = .term ∧ Symbol.ofTerm t.text = .ok a.symbol
  | operator op => t.kind = .operator ∧ Operator.ofChar? t.firstChar = some op
  | opening => t.kind = .bracket ∧ isOpening t.firstChar = true
  | closing => t.kind = .bracket ∧ isOpening t.firstChar = false

theorem Token.piece?_eq_some_iff {t : Token} {c : Piece} : t.piece? = some c ↔ c.Fits t := by
  rw [Token.piece?]
  cases hk : t.kind with
  | term =>
    cases hs : Symbol.ofTerm t.text with
    | error e => cases c <;> simp [Piece.Fits, hk, hs]
    | ok s =>
      obtain ⟨a, rfl⟩ := Symbol.exists_atom_of_ofTerm hs
      have hinj : ∀ a' : Atom, a = a' ↔ a.symbol = a'.symbol := fun a' =>
        ⟨congrArg Atom.symbol, fun h => Option.some.inj
          (by rw [← a.atom?_symbol, h, a'.atom?_symbol])⟩
      cases c <;> simp [Piece.Fits, hk, hs, a.atom?_symbol, hinj]
  | operator => cases c <;> simp [Piece.Fits, hk]
  | bracket =>
    cases ho : isOpening t.firstChar <;> cases c <;> simp [Piece.Fits, hk, ho]
  | whitespace => cases c <;> simp [Piece.Fits, hk]

def pieces? : List Token → Option (List Piece)
  | [] => some []
  | t :: ts =>
    if t.kind = .whitespace then pieces? ts
    else
      match t.piece?, pieces? ts with
      | some c, some cs => some (c :: cs)
      | _, _ => none

theorem pieces?_cons {t : Token} {ts : List Token} {ps : List Piece} (ht : t.kind ≠ .whitespace)
    (h : pieces? (t :: ts) = some ps) :
    ∃ c cs, ps = c :: cs ∧ t.piece? = some c ∧ pieces? ts = some cs := by
  rw [pieces?, if_neg ht] at h
  split at h
  · next c cs hc hcs =>
    cases h
    exact ⟨c, cs, rfl, hc, hcs⟩
  · cases h

theorem exists_token_of_mem_pieces? {toks : List Token} {ps : List Piece}
    (h : pieces? toks = some ps) {c : Piece} (hc : c ∈ ps) : ∃ t ∈ toks, t.piece? = some c := by
  induction toks generalizing ps with
  | nil =>
    cases h
    cases hc
  | cons t toks ih =>
    rw [pieces?] at h
    split at h
    · obtain ⟨t', ht', hp⟩ := ih h hc
      exact ⟨t', List.mem_cons_of_mem _ ht', hp⟩
    · split at h
      · next c' cs hc' hcs =>
        cases h
        rcases List.mem_cons.mp hc with rfl | hc
        · exact ⟨t, List.mem_cons_self .., hc'⟩
        · obtain ⟨t', ht', hp⟩ := ih hcs hc
          exact ⟨t', List.mem_cons_of_mem _ ht', hp⟩
      · cases h

/-! ## sentences -/

/-- at most one unary operator, and the flag it stands for -/
inductive Sign : List Piece → Flags → Prop where
  | plain : Sign [] {}
  | minus : Sign [.operator .neg] { minus := true }
  | complement : Sign [.operator .bitNot] { complement := true }

mutual

inductive Primary : List Piece → Prop where
  | operand {u : List Piece} {f : Flags} (hu : Sign u f) (a : Atom) :
    Primary (u ++ [.operand a])
  | brackets {u ps : List Piece} {f : Flags} (hu : Sign u f) (h : Sentence ps) :
    Primary (u ++ .opening :: (ps ++ [.closing]))

inductive Sentence : List Piece → Prop where
  | one {ps : List Piece} (h : Primary ps) : Sentence ps
  | more {ps qs : List Piece} {op : Operator} (h : Sentence ps) (hop : op.isBinary)
    (h' : Primary qs) : Sentence (ps ++ .operator op :: qs)

end

/-! ## the reference grammar -/

/-- the level of a binary operator, the loosest one 0 -/
def Operator.tier : Operator → Nat
  | bitOr => 0
  | bitXor => 1
  | bitAnd => 2
  | shiftLeft | shiftRight => 3
  | add | sub => 4
  | mul | div | mod => 5
  | neg | bitNot => 6

/-- Derivations from a level on; 6 is the level of primaries. -/
inductive Derives : Nat → List Piece → Formula → Prop where
  | operand {u : List Piece} {f : Flags} (hu : Sign u f) (a : Atom) :
    Derives 6 (u ++ [.operand a]) (.leaf f a)
  | brackets {u ps : List Piece} {f : Flags} {x : Formula} (hu : Sign u f) (h : Derives 0 ps x) :
    Derives 6 (u ++ .opening :: (ps ++ [.closing])) (.group f x)
  | tighter {k : Nat} {ps : List Piece} {x : Formula} (h : Derives (k + 1) ps x) : Derives k ps x
  | chain {ps qs : List Piece} {op : Operator} {x y : Formula} (hop : op.isBinary)
    (hl : Derives op.tier ps x) (hr : Derives (op.tier + 1) qs y) :
    Derives op.tier (ps ++ .operator op :: qs) (.binary {} op x y)

namespace Operator

theorem tier_le_iff (a b : Operator) : a.tier ≤ b.tier ↔ a.level ≤ b.level := by
  cases a <;> cases b <;> decide

theorem tier_lt_iff (op : Operator) : op.tier < 6 ↔ op.isBinary = true := by
  cases op <;> decide

end Operator

namespace Derives

theorem mono {j k : Nat} {ps : List Piece} {x : Formula} (h : Derives k ps x) (hj : j ≤ k) :
    Derives j ps x := by
  induction k generalizing j with
  | zero => exact Nat.le_zero.mp hj ▸ h
  | succ k ih =>
    rcases Nat.lt_or_eq_of_le hj with hlt | rfl
    · exact ih h.tighter (Nat.le_of_lt_succ hlt)
    · exact h

/-- one more operator behind a sequence goes as deep as its level says -/
theorem exists_append {k : Nat} {ps : List Piece} {x : Formula} (h : Derives k ps x)
    {op : Operator} (hop : op.isBinary) (hk : k ≤ op.tier) {qs : List Piece} {y : Formula}
    (h' : Derives 6 qs y) : ∃ z, Derives k (ps ++ .operator op :: qs) z := by
  have hlt : op.tier < 6 := op.tier_lt_iff.mpr hop
  have hr : Derives (op.tier + 1) qs y := h'.mono hlt
  induction h with
  | operand hu a => omega
  | brackets hu h ih => omega
  | @tighter k ps x h ih =>
    rcases Nat.lt_or_eq_of_le hk with hlt' | rfl
    · obtain ⟨z, hz⟩ := ih hlt'
      exact ⟨z, hz.tighter⟩
    · exact ⟨_, .chain hop h.tighter hr⟩
  | @chain ps qs' op' x z hop' hl hr' ihl ihr =>
    rcases Nat.lt_or_eq_of_le hk with hlt' | heq
    · obtain ⟨w, hw⟩ := ihr hlt'
      exact ⟨_, by simpa using Derives.chain hop' hl hw⟩
    · have hc := Derives.chain hop' hl hr'
      rw [heq] at hc ⊢
      exact ⟨_, .chain hop hc hr⟩

/-- the atoms of the formula are the operands -/
theorem every_iff {k : Nat} {ps : List Piece} {x : Formula} (h : Derives k ps x)
    {P : Atom → Prop} : x.Every P ↔ ∀ a, .operand a ∈ ps → P a := by
  induction h with
  | operand hu a => cases hu <;> simp [Formula.Every]
  | brackets hu h ih => cases hu <;> simp [Formula.Every, ih]
  | tighter h ih => exact ih
  | chain hop hl hr ihl ihr =>
    simp only [Formula.Every, ihl, ihr, List.mem_append, List.mem_cons, reduceCtorEq, false_or]
    exact ⟨fun h a ha => ha.elim (h.1 a) (h.2 a),
      fun h => ⟨fun a ha => h a (.inl ha), fun a ha => h a (.inr ha)⟩⟩

end Derives

/-! ## sentences and derivations -/

mutual

theorem Primary.exists_derives {ps : List Piece} : Primary ps → ∃ x, Derives 6 ps x
  | .operand hu a => ⟨_, .operand hu a⟩
  | .brackets hu h => by
    obtain ⟨x, hx⟩ := h.exists_derives
    exact ⟨_, .brackets hu hx⟩

theorem Sentence.exists_derives {ps : List Piece} : Sentence ps → ∃ x, Derives 0 ps x
  | .one h => by
    obtain ⟨x, hx⟩ := h.exists_derives
    exact ⟨x, hx.mono (Nat.zero_le 6)⟩
  | .more h hop h' => by
    obtain ⟨x, hx⟩ := h.exists_derives
    obtain ⟨y, hy⟩ := h'.exists_derives
    exact hx.exists_append hop (Nat.zero_le _) hy

end

theorem Sentence.append {ps qs : List Piece} {op : Operator} (h : Sentence ps)
    (hop : op.isBinary) : Sentence qs → Sentence (ps ++ .operator op :: qs)
  | .one h' => .more h hop h'
  | .more h' hop' h'' => by
    have := (h.append hop h').more hop' h''
    simpa using this

theorem Derives.sentence {k : Nat} {ps : List Piece} {x : Formula} (h : Derives k ps x) :
    Sentence ps := by
  induction h with
  | operand hu a => exact .one (.operand hu a)
  | brackets hu h ih => exact .one (.brackets hu ih)
  | tighter h ih => exact ih
  | chain hop hl hr ihl ihr => exact ihl.append hop ihr

end WordExpr
