import WordExpr.Proofs.Grammar
import WordExpr.Proofs.Spelling.Lexemes
import WordExpr.Source.Spelling

/-!
# Spelling out a derivation

`spell σ ps` writes the pieces `ps` as a text, where `σ` says how an operand is written. If every
operand is written as a word, the text of a derivation is its own normal spelling
(`Derives.normalize_spell`) and has no whitespace (`Derives.clean_spell`). This follows the
derivation, with any text behind it.
-/

namespace WordExpr

def Piece.spell (σ : Atom → List Char) : Piece → List Char
  | operand a => σ a
  | operator op => [op.char]
  | opening => ['(']
  | closing => [')']

def spell (σ : Atom → List Char) (ps : List Piece) : List Char := ps.flatMap (Piece.spell σ)

/-- every operand is written as a word, which is read as the operand that `τ` gives -/
def Legible (σ : Atom → List Char) (τ : Atom → Atom) (ps : List Piece) : Prop :=
  ∀ a, .operand a ∈ ps →
    IsWord (σ a) ∧ Symbol.ofTerm (String.ofList (σ a)) = .ok (τ a).symbol

variable {σ : Atom → List Char} {τ : Atom → Atom} {k : Nat} {ps qs : List Piece} {x : Formula}

theorem spell_append (ps qs : List Piece) : spell σ (ps ++ qs) = spell σ ps ++ spell σ qs :=
  List.flatMap_append

theorem spell_cons (c : Piece) (ps : List Piece) : spell σ (c :: ps) = c.spell σ ++ spell σ ps :=
  List.flatMap_cons

theorem spell_nil : spell σ [] = [] := rfl

theorem spell_singleton (c : Piece) : spell σ [c] = c.spell σ := by
  rw [spell_cons]
  exact List.append_nil _

/-- the text of an operand, with what follows -/
theorem spell_operand (u : List Piece) (a : Atom) (rest : List Char) :
    spell σ (u ++ [.operand a]) ++ rest = spell σ u ++ (σ a ++ rest) := by
  rw [spell_append, spell_singleton, List.append_assoc]
  rfl

/-- the text of a bracket pair, with what follows -/
theorem spell_brackets (u ps : List Piece) (rest : List Char) :
    spell σ (u ++ .opening :: (ps ++ [.closing])) ++ rest =
      spell σ u ++ '(' :: (spell σ ps ++ ')' :: rest) := by
  simp only [spell_append, spell_cons, spell_nil, Piece.spell, List.append_assoc,
    List.cons_append, List.nil_append]

/-- the text of a binary operator between its operands, with what follows -/
theorem spell_binary (ps qs : List Piece) (op : Operator) (rest : List Char) :
    spell σ (ps ++ .operator op :: qs) ++ rest =
      spell σ ps ++ op.char :: (spell σ qs ++ rest) := by
  simp only [spell_append, spell_cons, Piece.spell, List.append_assoc, List.cons_append,
    List.nil_append]

namespace Legible

theorem operand {u : List Piece} {a : Atom} (h : Legible σ τ (u ++ [.operand a])) :
    IsWord (σ a) ∧ Symbol.ofTerm (String.ofList (σ a)) = .ok (τ a).symbol :=
  h a (List.mem_append_right _ (List.mem_singleton_self _))

theorem inner {u : List Piece} (h : Legible σ τ (u ++ .opening :: (ps ++ [.closing]))) :
    Legible σ τ ps := by
  intro a ha
  exact h a (List.mem_append_right _ (List.mem_cons_of_mem _ (List.mem_append_left _ ha)))

theorem left (h : Legible σ τ (ps ++ qs)) : Legible σ τ ps :=
  fun a ha => h a (List.mem_append_left _ ha)

theorem right {c : Piece} (h : Legible σ τ (ps ++ c :: qs)) : Legible σ τ qs :=
  fun a ha => h a (List.mem_append_right _ (List.mem_cons_of_mem _ ha))

end Legible

/-! ## characters -/

/-- characters that the normal spelling leaves alone and that start nothing -/
structure Plain (c : Char) : Prop where
  whitespace : isWhitespace c = false
  binary : isBinaryOperator c = false

theorem plain_of_isTermChar {c : Char} (hc : isTermChar c = true) : Plain c where
  whitespace := CharClass.holds_eq_false (j := .whitespace) (CharClass.of?_of_isTermChar hc)
    (by decide)
  binary := CharClass.holds_eq_false (j := .binaryOperator) (CharClass.of?_of_isTermChar hc)
    (by decide)

theorem isBinaryOperator_char {op : Operator} (h : op.isBinary = true) :
    isBinaryOperator op.char = true := by
  revert h
  cases op <;> decide

theorem isWhitespace_char (op : Operator) : isWhitespace op.char = false := by
  cases op <;> decide

theorem isTermChar_char (op : Operator) : isTermChar op.char = false := by
  cases op <;> decide

/-! ## the normal spelling -/

/-- a character that is no binary operator stays what it is -/
theorem normalizeFrom_plain {c : Char} (hc : Plain c) (seen kept : Option Char) (cs : List Char) :
    normalizeFrom seen kept (c :: cs) = c :: normalizeFrom (some c) (some c) cs := by
  have hminus : c ≠ '-' := by
    rintro rfl
    exact absurd hc.binary (by decide)
  have hshift : isShift c = false := by
    unfold isShift
    rw [Bool.or_eq_false_iff, beq_eq_false_iff_ne, beq_eq_false_iff_ne]
    constructor <;>
    · rintro rfl
      exact absurd hc.binary (by decide)
  simp only [normalizeFrom, hc.whitespace, beq_eq_false_iff_ne.mpr hminus, Bool.false_and,
    Bool.false_eq_true, if_false, hshift]

/-- so does a binary operator behind an operand -/
theorem normalizeFrom_operator {c : Char} (hc : isBinaryOperator c = false) {op : Operator}
    (hop : op.isBinary = true) (cs : List Char) :
    normalizeFrom (some c) (some c) (op.char :: cs) =
      op.char :: normalizeFrom (some op.char) (some op.char) cs := by
  have hseen : (some c == some op.char) = false := by
    rw [beq_eq_false_iff_ne]
    intro h
    rw [Option.some.inj h, isBinaryOperator_char hop] at hc
    cases hc
  simp only [normalizeFrom, isWhitespace_char, opensOperand, hc, hseen, Bool.and_false,
    Bool.false_eq_true, if_false]

theorem normalizeFrom_word {cs : List Char} (h : IsWord cs) (seen kept : Option Char)
    (rest : List Char) : ∃ c, isBinaryOperator c = false ∧
      normalizeFrom seen kept (cs ++ rest) = cs ++ normalizeFrom (some c) (some c) rest := by
  obtain ⟨hne, hall⟩ := h
  induction cs generalizing seen kept with
  | nil => exact absurd rfl hne
  | cons c cs ih =>
    obtain ⟨hc, hcs⟩ := List.forall_mem_cons.mp hall
    have hplain := plain_of_isTermChar hc
    rw [List.cons_append, normalizeFrom_plain hplain]
    cases cs with
    | nil => exact ⟨c, hplain.binary, rfl⟩
    | cons c' cs =>
      obtain ⟨d, hd, he⟩ := ih (some c) (some c) (List.cons_ne_nil _ _) hcs
      exact ⟨d, hd, by rw [he]; rfl⟩

theorem Sign.normalizeFrom_spell {u : List Piece} {f : Flags} (h : Sign u f)
    (seen kept : Option Char) (rest : List Char) : ∃ seen' kept',
      normalizeFrom seen kept (spell σ u ++ rest) =
        spell σ u ++ normalizeFrom seen' kept' rest := by
  cases h with
  | plain => exact ⟨seen, kept, rfl⟩
  | minus => exact ⟨_, _, normalizeFrom_plain ⟨by decide, by decide⟩ seen kept rest⟩
  | complement => exact ⟨_, _, normalizeFrom_plain ⟨by decide, by decide⟩ seen kept rest⟩

theorem Derives.normalizeFrom_spell (h : Derives k ps x) (hl : Legible σ τ ps)
    (seen kept : Option Char) (rest : List Char) : ∃ c, isBinaryOperator c = false ∧
      normalizeFrom seen kept (spell σ ps ++ rest) =
        spell σ ps ++ normalizeFrom (some c) (some c) rest := by
  induction h generalizing seen kept rest with
  | @operand u f hu a =>
    obtain ⟨s, t, hsign⟩ := hu.normalizeFrom_spell (σ := σ) seen kept (σ a ++ rest)
    obtain ⟨c, hc, hword⟩ := normalizeFrom_word hl.operand.1 s t rest
    refine ⟨c, hc, ?_⟩
    rw [spell_operand, spell_operand, hsign, hword]
  | @brackets u ps f x hu h ih =>
    obtain ⟨s, t, hsign⟩ := hu.normalizeFrom_spell (σ := σ) seen kept
      ('(' :: (spell σ ps ++ ')' :: rest))
    obtain ⟨c, hc, hps⟩ := ih hl.inner (some '(') (some '(') (')' :: rest)
    refine ⟨')', by decide, ?_⟩
    rw [spell_brackets, spell_brackets, hsign, normalizeFrom_plain ⟨by decide, by decide⟩, hps,
      normalizeFrom_plain ⟨by decide, by decide⟩]
  | tighter h ih => exact ih hl seen kept rest
  | @chain ps qs op x y hop hl' hr ihl ihr =>
    obtain ⟨c, hc, hps⟩ := ihl hl.left seen kept (op.char :: (spell σ qs ++ rest))
    obtain ⟨d, hd, hqs⟩ := ihr hl.right (some op.char) (some op.char) rest
    refine ⟨d, hd, ?_⟩
    rw [spell_binary, spell_binary, hps, normalizeFrom_operator hc hop, hqs]

theorem isWhitespace_of_mem_spell (hl : Legible σ τ ps) {c : Char} (hc : c ∈ spell σ ps) :
    isWhitespace c = false := by
  obtain ⟨p, hp, hcp⟩ := List.mem_flatMap.mp hc
  cases p with
  | operand a => exact (plain_of_isTermChar ((hl a hp).1.2 c hcp)).whitespace
  | operator op => rw [List.mem_singleton.mp hcp, isWhitespace_char]
  | opening => rw [List.mem_singleton.mp hcp]; decide
  | closing => rw [List.mem_singleton.mp hcp]; decide

theorem Derives.normalize_spell (h : Derives k ps x) (hl : Legible σ τ ps) :
    normalize (String.ofList (spell σ ps)) = String.ofList (spell σ ps) := by
  obtain ⟨c, -, he⟩ := h.normalizeFrom_spell hl none none []
  rw [List.append_nil] at he
  unfold normalize
  rw [String.toList_ofList, he]
  exact congrArg _ (List.append_nil _)

theorem Derives.clean_spell (h : Derives k ps x) (hl : Legible σ τ ps) :
    clean (String.ofList (spell σ ps)) = String.ofList (spell σ ps) := by
  unfold clean
  rw [h.normalize_spell hl, String.toList_ofList, withoutWhitespace]
  congr 1
  refine List.filter_eq_self.mpr ?_
  intro c hc
  rw [isWhitespace_of_mem_spell hl hc]
  rfl

end WordExpr
