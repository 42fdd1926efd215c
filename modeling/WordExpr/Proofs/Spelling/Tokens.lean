import Mathlib.Data.List.Forall2
import WordExpr.Proofs.Spelling.Text

/-!
# The tokens of a spelled derivation

The tokens of the text of a derivation are its pieces, with the operands that are read where an
operand was written (`Derives.tokenize_spell`). The tokens of any text are no whitespace
(`Cursor.kind_of_mem_items`).
-/

namespace WordExpr

/-! ## along a derivation -/

variable {σ : Atom → List Char} {τ : Atom → Atom} {k : Nat} {ps : List Piece} {x : Formula}

theorem items_operator (op : Operator) (cs : List Char) (offset : Nat) : ∃ t offset',
    Cursor.items ⟨op.char :: cs, offset⟩ = .ok t :: Cursor.items ⟨cs, offset'⟩ ∧
      t.piece? = some (.operator op) := by
  refine ⟨_, _, Cursor.items_char op.of?_char (by cases op <;> decide) (by cases op <;> decide) cs
    offset, ?_⟩
  refine Token.piece?_eq_some_iff.mpr ⟨?_, ?_⟩
  · cases op <;> rfl
  · rw [Token.firstChar_singleton, Operator.ofChar?_char]

theorem items_opening (cs : List Char) (offset : Nat) : ∃ t offset',
    Cursor.items ⟨'(' :: cs, offset⟩ = .ok t :: Cursor.items ⟨cs, offset'⟩ ∧
      t.piece? = some .opening := by
  have hc : CharClass.of? '(' = some .opening := by decide
  refine ⟨_, _, Cursor.items_char hc (by decide) (by decide) cs offset, ?_⟩
  exact Token.piece?_eq_some_iff.mpr ⟨rfl, by rw [Token.firstChar_singleton]; decide⟩

theorem items_closing (cs : List Char) (offset : Nat) : ∃ t offset',
    Cursor.items ⟨')' :: cs, offset⟩ = .ok t :: Cursor.items ⟨cs, offset'⟩ ∧
      t.piece? = some .closing := by
  have hc : CharClass.of? ')' = some .closing := by decide
  refine ⟨_, _, Cursor.items_char hc (by decide) (by decide) cs offset, ?_⟩
  exact Token.piece?_eq_some_iff.mpr ⟨rfl, by rw [Token.firstChar_singleton]; decide⟩

/-- a token that has the piece `c`, with another operand -/
def Piece.ReadAs (τ : Atom → Atom) (c : Piece) (t : Token) : Prop := t.piece? = some (c.relabel τ)

theorem pieces?_of_readAs {toks : List Token} (h : List.Forall₂ (Piece.ReadAs τ) ps toks) :
    pieces? toks = some (ps.map (Piece.relabel τ)) := by
  induction h with
  | nil => rfl
  | @cons c t ps toks hc _ ih =>
    have hk : t.kind ≠ .whitespace := by
      intro hk
      rw [Piece.ReadAs, Token.piece?, hk] at hc
      cases hc
    rw [pieces?, if_neg hk, hc, ih]
    rfl

theorem Sign.items_spell {u : List Piece} {f : Flags} (h : Sign u f) (offset : Nat)
    (rest : List Char) : ∃ toks offset', Cursor.items ⟨spell σ u ++ rest, offset⟩ =
      toks.map .ok ++ Cursor.items ⟨rest, offset'⟩ ∧ List.Forall₂ (Piece.ReadAs τ) u toks := by
  cases h with
  | plain => exact ⟨[], offset, rfl, .nil⟩
  | minus =>
    obtain ⟨t, offset', hitems, ht⟩ := items_operator .neg rest offset
    exact ⟨[t], offset', hitems, .cons ht .nil⟩
  | complement =>
    obtain ⟨t, offset', hitems, ht⟩ := items_operator .bitNot rest offset
    exact ⟨[t], offset', hitems, .cons ht .nil⟩

theorem Derives.items_spell (h : Derives k ps x) (hl : Legible σ τ ps) (offset : Nat)
    (rest : List Char) (hrest : EndsWord rest) :
    ∃ toks offset', Cursor.items ⟨spell σ ps ++ rest, offset⟩ =
      toks.map .ok ++ Cursor.items ⟨rest, offset'⟩ ∧ List.Forall₂ (Piece.ReadAs τ) ps toks := by
  induction h generalizing offset rest with
  | @operand u f hu a =>
    obtain ⟨hword, hread⟩ := hl.operand
    obtain ⟨ts, o1, h1, ht⟩ := hu.items_spell (σ := σ) (τ := τ) offset (σ a ++ rest)
    have hpiece : Token.piece? ⟨.term, String.ofList (σ a), o1⟩ = some (.operand (τ a)) :=
      Token.piece?_eq_some_iff.mpr ⟨rfl, hread⟩
    refine ⟨ts ++ [_], o1 + byteLength (σ a), ?_, List.rel_append ht (.cons hpiece .nil)⟩
    rw [spell_operand, h1, Cursor.items_word hword hrest, List.map_append, List.append_assoc]
    rfl
  | @brackets u ps f x hu h ih =>
    obtain ⟨ts, o1, h1, ht⟩ := hu.items_spell (σ := σ) (τ := τ) offset
      ('(' :: (spell σ ps ++ ')' :: rest))
    obtain ⟨o, o2, h2, ho⟩ := items_opening (spell σ ps ++ ')' :: rest) o1
    obtain ⟨us, o3, h3, hus⟩ := ih hl.inner o2 (')' :: rest)
      (fun c hc => by rw [← Option.some.inj hc]; decide)
    obtain ⟨c, o4, h4, hc⟩ := items_closing rest o3
    refine ⟨ts ++ o :: (us ++ [c]), o4, ?_,
      List.rel_append ht (.cons ho (List.rel_append hus (.cons hc .nil)))⟩
    rw [spell_brackets, h1, h2, h3, h4]
    simp
  | tighter h ih => exact ih hl offset rest hrest
  | @chain ps qs op x y hop hl' hr ihl ihr =>
    obtain ⟨ts, o1, h1, ht⟩ := ihl hl.left offset (op.char :: (spell σ qs ++ rest))
      (fun c hc => by rw [← Option.some.inj hc]; exact isTermChar_char op)
    obtain ⟨t, o2, h2, hop'⟩ := items_operator op (spell σ qs ++ rest) o1
    obtain ⟨us, o3, h3, hus⟩ := ihr hl.right o2 rest hrest
    refine ⟨ts ++ t :: us, o3, ?_, List.rel_append ht (.cons hop' hus)⟩
    rw [spell_binary, h1, h2, h3]
    simp

theorem Derives.tokenize_spell (h : Derives k ps x) (hl : Legible σ τ ps) :
    ∃ toks, tokenize (String.ofList (spell σ ps)) = toks.map .ok ∧
      List.Forall₂ (Piece.ReadAs τ) ps toks := by
  obtain ⟨toks, offset', hitems, ht⟩ := h.items_spell hl 0 [] (fun c hc => nomatch hc)
  refine ⟨toks, ?_, ht⟩
  have hnil : Cursor.items ⟨[], offset'⟩ = [] := Cursor.items_of_none rfl
  rw [List.append_nil, hnil, List.append_nil] at hitems
  unfold tokenize
  rw [String.toList_ofList]
  exact hitems

/-! ## no whitespace among the tokens -/

theorem Cursor.kind_of_nextFrom {cs : List Char} {offset : Nat} {t : Token} {q : Cursor}
    (h : nextFrom offset cs = some (.ok t, q)) : t.kind ≠ .whitespace := by
  induction cs generalizing offset with
  | nil => cases h
  | cons c cs ih =>
    rw [nextFrom] at h
    split at h
    · cases h
    · exact ih h
    · cases h
      intro hk
      cases hk
    · next k hterm hwhite hk =>
      cases h
      cases k with
      | term => exact absurd rfl hwhite
      | whitespace => exact absurd rfl hterm
      | binaryOperator | unaryOperator | opening | closing =>
        intro hk
        cases hk

theorem Cursor.kind_of_mem_items {p : Cursor} {t : Token} (h : .ok t ∈ p.items) :
    t.kind ≠ .whitespace := by
  induction p using Cursor.items.induct with
  | case1 p hp =>
    rw [items_of_none hp] at h
    cases h
  | case2 p item q hp ih =>
    rw [items_of_some hp] at h
    rcases List.mem_cons.mp h with rfl | h
    · exact kind_of_nextFrom hp
    · exact ih h

end WordExpr
