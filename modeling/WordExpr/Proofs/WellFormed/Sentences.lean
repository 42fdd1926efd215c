import WordExpr.Proofs.Accepted
import WordExpr.Proofs.WellFormed.Run

/-!
# Sentences are well formed

Whatever a builder takes for a tree is a well-formed text (`Tree.validate_of_ofText`).

* `pieces_induction`   goes along a text and its pieces, one character or one word at a time;
* `Lexes cs ps`        the characters `cs` are written for the pieces `ps`;
* `State.take`         lets the automaton read pieces instead of characters, one step for each;
* `State.Follows`      what this makes of its states: spaces and words of many characters show only
                       where a term has just ended.
-/

namespace WordExpr

/-! ## pieces instead of characters -/

def Piece.charClass : Piece → CharClass
  | operand _ => .term
  | operator op => op.charClass
  | opening => .opening
  | closing => .closing

@[simp] theorem Piece.charClass_operand (a : Atom) : (operand a).charClass = .term := rfl
@[simp] theorem Piece.charClass_operator (op : Operator) : (operator op).charClass = op.charClass :=
  rfl
@[simp] theorem Piece.charClass_opening : opening.charClass = .opening := rfl
@[simp] theorem Piece.charClass_closing : closing.charClass = .closing := rfl

/-- no term behind another one -/
def State.take (s : State) (c : Piece) : State :=
  if s = .term ∧ c.charClass = .term then .refused else s.step c.charClass

/-- where the characters may have led while the pieces led to `s` -/
def State.Follows (s r : State) : Prop := r = s ∨ s = .term ∧ r = .termEnded

namespace State

variable {s r : State} {c : Piece}

theorem Follows.whitespace (h : Follows s r) : Follows s (r.step .whitespace) := by
  rcases h with rfl | ⟨rfl, rfl⟩
  · cases r with
    | term => exact .inr ⟨rfl, rfl⟩
    | start | opened | closed | operator | unary | termEnded | refused => exact .inl rfl
  · exact .inr ⟨rfl, rfl⟩

theorem Follows.step_eq (h : Follows s r) (hc : s.take c ≠ refused) :
    r.step c.charClass = s.take c := by
  rcases h with rfl | ⟨rfl, rfl⟩
  · unfold take at hc ⊢
    split
    · next ht => exact absurd (if_pos ht) hc
    · rfl
  · unfold take at hc ⊢
    cases hk : c.charClass <;> rw [hk] at hc <;> first | rfl | exact absurd rfl hc

theorem ne_refused_of_foldl_take {ps : List Piece} (h : ps.foldl take s ≠ refused) :
    s ≠ refused := by
  induction ps generalizing s with
  | nil => exact h
  | cons c ps ih =>
    rintro rfl
    exact ih h rfl

end State

/-! ## the pieces of a text -/

theorem Token.charClass_of_piece? {c : Char} {k : CharClass} {p : Piece} {offset : Nat}
    (hc : CharClass.of? c = some k) (hk : k ≠ .term)
    (hp : Token.piece? ⟨k.kind, String.singleton c, offset⟩ = some p) : p.charClass = k := by
  have hfit := Token.piece?_eq_some_iff.mp hp
  cases p with
  | operand a => cases k <;> first | exact absurd rfl hk | cases hfit.1
  | operator op =>
    have hop : Operator.ofChar? c = some op := Token.firstChar_singleton _ c offset ▸ hfit.2
    rw [← Operator.char_of_ofChar? hop, op.of?_char] at hc
    exact Option.some.inj hc
  | opening =>
    have ho : isOpening c = true := Token.firstChar_singleton _ c offset ▸ hfit.2
    rw [(CharClass.of?_eq_some_iff (k := .opening)).mpr ho] at hc
    exact Option.some.inj hc
  | closing =>
    have ho : isOpening c = false := Token.firstChar_singleton _ c offset ▸ hfit.2
    cases k with
    | closing => rfl
    | opening => exact absurd ((CharClass.of?_eq_some_iff.mp hc).symm.trans ho) (by decide)
    | term => exact absurd rfl hk
    | binaryOperator | unaryOperator | whitespace => cases hfit.1

/-- Along a text and its pieces. What each piece is made of stays in sight: a word that is read as
an operand, or a character of the class of the piece. -/
theorem pieces_induction {motive : List Char → List Piece → Prop} {cs : List Char} {offset : Nat}
    {toks : List Token} {ps : List Piece} (ht : Cursor.items ⟨cs, offset⟩ = toks.map .ok)
    (hp : pieces? toks = some ps) (nil : motive [] [])
    (whitespace : ∀ c cs ps, isWhitespace c = true → motive cs ps → motive (c :: cs) ps)
    (word : ∀ w rest a ps, IsWord w → EndsWord rest →
      Symbol.ofTerm (String.ofList w) = .ok a.symbol → motive rest ps →
      motive (w ++ rest) (.operand a :: ps))
    (char : ∀ c cs p ps, CharClass.of? c = some p.charClass → p.charClass ≠ .term →
      (∀ op, p = .operator op → op.char = c) → motive cs ps → motive (c :: cs) (p :: ps)) :
    motive cs ps := by
  induction cs using lexeme_induction generalizing offset toks ps with
  | nil =>
    rw [Cursor.items_of_none rfl] at ht
    cases List.map_eq_nil_iff.mp ht.symm
    cases hp
    exact nil
  | whitespace c cs hc ih =>
    rw [Cursor.items_whitespace hc] at ht
    exact whitespace c cs ps hc (ih ht hp)
  | word w rest hw hr ih =>
    rw [Cursor.items_word hw hr] at ht
    obtain ⟨tok, toks, rfl, htok, htoks⟩ := List.map_eq_cons_iff.mp ht.symm
    cases htok
    have hkind : TokenKind.term ≠ .whitespace := by decide
    obtain ⟨p, ps, rfl, hpiece, hps⟩ := pieces?_cons hkind hp
    have hfit := Token.piece?_eq_some_iff.mp hpiece
    cases p with
    | operand a => exact word w rest a ps hw hr hfit.2 (ih htoks.symm hps)
    | operator | opening | closing => cases hfit.1
  | char c k cs hc hterm hwhite ih =>
    rw [Cursor.items_char hc hterm hwhite] at ht
    obtain ⟨tok, toks, rfl, htok, htoks⟩ := List.map_eq_cons_iff.mp ht.symm
    cases htok
    have hkind : k.kind ≠ .whitespace := by
      cases k <;> first | exact absurd rfl hwhite | exact nofun
    obtain ⟨p, ps, rfl, hpiece, hps⟩ := pieces?_cons hkind hp
    obtain rfl := Token.charClass_of_piece? hc hterm hpiece
    refine char c cs p ps hc hterm ?_ (ih htoks.symm hps)
    rintro op rfl
    have hfit := Token.piece?_eq_some_iff.mp hpiece
    exact Operator.char_of_ofChar? (Token.firstChar_singleton _ c offset ▸ hfit.2)
  | foreign c cs hc =>
    rw [Cursor.items_foreign hc] at ht
    obtain ⟨tok, toks, rfl, htok, -⟩ := List.map_eq_cons_iff.mp ht.symm
    cases htok

inductive Lexes : List Char → List Piece → Prop where
  | nil : Lexes [] []
  | whitespace {c : Char} {cs : List Char} {ps : List Piece} (hc : isWhitespace c = true)
    (h : Lexes cs ps) : Lexes (c :: cs) ps
  | word {w rest : List Char} {a : Atom} {ps : List Piece} (hw : IsWord w) (h : Lexes rest ps) :
    Lexes (w ++ rest) (.operand a :: ps)
  | char {c : Char} {cs : List Char} {p : Piece} {ps : List Piece}
    (hc : CharClass.of? c = some p.charClass) (h : Lexes cs ps) : Lexes (c :: cs) (p :: ps)

theorem lexes_of_items {cs : List Char} {offset : Nat} {toks : List Token} {ps : List Piece}
    (ht : Cursor.items ⟨cs, offset⟩ = toks.map .ok) (hp : pieces? toks = some ps) :
    Lexes cs ps :=
  pieces_induction ht hp .nil (fun _ _ _ hc h => .whitespace hc h)
    (fun _ _ _ _ hw _ _ h => .word hw h) (fun _ _ _ _ hc _ _ h => .char hc h)

namespace Lexes

variable {cs : List Char} {ps : List Piece}

theorem follows (h : Lexes cs ps) {s r : State} (hf : s.Follows r)
    (hs : ps.foldl State.take s ≠ .refused) :
    (ps.foldl State.take s).Follows (cs.foldl State.read r) := by
  induction h generalizing s r with
  | nil => exact hf
  | whitespace hc h ih =>
    have hread := State.read_of_class ((CharClass.of?_eq_some_iff (k := .whitespace)).mpr hc) r
    exact ih (hread ▸ hf.whitespace) hs
  | @word w rest a ps hw h ih =>
    have hne : s.take (.operand a) ≠ .refused := State.ne_refused_of_foldl_take hs
    have hstep : r.step .term = s.take (.operand a) := hf.step_eq hne
    have hterm := State.step_term_eq (hstep ▸ hne)
    rw [List.foldl_append, State.foldl_read_of_isWord hw hterm]
    exact ih (.inl (hterm.symm.trans hstep)) hs
  | @char c cs p ps hc h ih =>
    have hne : s.take p ≠ .refused := State.ne_refused_of_foldl_take hs
    have hstep := hf.step_eq hne
    exact ih (.inl ((State.read_of_class hc r).trans hstep)) hs

/-- the text has as many characters of a class as there are pieces of it -/
theorem countP_holds (h : Lexes cs ps) {k : CharClass} (hk : k ≠ .term) (hk' : k ≠ .whitespace) :
    cs.countP k.holds = ps.countP (fun p => p.charClass = k) := by
  induction h with
  | nil => rfl
  | whitespace hc h ih =>
    have hclass := (CharClass.of?_eq_some_iff (k := .whitespace)).mpr hc
    rw [List.countP_cons_of_neg, ih]
    rw [CharClass.holds_eq_false hclass (Ne.symm hk')]
    exact Bool.false_ne_true
  | word hw h ih =>
    rw [List.countP_append, CharClass.countP_holds_of_isWord hw hk, Nat.zero_add, ih,
      List.countP_cons_of_neg]
    simp [Ne.symm hk]
  | @char c cs p ps hc h ih =>
    rw [List.countP_cons, List.countP_cons, ih]
    congr 2
    by_cases hp : p.charClass = k
    · rw [CharClass.of?_eq_some_iff.mp (hp ▸ hc), decide_eq_true hp]
    · rw [CharClass.holds_eq_false hc hp, decide_eq_false hp]

end Lexes

/-! ## sentences -/

/-- a unary operator, or none, leads to where a term or an opening bracket may follow -/
theorem Sign.foldl_take {u : List Piece} {f : Flags} (h : Sign u f) {s : State} (hs : s.Waits) :
    (∀ a, (u.foldl State.take s).take (.operand a) = .term) ∧
      (u.foldl State.take s).take .opening = .opened := by
  cases h <;> rcases hs with rfl | rfl | rfl <;> exact ⟨fun _ => rfl, rfl⟩

namespace Derives

variable {k : Nat} {ps : List Piece} {x : Formula}

theorem foldl_take (h : Derives k ps x) {s : State} (hs : s.Waits) :
    (ps.foldl State.take s).Ended := by
  induction h generalizing s with
  | operand hu a =>
    rw [List.foldl_append]
    exact .inr ((hu.foldl_take hs).1 a)
  | brackets hu h ih =>
    rw [List.foldl_append, List.foldl_cons, (hu.foldl_take hs).2, List.foldl_append]
    left
    rcases ih (.inr (.inl rfl)) with he | he
    · show State.take _ .closing = _
      rw [he]
      rfl
    · show State.take _ .closing = _
      rw [he]
      rfl
  | tighter h ih => exact ih hs
  | @chain ps qs op x y hop hl hr ihl ihr =>
    have hclass : op.charClass = .binaryOperator := by
      unfold Operator.charClass
      rw [if_neg (by simpa [Operator.isBinary] using hop)]
    have hoperator : (ps.foldl State.take s).take (.operator op) = .operator := by
      rw [State.take, Piece.charClass, hclass]
      rcases ihl hs with he | he <;> rw [he] <;> rfl
    rw [List.foldl_append, List.foldl_cons, hoperator]
    exact ihr (.inr (.inr rfl))

/-- as many brackets are closed as opened -/
theorem countP_brackets (h : Derives k ps x) :
    ps.countP (fun p => p.charClass = .opening) =
      ps.countP (fun p => p.charClass = .closing) := by
  induction h with
  | operand hu a => cases hu <;> rfl
  | brackets hu h ih =>
    cases hu <;> simp [List.countP_append, Operator.charClass_ne_opening,
      Operator.charClass_ne_closing, ih]
  | tighter h ih => exact ih
  | chain hop hl hr ihl ihr =>
    simp [List.countP_append, Operator.charClass_ne_opening, Operator.charClass_ne_closing, ihl,
      ihr]

end Derives

/-- a text that a builder takes for a tree is well formed -/
theorem Tree.validate_of_ofText {text : String} {t : Tree} (h : ofText text = .ok t) :
    validate text = .ok () := by
  obtain ⟨toks, htoks, hof⟩ := ofText_eq_ok_iff.mp h
  obtain ⟨ps, q, x, hps, -, -, -, hd⟩ := derives_of_ofTokens hof
  have hlex : Lexes text.toList ps := lexes_of_items htoks hps
  have hend : (ps.foldl State.take .start).Ended := hd.foldl_take (.inl rfl)
  rw [validate_eq_ok_iff]
  constructor
  · have hfollows := hlex.follows (.inl rfl) (s := .start) (r := .start)
      (by rcases hend with he | he <;> rw [he] <;> decide)
    rcases hfollows with he | ⟨-, he⟩
    · rw [he]
      rcases hend with he | he <;> rw [he] <;> rfl
    · rw [he]
      rfl
  · exact (hlex.countP_holds (k := .opening) (by decide) (by decide)).trans
      (hd.countP_brackets.trans (hlex.countP_holds (k := .closing) (by decide) (by decide)).symm)

end WordExpr
