import WordExpr.Proofs.Spelling.Lexemes

/-!
# No character is lost

A text is cut into tokens up to its first character outside the alphabet, which is the `complaint`
that comes behind them.

* `Lexeme cs t`      a token that stands in `cs`: a word that goes on to neither side, or an
                     operator or a bracket, with its place;
* `Laid n toks cs`   the tokens, each at its offset, with nothing but whitespace around them, are
                     the characters `cs` from byte `n` on;
* `Cursor.call`      one call for an item, at the end of the text too, where there is none.

`tokenize_lossless`: the tokens are laid out over the text and are all its lexemes, and calls give
them one after the other, from places between characters only.
-/

namespace WordExpr

def inAlphabet (c : Char) : Bool := (CharClass.of? c).isSome

/-- the first character outside the alphabet, if there is one -/
def complaint (offset : Nat) (cs : List Char) : List Item :=
  match cs.dropWhile inAlphabet with
  | [] => []
  | c :: _ => [.error (.unexpected c (offset + byteLength (cs.takeWhile inAlphabet)))]

/-- just past the last byte -/
def Token.past (t : Token) : Nat := t.offset + t.text.utf8ByteSize

/-! ## lexemes -/

/-- no word comes up to here -/
def BeginsWord (before : List Char) : Prop := ∀ c ∈ before.getLast?, isTermChar c = false

theorem beginsWord_concat_iff {before : List Char} {c : Char} :
    BeginsWord (before ++ [c]) ↔ isTermChar c = false := by
  unfold BeginsWord
  rw [List.getLast?_concat]
  exact ⟨fun h => h c rfl, fun hc d hd => Option.some.inj hd ▸ hc⟩

/-- a lexeme between `before` and the rest of a text -/
inductive LexemeHere (before : List Char) : List Char → Token → Prop where
  | word {w rest : List Char} (hw : IsWord w) (hbegin : BeginsWord before) (hend : EndsWord rest) :
    LexemeHere before (w ++ rest) ⟨.term, .ofList w, byteLength before⟩
  | char {c : Char} {k : CharClass} {rest : List Char} (hc : CharClass.of? c = some k)
    (hterm : k ≠ .term) (hwhite : k ≠ .whitespace) :
    LexemeHere before (c :: rest) ⟨k.kind, .singleton c, byteLength before⟩

/-- a lexeme of `cs`, which stands behind `before` -/
def LexemeFrom (before cs : List Char) (t : Token) : Prop :=
  ∃ u v, cs = u ++ v ∧ LexemeHere (before ++ u) v t

def Lexeme (cs : List Char) (t : Token) : Prop := LexemeFrom [] cs t

section

variable {before w cs rest : List Char} {c : Char} {k : CharClass} {t : Token}

namespace LexemeHere

theorem kind_ne (h : LexemeHere before cs t) : t.kind ≠ .whitespace := by
  cases h with
  | word => exact nofun
  | @char c k rest hc hterm hwhite =>
    cases k with
    | whitespace => exact absurd rfl hwhite
    | term | binaryOperator | unaryOperator | opening | closing => exact nofun

theorem ne_nil (h : LexemeHere before cs t) : cs ≠ [] := by
  cases h with
  | word hw => exact List.append_ne_nil_of_left_ne_nil hw.1 _
  | char => exact List.cons_ne_nil _ _

theorem offset_lt_past (h : LexemeHere before cs t) : t.offset < t.past := by
  refine Nat.lt_add_of_pos_right (Nat.pos_of_ne_zero ?_)
  rw [Ne, String.utf8ByteSize_eq_zero_iff]
  cases h with
  | word hw => exact fun h => hw.1 (String.ofList_eq_empty_iff.mp h)
  | char => exact String.singleton_ne_empty

/-- whitespace begins no lexeme, and any other single character is one -/
theorem class_of_cons (h : LexemeHere before (c :: cs) t) (hc : CharClass.of? c = some k)
    (hterm : k ≠ .term) : k ≠ .whitespace ∧ t = ⟨k.kind, .singleton c, byteLength before⟩ := by
  generalize hcs : c :: cs = ds at h
  cases h with
  | word hw =>
    obtain ⟨d, w, rfl, hd⟩ := hw.exists_cons
    obtain ⟨rfl, -⟩ := List.cons.inj hcs
    rw [CharClass.of?_of_isTermChar hd] at hc
    exact absurd (Option.some.inj hc).symm hterm
  | char hd _ hwhite =>
    obtain ⟨rfl, -⟩ := List.cons.inj hcs
    rw [hd] at hc
    obtain rfl := Option.some.inj hc
    exact ⟨hwhite, rfl⟩

theorem word_iff (hw : IsWord w) (hend : EndsWord rest) : LexemeHere before (w ++ rest) t ↔
    BeginsWord before ∧ t = ⟨.term, .ofList w, byteLength before⟩ := by
  constructor
  · intro h
    generalize hcs : w ++ rest = ds at h
    cases h with
    | @word w' rest' hw' hbegin hend' =>
      have htake := congrArg (List.takeWhile isTermChar) hcs
      rw [(Cursor.takeWhile_append hw.2 hend).1, (Cursor.takeWhile_append hw'.2 hend').1] at htake
      exact ⟨hbegin, by rw [htake]⟩
    | char hd hterm =>
      obtain ⟨c, w, rfl, hc⟩ := hw.exists_cons
      obtain ⟨rfl, -⟩ := List.cons.inj hcs
      rw [CharClass.of?_of_isTermChar hc] at hd
      exact absurd (Option.some.inj hd).symm hterm
  · rintro ⟨hbegin, rfl⟩
    exact .word hw hbegin hend

end LexemeHere

/-! ## one step further -/

namespace LexemeFrom

theorem not_nil : ¬ LexemeFrom before [] t := by
  rintro ⟨u, v, hnil, h⟩
  exact h.ne_nil (List.append_eq_nil_iff.mp hnil.symm).2

theorem cons_iff : LexemeFrom before (c :: cs) t ↔
    LexemeHere before (c :: cs) t ∨ LexemeFrom (before ++ [c]) cs t := by
  constructor
  · rintro ⟨u, v, hcs, h⟩
    cases u with
    | nil =>
      obtain rfl : c :: cs = v := hcs
      exact .inl (by rwa [List.append_nil] at h)
    | cons d u =>
      obtain ⟨rfl, rfl⟩ := List.cons.inj hcs
      exact .inr ⟨u, v, rfl, by rwa [List.append_assoc]⟩
  · rintro (h | ⟨u, v, rfl, h⟩)
    · exact ⟨[], c :: cs, rfl, by rwa [List.append_nil]⟩
    · exact ⟨c :: u, v, rfl, by rwa [List.append_assoc] at h⟩

theorem whitespace_iff (hc : isWhitespace c = true) :
    LexemeFrom before (c :: cs) t ↔ LexemeFrom (before ++ [c]) cs t := by
  have hclass : CharClass.of? c = some .whitespace := CharClass.of?_eq_some_iff.mpr hc
  rw [cons_iff]
  exact or_iff_right fun h => (h.class_of_cons hclass (by decide)).1 rfl

theorem char_iff (hc : CharClass.of? c = some k) (hterm : k ≠ .term) (hwhite : k ≠ .whitespace) :
    LexemeFrom before (c :: cs) t ↔
      t = ⟨k.kind, .singleton c, byteLength before⟩ ∨ LexemeFrom (before ++ [c]) cs t := by
  have hhere : LexemeHere before (c :: cs) t ↔ t = ⟨k.kind, .singleton c, byteLength before⟩ := by
    constructor
    · exact fun h => (h.class_of_cons hc hterm).2
    · rintro rfl
      exact .char hc hterm hwhite
  rw [cons_iff, hhere]

/-- no lexeme begins in the middle of a word -/
theorem middle_iff (hw : ∀ c ∈ w, isTermChar c = true) (hend : EndsWord rest)
    (hmiddle : ¬ BeginsWord before) :
    LexemeFrom before (w ++ rest) t ↔ LexemeFrom (before ++ w) rest t := by
  induction w generalizing before with
  | nil => rw [List.append_nil, List.nil_append]
  | cons c w ih =>
    obtain ⟨hc, hw'⟩ := List.forall_mem_cons.mp hw
    have hmiddle' : ¬ BeginsWord (before ++ [c]) := by
      rw [beginsWord_concat_iff, hc]
      exact Bool.noConfusion
    have hnot : ¬ LexemeHere before (c :: (w ++ rest)) t :=
      fun h => hmiddle ((LexemeHere.word_iff ⟨List.cons_ne_nil c w, hw⟩ hend).mp h).1
    rw [List.cons_append, cons_iff, or_iff_right hnot, ih hw' hmiddle', List.append_assoc]
    rfl

theorem word_iff (hw : IsWord w) (hbegin : BeginsWord before) (hend : EndsWord rest) :
    LexemeFrom before (w ++ rest) t ↔
      t = ⟨.term, .ofList w, byteLength before⟩ ∨ LexemeFrom (before ++ w) rest t := by
  have hhere : LexemeHere before (w ++ rest) t ↔ t = ⟨.term, .ofList w, byteLength before⟩ :=
    (LexemeHere.word_iff hw hend).trans (and_iff_right hbegin)
  obtain ⟨c, w, rfl, hc⟩ := hw.exists_cons
  have hmiddle : ¬ BeginsWord (before ++ [c]) := by
    rw [beginsWord_concat_iff, hc]
    exact Bool.noConfusion
  rw [List.cons_append, cons_iff, ← List.cons_append, hhere,
    middle_iff (List.forall_mem_cons.mp hw.2).2 hend hmiddle, List.append_assoc]
  rfl

end LexemeFrom

end

/-! ## tokens laid out -/

inductive Laid : Nat → List Token → List Char → Prop where
  | nil {offset : Nat} {gap : List Char} (hgap : ∀ c ∈ gap, isWhitespace c = true) :
    Laid offset [] gap
  | cons {offset : Nat} {gap rest : List Char} {t : Token} {toks : List Token}
    (hgap : ∀ c ∈ gap, isWhitespace c = true) (ht : t.offset = offset + byteLength gap)
    (h : Laid t.past toks rest) : Laid offset (t :: toks) (gap ++ (t.text.toList ++ rest))

namespace Laid

variable {offset : Nat} {toks : List Token} {cs : List Char} {c : Char}

theorem whitespace (hc : isWhitespace c = true) (h : Laid (offset + c.utf8Size) toks cs) :
    Laid offset toks (c :: cs) := by
  cases h with
  | nil hgap => exact .nil (List.forall_mem_cons.mpr ⟨hc, hgap⟩)
  | cons hgap ht h =>
    rw [← List.cons_append]
    refine .cons (List.forall_mem_cons.mpr ⟨hc, hgap⟩) ?_ h
    rw [ht, byteLength_cons, Nat.add_assoc]

/-- a token right at the beginning -/
theorem token {kind : TokenKind} {w : List Char} (h : Laid (offset + byteLength w) toks cs) :
    Laid offset (⟨kind, .ofList w, offset⟩ :: toks) (w ++ cs) := by
  have hnil : ∀ c ∈ ([] : List Char), isWhitespace c = true := fun c hc => nomatch hc
  have ht : (⟨kind, .ofList w, offset⟩ : Token).offset = offset + byteLength [] := rfl
  have hlaid := Laid.cons hnil ht h
  rwa [List.nil_append, String.toList_ofList] at hlaid

theorem le_offset (h : Laid offset toks cs) : ∀ t ∈ toks, offset ≤ t.offset := by
  induction h with
  | nil hgap => exact fun t ht => nomatch ht
  | cons hgap ht h ih =>
    refine List.forall_mem_cons.mpr ⟨by rw [ht]; exact Nat.le_add_right .., fun u hu => ?_⟩
    have hle := ih u hu
    rw [Token.past, ht] at hle
    omega

theorem pairwise (h : Laid offset toks cs) (hne : ∀ t ∈ toks, t.offset < t.past) :
    toks.Pairwise (·.offset < ·.offset) := by
  induction h with
  | nil hgap => exact .nil
  | cons hgap ht h ih =>
    obtain ⟨hlt, hne⟩ := List.forall_mem_cons.mp hne
    exact .cons (fun u hu => Nat.lt_of_lt_of_le hlt (h.le_offset u hu)) (ih hne)

end Laid

/-! ## up to the first character outside the alphabet -/

section

variable {w cs rest : List Char} {c : Char} {k : CharClass}

theorem inAlphabet_of_class (hc : CharClass.of? c = some k) : inAlphabet c = true := by
  rw [inAlphabet, hc]
  rfl

theorem not_inAlphabet_iff : ¬ inAlphabet c = true ↔ CharClass.of? c = none := by
  rw [inAlphabet, Bool.not_eq_true, Option.isSome_eq_false_iff, Option.isNone_iff_eq_none]

theorem takeWhile_inAlphabet_word (hw : IsWord w) :
    (w ++ rest).takeWhile inAlphabet = w ++ rest.takeWhile inAlphabet :=
  List.takeWhile_append_of_pos fun c hc =>
    inAlphabet_of_class (CharClass.of?_of_isTermChar (hw.2 c hc))

theorem EndsWord.takeWhile (h : EndsWord cs) : EndsWord (cs.takeWhile inAlphabet) := by
  intro c hc
  obtain ⟨ds, hds⟩ := List.head?_eq_some_iff.mp hc
  obtain ⟨more, hmore⟩ := List.takeWhile_prefix (l := cs) inAlphabet
  rw [hds] at hmore
  exact h c (by rw [← hmore]; rfl)

theorem complaint_word (hw : IsWord w) (offset : Nat) :
    complaint offset (w ++ rest) = complaint (offset + byteLength w) rest := by
  have hdrop : (w ++ rest).dropWhile inAlphabet = rest.dropWhile inAlphabet :=
    List.dropWhile_append_of_pos fun c hc =>
      inAlphabet_of_class (CharClass.of?_of_isTermChar (hw.2 c hc))
  rw [complaint, hdrop, takeWhile_inAlphabet_word hw, byteLength_append, ← Nat.add_assoc]
  rfl

theorem complaint_cons (hc : CharClass.of? c = some k) (offset : Nat) :
    complaint offset (c :: cs) = complaint (offset + c.utf8Size) cs := by
  have halpha := inAlphabet_of_class hc
  rw [complaint, List.takeWhile_cons_of_pos halpha, List.dropWhile_cons_of_pos halpha,
    byteLength_cons, ← Nat.add_assoc]
  rfl

theorem complaint_foreign (hc : CharClass.of? c = none) (offset : Nat) :
    complaint offset (c :: cs) = [.error (.unexpected c offset)] := by
  have hnot := not_inAlphabet_iff.mpr hc
  rw [complaint, List.takeWhile_cons_of_neg hnot, List.dropWhile_cons_of_neg hnot]
  rfl

end

/-! ## what a text is cut into -/

/-- the tokens of `cs`, which stands behind `before` -/
structure CutInto (before cs : List Char) (toks : List Token) : Prop where
  items : Cursor.items ⟨cs, byteLength before⟩ = toks.map .ok ++ complaint (byteLength before) cs
  laid : Laid (byteLength before) toks (cs.takeWhile inAlphabet)
  mem_iff : ∀ t, t ∈ toks ↔ LexemeFrom before (cs.takeWhile inAlphabet) t

namespace CutInto

variable {before w cs rest : List Char} {c : Char} {k : CharClass} {toks : List Token}

theorem of_takeWhile_eq_nil (hcs : cs.takeWhile inAlphabet = [])
    (hitems : Cursor.items ⟨cs, byteLength before⟩ = complaint (byteLength before) cs) :
    CutInto before cs [] where
  items := hitems
  laid := by
    rw [hcs]
    exact .nil fun c hc => nomatch hc
  mem_iff t := by
    rw [hcs]
    exact iff_of_false (fun h => nomatch h) LexemeFrom.not_nil

theorem whitespace (hc : isWhitespace c = true) (h : CutInto (before ++ [c]) cs toks) :
    CutInto before (c :: cs) toks := by
  have hclass : CharClass.of? c = some .whitespace := CharClass.of?_eq_some_iff.mpr hc
  obtain ⟨hitems, hlaid, hmem⟩ := h
  rw [byteLength_append, byteLength_singleton] at hitems hlaid
  refine ⟨?_, ?_, fun t => ?_⟩
  · rw [Cursor.items_whitespace hc, hitems, complaint_cons hclass]
  · rw [List.takeWhile_cons_of_pos (inAlphabet_of_class hclass)]
    exact hlaid.whitespace hc
  · rw [List.takeWhile_cons_of_pos (inAlphabet_of_class hclass), LexemeFrom.whitespace_iff hc,
      hmem]

theorem char (hc : CharClass.of? c = some k) (hterm : k ≠ .term) (hwhite : k ≠ .whitespace)
    (h : CutInto (before ++ [c]) cs toks) :
    CutInto before (c :: cs) (⟨k.kind, .singleton c, byteLength before⟩ :: toks) := by
  obtain ⟨hitems, hlaid, hmem⟩ := h
  rw [byteLength_append, byteLength_singleton] at hitems hlaid
  refine ⟨?_, ?_, fun t => ?_⟩
  · rw [Cursor.items_char hc hterm hwhite, hitems, complaint_cons hc]
    rfl
  · rw [List.takeWhile_cons_of_pos (inAlphabet_of_class hc), String.singleton_eq_ofList]
    rw [← byteLength_singleton] at hlaid
    exact hlaid.token
  · rw [List.takeWhile_cons_of_pos (inAlphabet_of_class hc), List.mem_cons,
      LexemeFrom.char_iff hc hterm hwhite, hmem]

theorem word (hw : IsWord w) (hbegin : BeginsWord before) (hend : EndsWord rest)
    (h : CutInto (before ++ w) rest toks) :
    CutInto before (w ++ rest) (⟨.term, .ofList w, byteLength before⟩ :: toks) := by
  obtain ⟨hitems, hlaid, hmem⟩ := h
  rw [byteLength_append] at hitems hlaid
  refine ⟨?_, ?_, fun t => ?_⟩
  · rw [Cursor.items_word hw hend, hitems, complaint_word hw]
    rfl
  · rw [takeWhile_inAlphabet_word hw]
    exact hlaid.token
  · rw [takeWhile_inAlphabet_word hw, List.mem_cons,
      LexemeFrom.word_iff hw hbegin hend.takeWhile, hmem]

end CutInto

/-- from any place where no word is going on -/
theorem exists_cutInto {before cs : List Char} (h : BeginsWord before ∨ EndsWord cs) :
    ∃ toks, CutInto before cs toks := by
  induction cs using lexeme_induction generalizing before with
  | nil => exact ⟨[], .of_takeWhile_eq_nil rfl (Cursor.items_of_none rfl)⟩
  | whitespace c cs hc ih =>
    have hbegin : BeginsWord (before ++ [c]) := beginsWord_concat_iff.mpr
      (CharClass.holds_eq_false (k := .whitespace) (j := .term) (CharClass.of?_eq_some_iff.mpr hc)
        (by decide))
    obtain ⟨toks, htoks⟩ := ih (.inl hbegin)
    exact ⟨toks, htoks.whitespace hc⟩
  | word w rest hw hend ih =>
    have hbegin : BeginsWord before := by
      rcases h with h | h
      · exact h
      · obtain ⟨c, w, rfl, hc⟩ := hw.exists_cons
        rw [h c rfl] at hc
        cases hc
    obtain ⟨toks, htoks⟩ : ∃ toks, CutInto (before ++ w) rest toks := ih (.inr hend)
    exact ⟨_, htoks.word hw hbegin hend⟩
  | char c k cs hc hterm hwhite ih =>
    have hbegin : BeginsWord (before ++ [c]) :=
      beginsWord_concat_iff.mpr (CharClass.holds_eq_false (j := .term) hc hterm)
    obtain ⟨toks, htoks⟩ := ih (.inl hbegin)
    exact ⟨_, htoks.char hc hterm hwhite⟩
  | foreign c cs hc =>
    refine ⟨[], .of_takeWhile_eq_nil ?_ ?_⟩
    · exact List.takeWhile_cons_of_neg (not_inAlphabet_iff.mpr hc)
    · rw [Cursor.items_foreign hc, complaint_foreign hc]

/-! ## one call after the other -/

namespace Cursor

/-- without an item the cursor is left at the end -/
def call (p : Cursor) : Option Item × Cursor :=
  match p.next with
  | none => (none, ⟨[], p.offset + byteLength p.rest⟩)
  | some (item, q) => (some item, q)

def afterCalls (p : Cursor) : Nat → Cursor
  | 0 => p
  | n + 1 => p.call.2.afterCalls n

theorem call_eq (p : Cursor) : p.call.1 = p.items.head? ∧ p.call.2.items = p.items.tail := by
  unfold call
  cases h : p.next with
  | none =>
    rw [items_of_none h]
    exact ⟨rfl, items_of_none rfl⟩
  | some step =>
    rw [items_of_some h]
    exact ⟨rfl, rfl⟩

theorem call_afterCalls (p : Cursor) (n : Nat) : (p.afterCalls n).call.1 = p.items[n]? := by
  induction n generalizing p with
  | zero => rw [afterCalls, p.call_eq.1, List.head?_eq_getElem?]
  | succ n ih => rw [afterCalls, ih, p.call_eq.2, List.getElem?_tail]

/-- the cursor has some whole characters of `cs` behind it -/
def Within (cs : List Char) (p : Cursor) : Prop :=
  ∃ before, cs = before ++ p.rest ∧ p.offset = byteLength before

variable {cs : List Char} {p q : Cursor}

theorem within_nextFrom {offset : Nat} {item : Item} (h : nextFrom offset cs = some (item, q)) :
    ∃ before, cs = before ++ q.rest ∧ q.offset = offset + byteLength before := by
  induction cs generalizing offset with
  | nil => cases h
  | cons c cs ih =>
    rw [nextFrom] at h
    split at h
    · cases h
      exact ⟨c :: cs, (List.append_nil _).symm, rfl⟩
    · obtain ⟨before, rfl, hoffset⟩ := ih h
      exact ⟨c :: before, rfl, by rw [hoffset, byteLength_cons, Nat.add_assoc]⟩
    · cases h
      refine ⟨c :: cs.takeWhile isTermChar, ?_, rfl⟩
      rw [List.cons_append, List.takeWhile_append_dropWhile]
    · cases h
      exact ⟨[c], rfl, by rw [byteLength_singleton]⟩

theorem Within.call (h : p.Within cs) : p.call.2.Within cs := by
  obtain ⟨before, rfl, hoffset⟩ := h
  unfold Cursor.call
  cases hnext : p.next with
  | none =>
    refine ⟨before ++ p.rest, (List.append_nil _).symm, ?_⟩
    rw [byteLength_append, ← hoffset]
  | some step =>
    obtain ⟨more, hrest, hq⟩ := within_nextFrom hnext
    refine ⟨before ++ more, by rw [hrest, List.append_assoc], ?_⟩
    rw [byteLength_append, ← hoffset]
    exact hq

theorem Within.afterCalls (h : p.Within cs) (n : Nat) : (p.afterCalls n).Within cs := by
  induction n generalizing p with
  | zero => exact h
  | succ n ih => exact ih h.call

theorem Within.isValid {text : String} (h : p.Within text.toList) :
    (⟨p.offset⟩ : String.Pos.Raw).IsValid text := by
  obtain ⟨before, htext, hoffset⟩ := h
  refine String.Pos.Raw.isValid_iff_exists_append.mpr ⟨.ofList before, .ofList p.rest, ?_, ?_⟩
  · rw [← String.ofList_append, ← htext, String.ofList_toList]
  · rw [hoffset]
    rfl

end Cursor

/-- **No character is lost.** The tokens of a text are its lexemes up to the first character outside
the alphabet, from left to right and with nothing but whitespace around them, and this character is
all that comes behind them. Calls give these items in order and nothing more, however many there
are, and every call starts between two characters. -/
theorem tokenize_lossless (text : String) : ∃ toks : List Token,
    tokenize text = toks.map .ok ++ complaint 0 text.toList ∧
    Laid 0 toks (text.toList.takeWhile inAlphabet) ∧
    (∀ t, t ∈ toks ↔ Lexeme (text.toList.takeWhile inAlphabet) t) ∧
    toks.Pairwise (·.offset < ·.offset) ∧ (∀ t ∈ toks, t.kind ≠ .whitespace) ∧
    ∀ n, (Cursor.afterCalls ⟨text.toList, 0⟩ n).call.1 = (tokenize text)[n]? ∧
      (⟨(Cursor.afterCalls ⟨text.toList, 0⟩ n).offset⟩ : String.Pos.Raw).IsValid text := by
  obtain ⟨toks, hitems, hlaid, hmem⟩ : ∃ toks, CutInto [] text.toList toks :=
    exists_cutInto (.inl fun c hc => nomatch hc)
  refine ⟨toks, hitems, hlaid, hmem, hlaid.pairwise fun t ht => ?_, fun t ht => ?_, fun n => ?_⟩
  · obtain ⟨u, v, -, h⟩ := (hmem t).mp ht
    exact h.offset_lt_past
  · obtain ⟨u, v, -, h⟩ := (hmem t).mp ht
    exact h.kind_ne
  · have hstart : Cursor.Within text.toList ⟨text.toList, 0⟩ := ⟨[], rfl, rfl⟩
    exact ⟨Cursor.call_afterCalls _ n, (hstart.afterCalls n).isValid⟩

/-- a word that is cut short, behind it the place of a character of two bytes -/
example : tokenize " (ab\tcé + d" = [.ok ⟨.bracket, "(", 1⟩, .ok ⟨.term, "ab", 2⟩,
    .ok ⟨.term, "c", 5⟩, .error (.unexpected 'é' 6)] := by cbv

end WordExpr
