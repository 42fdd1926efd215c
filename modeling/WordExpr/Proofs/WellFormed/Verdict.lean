import WordExpr.Proofs.WellFormed.Agreement
import WordExpr.Proofs.WellFormed.Offences

/-!
# What the builder reports of a well-formed text

The builder fails on a well-formed text without whitespace exactly if there is an offence in it, and
reports the first one (`Tree.ofText_error_of_validate`).

`Builder.Passed` is what holds along the text, token by token: as long as there was no offence, the
builder agrees with the automaton, and its depth is the number of brackets that are open.
-/

namespace WordExpr

theorem State.step_ne_refused {cs : List Char} {c : Char} {k : CharClass}
    (hc : CharClass.of? c = some k) (h : (cs ++ [c]).foldl read .start ≠ .refused) :
    (cs.foldl read .start).step k ≠ .refused := by
  rw [List.foldl_append] at h
  rw [← read_of_class hc]
  exact h

/-- only a word that ends right here leads into a term -/
theorem State.foldl_read_eq_term_iff {cs : List Char} (h : cs.foldl read .start ≠ .refused) :
    cs.foldl read .start = .term ↔ ∃ d ∈ cs.getLast?, isTermChar d = true := by
  rcases List.eq_nil_or_concat' cs with rfl | ⟨cs, c, rfl⟩
  · exact iff_of_false (nomatch ·) (fun ⟨_, hd, _⟩ => nomatch hd)
  rw [List.foldl_append] at h ⊢
  show State.read _ c = _ ↔ _
  change State.read _ c ≠ _ at h
  constructor
  · intro hterm
    refine ⟨c, List.getLast?_concat, ?_⟩
    unfold read at hterm
    split at hterm
    · next k hk =>
      rw [class_of_step_eq_term hterm] at hk
      exact CharClass.of?_eq_some_iff.mp hk
    · cases hterm
  · rintro ⟨d, hd, hterm⟩
    rw [List.getLast?_concat] at hd
    cases hd
    have hread := read_of_class (CharClass.of?_of_isTermChar hterm) (cs.foldl read .start)
    rw [hread] at h ⊢
    exact step_term_eq h

namespace Builder

/-- a builder behind the part `before` of a text in which there was no offence -/
structure Passed (b : Builder) (before rest : List Char) : Prop where
  clean : CleanUpTo (before ++ rest) before.length
  agrees : b.Agrees (before.foldl State.read .start)
  depth : b.depth + before.countP isClosing = before.countP isOpening
  apart : (∃ d ∈ before.getLast?, isTermChar d = true) → EndsWord rest

/-- a token that is wrong is reported, any other one is passed -/
def Judges (b : Builder) (before w rest : List Char) (tok : Token) : Prop :=
  (∃ b' e, b.push tok = (b', some e) ∧ Offence before (w ++ rest) e) ∨
    ∃ b', b.push tok = (b', none) ∧ b'.Passed (before ++ w) rest

namespace Passed

variable {b b' : Builder} {before w rest : List Char} {tok : Token}

theorem start (cs : List Char) : Passed {} [] cs where
  clean _ _ _ _ _ := Nat.zero_le _
  agrees := .start
  depth := rfl
  apart := fun ⟨_, hd, _⟩ => nomatch hd

/-- a word starts where no other one is going on -/
theorem forall_getLast? (h : b.Passed before (w ++ rest)) (hw : IsWord w) :
    ∀ d ∈ before.getLast?, isTermChar d = false := by
  intro d hd
  rw [Bool.eq_false_iff]
  intro hterm
  obtain ⟨c, w, rfl, hc⟩ := hw.exists_cons
  rw [h.apart ⟨d, hd, hterm⟩ c rfl] at hc
  cases hc

theorem word (h : b.Passed before (w ++ rest)) (hw : IsWord w) (hend : EndsWord rest)
    (hr : (before ++ w).foldl State.read .start ≠ .refused) (hkind : tok.kind = .term)
    (htext : tok.text = String.ofList w) : b.Judges before w rest tok := by
  have hb := h.forall_getLast? hw
  rw [List.foldl_append] at hr
  obtain ⟨hstep, hterm⟩ := State.foldl_read_eq_term hw hr
  have hne : before.foldl State.read .start ≠ .term := fun hs => by
    obtain ⟨d, hd, hd'⟩ :=
      (State.foldl_read_eq_term_iff (State.ne_refused_of_foldl_read hr)).mp hs
    rw [hb d hd] at hd'
    cases hd'
  cases hs : Symbol.ofTerm tok.text with
  | error e =>
    obtain ⟨b', hb'⟩ := Agrees.push_illegible b hkind hs
    rw [htext] at hs hb'
    exact .inl ⟨b', _, hb', .illegible hb hw hend fun s hok => by rw [hs] at hok; cases hok⟩
  | ok s =>
    obtain ⟨a, rfl⟩ := Symbol.exists_atom_of_ofTerm hs
    obtain ⟨b', hb', hagrees, hdepth⟩ := h.agrees.push_term hstep hne hkind hs
    refine .inr ⟨b', hb', ?_, ?_, ?_, fun _ => hend⟩
    · refine h.clean.append_word hw.2 fun e ho => ?_
      -- the only word that could be wrong here is this one
      obtain ⟨c, w, rfl, hc⟩ := hw.exists_cons
      obtain ⟨-, w', rest', he, hw', hr', hno, -⟩ := Offence.of_isTermChar ho hc
      have hword := congrArg (List.takeWhile isTermChar) he
      rw [(Cursor.takeWhile_append hw'.2 hr').1] at hword
      have hsame := (Cursor.takeWhile_append hw.2 hend).1.symm.trans hword
      rw [htext, hsame] at hs
      exact hno _ hs
    · rw [List.foldl_append, hterm, ← State.step_term_eq hstep]
      exact hagrees
    · have ho := CharClass.countP_holds_of_isWord (k := .opening) hw (by decide)
      have hc := CharClass.countP_holds_of_isWord (k := .closing) hw (by decide)
      rw [List.countP_append, List.countP_append, hdepth]
      show _ + (_ + w.countP CharClass.closing.holds) = _ + w.countP CharClass.opening.holds
      rw [ho, hc]
      exact h.depth

/-- any other character, once it is taken -/
theorem append_char {c : Char} {k : CharClass} (h : b.Passed before (c :: rest))
    (hc : CharClass.of? c = some k) (hk : k ≠ .term)
    (hno : ∀ e, ¬ Offence before (c :: rest) e)
    (hagrees : b'.Agrees ((before.foldl State.read .start).step k))
    (hdepth : b'.depth + (if isClosing c then 1 else 0) = b.depth + if isOpening c then 1 else 0) :
    b'.Passed (before ++ [c]) rest where
  clean := h.clean.append_char hno
  agrees := by
    rw [List.foldl_append]
    show b'.Agrees (State.read _ c)
    rw [State.read_of_class hc]
    exact hagrees
  depth := by
    have hd := h.depth
    rw [List.countP_append, List.countP_append, List.countP_singleton, List.countP_singleton]
    omega
  apart := by
    rintro ⟨d, hd, hterm⟩
    rw [List.getLast?_concat] at hd
    cases hd
    rw [CharClass.of?_of_isTermChar hterm] at hc
    exact absurd (Option.some.inj hc).symm hk

/-- the token of a single character behind what has been passed -/
abbrev single (before : List Char) (c : Char) (k : CharClass) : Token :=
  ⟨k.kind, String.singleton c, byteLength before⟩

theorem opening {c : Char} (h : b.Passed before (c :: rest)) (hc : CharClass.of? c = some .opening)
    (hr : (before ++ [c]).foldl State.read .start ≠ .refused) :
    b.Judges before [c] rest (single before c .opening) := by
  have ho : isOpening c = true := CharClass.of?_eq_some_iff.mp hc
  have hn : isClosing c = false := CharClass.holds_eq_false (j := .closing) hc (by decide)
  have hfirst : (single before c .opening).firstChar = c := Token.firstChar_singleton ..
  have hbefore : before.foldl State.read .start ≠ .refused := by
    rw [List.foldl_append] at hr
    exact State.ne_refused_of_foldl_read hr
  have hiff := State.foldl_read_eq_term_iff hbefore
  by_cases hs : before.foldl State.read .start = .term
  · obtain ⟨b', hb'⟩ := (hs ▸ h.agrees).push_opening_of_term rfl (hfirst ▸ ho)
    exact .inl ⟨b', _, hb', .call (hiff.mp hs) ho⟩
  · obtain ⟨b', hb', hagrees, hdepth⟩ :=
      h.agrees.push_opening (State.step_ne_refused hc hr) hs rfl (hfirst ▸ ho)
    refine .inr ⟨b', hb', h.append_char hc (by decide) (fun e he => ?_) hagrees
      (by simp [ho, hn, hdepth])⟩
    rcases he.of_class hc (by decide) with ⟨-, hlast, -⟩ | ⟨hk, -⟩
    · exact hs (hiff.mpr hlast)
    · cases hk

theorem closing {c : Char} (h : b.Passed before (c :: rest)) (hc : CharClass.of? c = some .closing)
    (hr : (before ++ [c]).foldl State.read .start ≠ .refused) :
    b.Judges before [c] rest (single before c .closing) := by
  have hn : isClosing c = true := CharClass.of?_eq_some_iff.mp hc
  have ho : isOpening c = false := CharClass.holds_eq_false (j := .opening) hc (by decide)
  have hfirst : (single before c .closing).firstChar = c := Token.firstChar_singleton ..
  have hd := h.depth
  have hcount : (before ++ [c]).countP isOpening < (before ++ [c]).countP isClosing ↔
      b.depth = 0 := by
    simp only [List.countP_append, List.countP_singleton, ho, hn, Bool.false_eq_true, if_false,
      if_true]
    omega
  by_cases hdepth : b.depth = 0
  · obtain ⟨b', hb'⟩ := Agrees.push_unmatched b hdepth rfl (hfirst ▸ ho)
    exact .inl ⟨b', _, hb', .unmatched hn (hcount.mpr hdepth)⟩
  · obtain ⟨b', hb', hagrees, hdepth'⟩ :=
      h.agrees.push_closing (State.step_ne_refused hc hr) hdepth rfl (hfirst ▸ ho)
    refine .inr ⟨b', hb', h.append_char hc (by decide) (fun e he => ?_) hagrees
      (by simp [ho, hn, hdepth'])⟩
    rcases he.of_class hc (by decide) with ⟨hk, -⟩ | ⟨-, hlt, -⟩
    · cases hk
    · exact hdepth (hcount.mp hlt)

theorem operator {c : Char} {k : CharClass} (h : b.Passed before (c :: rest))
    (hc : CharClass.of? c = some k) (hk : k.kind = .operator)
    (hr : (before ++ [c]).foldl State.read .start ≠ .refused) :
    b.Judges before [c] rest (single before c k) := by
  have hne : ∀ {j : CharClass}, j.kind ≠ .operator → k ≠ j := by
    rintro j hj rfl
    exact hj hk
  have ho : isOpening c = false := CharClass.holds_eq_false (j := .opening) hc (hne (by decide))
  have hn : isClosing c = false := CharClass.holds_eq_false (j := .closing) hc (hne (by decide))
  have hfirst : (single before c k).firstChar = c := Token.firstChar_singleton ..
  obtain ⟨b', hb', hagrees, hdepth⟩ :=
    h.agrees.push_operator (hfirst ▸ hc) (State.step_ne_refused hc hr) hk hk
  refine .inr ⟨b', hb', h.append_char hc (hne (by decide)) (fun e he => ?_) hagrees
    (by simp [ho, hn, hdepth])⟩
  rcases he.of_class hc (hne (by decide)) with ⟨rfl, -⟩ | ⟨rfl, -⟩
  · cases hk
  · cases hk

theorem char {c : Char} {k : CharClass} (h : b.Passed before (c :: rest))
    (hc : CharClass.of? c = some k) (hterm : k ≠ .term) (hwhite : k ≠ .whitespace)
    (hr : (before ++ [c]).foldl State.read .start ≠ .refused) :
    b.Judges before [c] rest (single before c k) := by
  cases k with
  | term => exact absurd rfl hterm
  | whitespace => exact absurd rfl hwhite
  | opening => exact h.opening hc hr
  | closing => exact h.closing hc hr
  | binaryOperator | unaryOperator => exact h.operator hc rfl hr

end Passed

/-! ## the whole text -/

variable {b b' : Builder} {tok : Token} {items : List Item} {e : ParseError}

theorem pushAll_cons (h : b.push tok = (b', none)) :
    b.pushAll (.ok tok :: items) = b'.pushAll items := by
  rw [pushAll, h]

theorem pushAll_cons_error (h : b.push tok = (b', some e)) :
    b.pushAll (.ok tok :: items) = .error e := by
  rw [pushAll, h]

/-- what becomes of the rest of a text: there is no offence in it and a tree at its end, or the
first offence is reported -/
def Decides (b : Builder) (before rest : List Char) : Prop :=
  ((∃ t, (b.pushAll (Cursor.items ⟨rest, byteLength before⟩)).bind finish = .ok t) ∧
      ∀ u v e, before ++ rest = u ++ v → ¬ Offence u v e) ∨
    ∃ e, (b.pushAll (Cursor.items ⟨rest, byteLength before⟩)).bind finish = .error e ∧
      FirstOffence (before ++ rest) e

theorem Judges.decides {before w rest : List Char} (hj : b.Judges before w rest tok)
    (h : b.Passed before (w ++ rest)) (hitems : Cursor.items ⟨w ++ rest, byteLength before⟩ =
      .ok tok :: Cursor.items ⟨rest, byteLength (before ++ w)⟩)
    (hrest : ∀ b' : Builder, b'.Passed (before ++ w) rest → b'.Decides (before ++ w) rest) :
    b.Decides before (w ++ rest) := by
  unfold Decides
  rw [hitems]
  rcases hj with ⟨b', e, hb', ho⟩ | ⟨b', hb', hp⟩
  · rw [pushAll_cons_error hb']
    exact .inr ⟨e, rfl, before, w ++ rest, rfl, ho, h.clean⟩
  · rw [pushAll_cons hb', ← List.append_assoc]
    exact hrest b' hp

theorem Passed.decides {before rest : List Char} (h : b.Passed before rest)
    (hspace : ∀ c ∈ rest, isWhitespace c = false)
    (hacc : ((before ++ rest).foldl State.read .start).accepting = true)
    (hbal : (before ++ rest).countP isOpening = (before ++ rest).countP isClosing) :
    b.Decides before rest := by
  induction rest using lexeme_induction generalizing b before with
  | nil =>
    rw [List.append_nil] at hacc hbal
    have hd := h.depth
    obtain ⟨t, ht⟩ := h.agrees.finish hacc (by omega)
    refine .inl ⟨⟨t, ?_⟩, fun u v e he ho => ?_⟩
    · rw [Cursor.items_of_none rfl]
      exact ht
    · -- an offence needs a character behind all that has been passed
      have hle := h.clean u v e he ho
      have hv : v = [] := by
        have hlen := congrArg List.length he
        rw [List.append_nil, List.length_append] at hlen
        exact List.length_eq_zero_iff.mp (by omega)
      exact ho.ne_nil hv
  | whitespace c cs hc ih =>
    rw [hspace c (List.mem_cons_self ..)] at hc
    cases hc
  | word w rest hw hend ih =>
    rw [← List.append_assoc] at hacc hbal
    have hr : (before ++ w).foldl State.read .start ≠ .refused := by
      rw [List.foldl_append] at hacc
      exact State.ne_refused_of_accepting hacc
    have hj : b.Judges before w rest ⟨.term, String.ofList w, byteLength before⟩ :=
      h.word hw hend hr rfl rfl
    refine hj.decides h ?_ fun b' hp =>
      ih hp (fun c hc => hspace c (List.mem_append_right _ hc)) hacc hbal
    rw [Cursor.items_word hw hend, byteLength_append]
  | char c k cs hc hterm hwhite ih =>
    rw [List.append_cons] at hacc hbal
    have hr : (before ++ [c]).foldl State.read .start ≠ .refused := by
      rw [List.foldl_append] at hacc
      exact State.ne_refused_of_accepting hacc
    refine (h.char hc hterm hwhite hr).decides h ?_ fun b' hp =>
      ih hp (fun d hd => hspace d (List.mem_cons_of_mem _ hd)) hacc hbal
    rw [byteLength_append, byteLength_singleton]
    exact Cursor.items_char hc hterm hwhite ..
  | foreign c cs hc =>
    rw [List.foldl_append] at hacc
    have hread : State.read (before.foldl State.read .start) c = .refused := by
      unfold State.read
      rw [hc]
    have hne : State.read (before.foldl State.read .start) c ≠ .refused :=
      State.ne_refused_of_accepting hacc
    exact absurd hread hne

end Builder

namespace Tree

/-- A well-formed text without whitespace fails to have a tree exactly if there is an offence in it,
and then the first offence is reported. -/
theorem ofText_error_of_validate (text : String)
    (hspace : ∀ c ∈ text.toList, isWhitespace c = false) (hv : validate text = .ok ()) :
    ((∃ e, ofText text = .error e) ↔
      Calls text.toList ∨ Overcloses text.toList ∨ Illegible text.toList) ∧
    ∀ e, ofText text = .error e ↔ FirstOffence text.toList e := by
  obtain ⟨hacc, hbal⟩ := (validate_eq_ok_iff text).mp hv
  have hdecides := (Builder.Passed.start text.toList).decides hspace hacc hbal
  rw [← exists_offence_iff]
  rcases hdecides with ⟨⟨t, ht⟩, hno⟩ | ⟨e, he, hfirst⟩
  · have ht : ofText text = .ok t := ht
    rw [ht]
    refine ⟨iff_of_false (fun ⟨_, h⟩ => nomatch h) (fun ⟨u, v, e, h, ho⟩ => hno u v e h ho),
      fun e => iff_of_false (nomatch ·) (fun ⟨u, v, h, ho, _⟩ => hno u v e h ho)⟩
  · have he : ofText text = .error e := he
    rw [he]
    obtain ⟨u, v, h, ho, -⟩ := id hfirst
    refine ⟨iff_of_true ⟨e, rfl⟩ ⟨u, v, e, h, ho⟩, fun e' => ⟨fun h' => ?_, fun h' => ?_⟩⟩
    · cases h'
      exact hfirst
    · rw [hfirst.unique h']

theorem ofText_unmatched : ofText "(a))+(0x(b)" = .error (.structural .unmatchedClose ")" 3) ∧
    FirstOffence "(a))+(0x(b)".toList (.structural .unmatchedClose ")" 3) := by
  have he : ofText "(a))+(0x(b)" = .error (.structural .unmatchedClose ")" 3) := by
    decide +kernel
  have hspace : "(a))+(0x(b)".toList.all (isWhitespace · = false) = true := by decide +kernel
  have h := ofText_error_of_validate "(a))+(0x(b)"
    (fun c hc => of_decide_eq_true (List.all_eq_true.mp hspace c hc)) (by decide +kernel)
  exact ⟨he, (h.2 _).mp he⟩

end Tree

end WordExpr
