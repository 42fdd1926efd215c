import WordExpr.Proofs.Building.Simulation
import WordExpr.Proofs.Spelling.Tokens
import WordExpr.Proofs.WellFormed.Sentences

/-!
# Taking whitespace out

Where the automaton has read a text to its end, whitespace has nowhere stood between two words. So
taking it out moves the tokens to other places and changes nothing else (`exists_items_moved`), and
the text has the same tree without it (`Tree.ofText_withoutWhitespace`).

Since every text with a tree is well formed, the whole front end accepts exactly the texts whose
normal spelling has a tree (`Expression.parse_agrees`).
-/

namespace WordExpr

/-! ## tokens at other places -/

def Token.Moved (t t' : Token) : Prop := t' = { t with offset := t'.offset }

theorem Token.Moved.symm {t t' : Token} (h : t.Moved t') : t'.Moved t := by
  unfold Moved
  rw [h]

theorem Token.Moved.alike {t t' : Token} (h : t.Moved t') {c : Piece} (hc : t.piece? = some c) :
    t.Alike id t' := by
  refine ⟨c, hc, ?_⟩
  have hid : c.relabel id = c := by cases c <;> rfl
  rw [h, hid]
  exact hc

theorem Tree.relabel_id (t : Tree) : t.relabel id = t := by
  refine ext_node (size_relabel ..) rfl fun i _ => ?_
  rw [node_relabel]
  exact Node.relabel_eq_self fun _ _ => rfl

/-- only the kinds and the texts of tokens count for their tree -/
theorem Tree.ofTokens_moved {toks toks' : List Token} (h : List.Forall₂ Token.Moved toks toks')
    (hk : ∀ tok ∈ toks, tok.kind ≠ .whitespace) {t : Tree} (ht : ofTokens toks = .ok t) :
    ofTokens toks' = .ok t := by
  obtain ⟨ps, -, -, hps, -⟩ := derives_of_ofTokens ht
  have halike : List.Forall₂ (Token.Alike id) toks toks' := by
    clear ht
    induction h generalizing ps with
    | nil => exact .nil
    | cons hm h ih =>
      obtain ⟨hk, hks⟩ := List.forall_mem_cons.mp hk
      obtain ⟨c, cs, rfl, hc, hcs⟩ := pieces?_cons hk hps
      exact .cons (hm.alike hc) (ih hks cs hcs)
  rw [ofTokens_relabel halike ht, relabel_id]

/-! ## texts that the automaton reads -/

/-- whitespace behind a word keeps the next word away -/
theorem endsWord_withoutWhitespace {cs : List Char} {s : State} (hs : s = .term ∨ s = .termEnded)
    (hr : cs.foldl State.read s ≠ .refused) (hcs : EndsWord cs) :
    EndsWord (withoutWhitespace cs) := by
  induction cs generalizing s with
  | nil => exact hcs
  | cons c cs ih =>
    rw [withoutWhitespace]
    cases hc : isWhitespace c with
    | false =>
      rw [List.filter_cons_of_pos (by rw [hc]; rfl)]
      exact hcs
    | true =>
      rw [List.filter_cons_of_neg (by rw [hc]; exact Bool.false_ne_true)]
      have hread : s.read c = .termEnded := by
        rw [State.read_of_class ((CharClass.of?_eq_some_iff (k := .whitespace)).mpr hc)]
        rcases hs with rfl | rfl <;> rfl
      rw [List.foldl_cons, hread] at hr
      refine ih (.inr rfl) hr fun d hd => ?_
      -- a word right behind the whitespace would have been refused
      obtain ⟨ds, rfl⟩ := List.head?_eq_some_iff.mp hd
      rw [Bool.eq_false_iff]
      intro hterm
      have hread : State.termEnded.read d = .refused :=
        State.read_of_class (CharClass.of?_of_isTermChar hterm) _
      exact State.ne_refused_of_foldl_read (s := State.termEnded.read d) hr hread

theorem withoutWhitespace_append (cs ds : List Char) :
    withoutWhitespace (cs ++ ds) = withoutWhitespace cs ++ withoutWhitespace ds :=
  List.filter_append ..

theorem withoutWhitespace_of_isWord {w : List Char} (hw : IsWord w) : withoutWhitespace w = w := by
  refine List.filter_eq_self.mpr fun c hc => ?_
  rw [(plain_of_isTermChar (hw.2 c hc)).whitespace]
  rfl

/-- the tokens of a text and of the text without its whitespace -/
theorem exists_items_moved {cs : List Char} {s : State} (hr : cs.foldl State.read s ≠ .refused)
    (offset offset' : Nat) : ∃ toks toks', Cursor.items ⟨cs, offset⟩ = toks.map .ok ∧
      Cursor.items ⟨withoutWhitespace cs, offset'⟩ = toks'.map .ok ∧
      List.Forall₂ Token.Moved toks toks' := by
  induction cs using lexeme_induction generalizing s offset offset' with
  | nil => exact ⟨[], [], Cursor.items_of_none rfl, Cursor.items_of_none rfl, .nil⟩
  | whitespace c cs hc ih =>
    obtain ⟨toks, toks', h, h', hm⟩ := ih (s := s.read c) hr (offset + c.utf8Size) offset'
    refine ⟨toks, toks', (Cursor.items_whitespace hc ..).trans h, ?_, hm⟩
    rw [withoutWhitespace, List.filter_cons_of_neg (by rw [hc]; exact Bool.false_ne_true)]
    exact h'
  | word w rest hw hend ih =>
    rw [List.foldl_append] at hr
    have hterm := (State.foldl_read_eq_term hw (State.ne_refused_of_foldl_read hr)).2
    obtain ⟨toks, toks', h, h', hm⟩ := ih hr (offset + byteLength w) (offset' + byteLength w)
    rw [hterm] at hr
    have hend' := endsWord_withoutWhitespace (.inl rfl) hr hend
    refine ⟨⟨.term, String.ofList w, offset⟩ :: toks, ⟨.term, String.ofList w, offset'⟩ :: toks',
      (Cursor.items_word hw hend offset).trans ?_, ?_, .cons rfl hm⟩
    · rw [h]
      rfl
    · rw [withoutWhitespace_append, withoutWhitespace_of_isWord hw,
        Cursor.items_word hw hend' offset', h']
      rfl
  | char c k cs hc hterm hwhite ih =>
    obtain ⟨toks, toks', h, h', hm⟩ := ih (s := s.read c) hr (offset + c.utf8Size)
      (offset' + c.utf8Size)
    have hkeep : withoutWhitespace (c :: cs) = c :: withoutWhitespace cs := by
      refine List.filter_cons_of_pos ?_
      have hno : isWhitespace c = false := CharClass.holds_eq_false (j := .whitespace) hc hwhite
      rw [hno]
      rfl
    refine ⟨⟨k.kind, String.singleton c, offset⟩ :: toks,
      ⟨k.kind, String.singleton c, offset'⟩ :: toks',
      (Cursor.items_char hc hterm hwhite cs offset).trans ?_, ?_, .cons rfl hm⟩
    · rw [h]
      rfl
    · rw [hkeep, Cursor.items_char hc hterm hwhite _ offset', h']
      rfl
  | foreign c cs hc =>
    have hread : s.read c = .refused := by
      unfold State.read
      rw [hc]
    exact absurd hread (State.ne_refused_of_foldl_read hr)

theorem Tree.ofText_withoutWhitespace {text : String}
    (hr : text.toList.foldl State.read .start ≠ .refused) (t : Tree) :
    ofText (String.ofList (withoutWhitespace text.toList)) = .ok t ↔ ofText text = .ok t := by
  obtain ⟨toks, toks', h, h', hm⟩ := exists_items_moved hr 0 0
  have htok : tokenize (String.ofList (withoutWhitespace text.toList)) = toks'.map .ok := by
    unfold tokenize
    rw [String.toList_ofList]
    exact h'
  have hkind : ∀ {cs : List Char} {us : List Token}, Cursor.items ⟨cs, 0⟩ = us.map .ok →
      ∀ tok ∈ us, tok.kind ≠ .whitespace := by
    intro cs us hus tok hmem
    refine Cursor.kind_of_mem_items (p := ⟨cs, 0⟩) ?_
    rw [hus]
    exact List.mem_map_of_mem hmem
  have hof : ∀ {text : String} {us : List Token}, tokenize text = us.map .ok →
      (ofText text = .ok t ↔ ofTokens us = .ok t) := by
    intro text us hus
    unfold ofText ofTokens
    rw [hus]
  rw [hof h, hof htok]
  exact ⟨ofTokens_moved (hm.flip.imp fun _ _ => Token.Moved.symm) (hkind h'),
    ofTokens_moved hm (hkind h)⟩

/-! ## the front end -/

namespace Expression

/-- The front end accepts a text exactly if a builder takes its normal spelling for a tree, and the
expression it gives is made of this tree. -/
theorem parse_agrees (raw : String) :
    ((∃ e, parse raw = .ok e) ↔ ∃ t, Tree.ofText (normalize raw) = .ok t) ∧
      ∀ e t, parse raw = .ok e → Tree.ofText (normalize raw) = .ok t →
        e.tree = t.consolidate.1 ∧ e.registry = t.consolidate.2 := by
  have hread : validate (normalize raw) = .ok () →
      (normalize raw).toList.foldl State.read .start ≠ .refused := by
    intro hv hr
    have hacc := ((validate_eq_ok_iff _).mp hv).1
    rw [hr] at hacc
    cases hacc
  constructor
  · constructor
    · rintro ⟨e, he⟩
      obtain ⟨hv, -, t, ht, -⟩ := parse_eq_ok_iff.mp he
      exact ⟨t, (Tree.ofText_withoutWhitespace (hread hv) t).mp ht⟩
    · rintro ⟨t, ht⟩
      have hv := Tree.validate_of_ofText ht
      have hclean : Tree.ofText (clean raw) = .ok t :=
        (Tree.ofText_withoutWhitespace (hread hv) t).mpr ht
      exact ⟨_, parse_eq_ok_iff.mpr ⟨hv, Tree.validate_of_ofText hclean, t, hclean, rfl⟩⟩
  · intro e t he ht
    obtain ⟨hv, -, t', ht', rfl⟩ := parse_eq_ok_iff.mp he
    have hclean : Tree.ofText (normalize raw) = .ok t' :=
      (Tree.ofText_withoutWhitespace (hread hv) t').mp ht'
    cases hclean.symm.trans ht
    exact ⟨rfl, rfl⟩

theorem parse_agrees_spaced : ∃ e t, parse " a1 << - ( b ^ a1 ) " = .ok e ∧
    Tree.ofText (normalize " a1 << - ( b ^ a1 ) ") = .ok t ∧ e.tree = t.consolidate.1 ∧
      e.registry = t.consolidate.2 := by
  have hsome : (Tree.ofText (normalize " a1 << - ( b ^ a1 ) ")).toOption.isSome = true := by
    decide +kernel
  cases ht : Tree.ofText (normalize " a1 << - ( b ^ a1 ) ") with
  | error r =>
    rw [ht] at hsome
    cases hsome
  | ok t =>
    obtain ⟨hiff, hsame⟩ := parse_agrees " a1 << - ( b ^ a1 ) "
    obtain ⟨e, he⟩ := hiff.mpr ⟨t, ht⟩
    exact ⟨e, t, he, rfl, hsame e t he ht⟩

end Expression

end WordExpr
