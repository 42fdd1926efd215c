import WordExpr.Proofs.Registry.Numbering
import WordExpr.Proofs.RoundTrip

/-!
# A rendering is the text in other words

`retell? word` goes through a text character by character: every word makes way for the one that
`word` has for it, every bracket for a round one, and all other characters stay. With the canonical
names and decimal numbers for the words (`Registry.retold?`), this makes the rendering of an
accepted text out of its clean spelling (`Expression.retell_clean`). So a rendering has the
operators and brackets of the text, each in its place.
-/

namespace WordExpr

open Text

/-! ## other words for the words of a text -/

/-- brackets of any style as round ones -/
def rounded (c : Char) : Char :=
  if isOpening c then '(' else if isClosing c then ')' else c

/-- nothing where there is no other word for one of the words -/
def retell? (word : List Char → Option (List Char)) : List Char → Option (List Char)
  | [] => some []
  | c :: cs =>
    if isTermChar c then
      (word (c :: cs.takeWhile isTermChar)).bind fun w =>
        (retell? word (cs.dropWhile isTermChar)).map (w ++ ·)
    else (retell? word cs).map (rounded c :: ·)
termination_by cs => cs.length
decreasing_by
  · exact Nat.lt_succ_of_le (List.dropWhile_suffix isTermChar).length_le
  · exact Nat.lt_succ_self _

variable {word : List Char → Option (List Char)}

theorem retell?_nil : retell? word [] = some [] := by rw [retell?]

theorem retell?_word {w rest : List Char} (hw : IsWord w) (hrest : EndsWord rest) :
    retell? word (w ++ rest) = (word w).bind fun v => (retell? word rest).map (v ++ ·) := by
  obtain ⟨hne, hall⟩ := hw
  cases w with
  | nil => exact absurd rfl hne
  | cons c w =>
    obtain ⟨hc, hw⟩ := List.forall_mem_cons.mp hall
    obtain ⟨h1, h2⟩ := Cursor.takeWhile_append hw hrest
    rw [List.cons_append, retell?, if_pos hc, h1, h2]

theorem retell?_char {c : Char} (hc : isTermChar c = false) (cs : List Char) :
    retell? word (c :: cs) = (retell? word cs).map (rounded c :: ·) := by
  rw [retell?, if_neg (by rw [hc]; exact Bool.false_ne_true)]

/-! ## along the pieces of a text -/

theorem rounded_char (op : Operator) : rounded op.char = op.char := by
  cases op <;> decide

/-- what is written for a piece of one character -/
theorem Piece.spell_eq_rounded {σ : Atom → List Char} {c : Char} {p : Piece}
    (hc : CharClass.of? c = some p.charClass) (hp : p.charClass ≠ .term)
    (hop : ∀ op, p = .operator op → op.char = c) : p.spell σ = [rounded c] := by
  cases p with
  | operand a => exact absurd rfl hp
  | operator op =>
    rw [← hop op rfl, rounded_char]
    rfl
  | opening =>
    have ho : isOpening c = true := CharClass.of?_eq_some_iff.mp hc
    rw [rounded, if_pos ho]
    rfl
  | closing =>
    have ho : isOpening c = false := CharClass.holds_eq_false (j := .opening) hc (by decide)
    have hcl : isClosing c = true := CharClass.of?_eq_some_iff.mp hc
    rw [rounded, ho, hcl]
    rfl

/-- a text without whitespace, told in other words, spells out its pieces -/
theorem retell?_eq_spell {σ : Atom → List Char} {cs : List Char} {offset : Nat}
    {toks : List Token} {ps : List Piece} (ht : Cursor.items ⟨cs, offset⟩ = toks.map .ok)
    (hps : pieces? toks = some ps) (hspace : ∀ c ∈ cs, isWhitespace c = false)
    (hword : ∀ w a, .operand a ∈ ps → Symbol.ofTerm (String.ofList w) = .ok a.symbol →
      word w = some (σ a)) : retell? word cs = some (spell σ ps) := by
  revert hspace hword
  refine pieces_induction (motive := fun cs ps => (∀ c ∈ cs, isWhitespace c = false) →
    (∀ w a, .operand a ∈ ps → Symbol.ofTerm (String.ofList w) = .ok a.symbol →
      word w = some (σ a)) → retell? word cs = some (spell σ ps)) ht hps ?_ ?_ ?_ ?_
  · intro _ _
    exact retell?_nil
  · intro c cs ps hc _ hspace _
    rw [hspace c (List.mem_cons_self ..)] at hc
    cases hc
  · intro w rest a ps hw hr ha ih hspace hword
    have hrest := ih (fun c hc => hspace c (List.mem_append_right _ hc))
      (fun w a ha => hword w a (List.mem_cons_of_mem _ ha))
    rw [retell?_word hw hr, hword w a (List.mem_cons_self ..) ha, hrest, spell_cons]
    rfl
  · intro c cs p ps hc hterm hop ih hspace hword
    have hrest := ih (fun c hc => hspace c (List.mem_cons_of_mem _ hc))
      (fun w a ha => hword w a (List.mem_cons_of_mem _ ha))
    have hnot : isTermChar c = false := CharClass.holds_eq_false (j := .term) hc hterm
    rw [retell?_char hnot, hrest, spell_cons, Piece.spell_eq_rounded hc hterm hop]
    rfl

/-! ## the words of a rendering -/

namespace Registry

/-- the place of the variable that was written so -/
def placeOf? (r : Registry) (spelling : String) : Option VarId :=
  r.vars.findIdx? (·.spelling == spelling)

/-- a name as the canonical name of its variable, a number in decimal digits -/
def retold? (r : Registry) (word : List Char) : Option (List Char) :=
  match Symbol.ofTerm (String.ofList word) with
  | .ok (.term name) => (r.placeOf? name).map fun id => (canonicalName id).toList
  | .ok (.constant v) => some (decimal v.toNat)
  | _ => none

variable {names : List String} {name : String}

theorem placeOf?_canonicalize_ofNames (h : name ∈ names) :
    (ofNames names).canonicalize.placeOf? name = some (distinctBefore names name) := by
  have hvar := get?_canonicalize_ofNames_iff.mpr ⟨name, h, rfl, rfl⟩
  obtain ⟨hlt, hget⟩ := List.getElem?_eq_some_iff.mp hvar
  refine List.findIdx?_eq_some_iff_getElem.mpr ⟨hlt, ?_, fun j hj => ?_⟩
  · rw [hget]
    exact beq_self_eq_true name
  · -- only one variable is spelled so
    rw [beq_iff_eq]
    intro he
    obtain ⟨other, -, hplace, hv⟩ := get?_canonicalize_ofNames_iff.mp
      (List.getElem?_eq_getElem (Nat.lt_trans hj hlt))
    rw [hv] at he
    obtain rfl : other = name := he
    exact Nat.ne_of_lt hj hplace

/-- the word for an operand is what the rendering writes for its number -/
theorem retold?_eq_text {a : Atom} (ha : a.Written) (hn : ∀ name, a = .name name → name ∈ names)
    {w : List Char} (hw : Symbol.ofTerm (String.ofList w) = .ok a.symbol) :
    (ofNames names).canonicalize.retold? w =
      some (((ofNames names).number a).text (ofNames names).canonicalize.nameOf) := by
  cases a with
  | «variable» id => exact absurd rfl (ha.ne_variable id)
  | constant v =>
    unfold retold?
    rw [hw]
    rfl
  | name text =>
    have hmem := hn text rfl
    have hlookup := lookup_ofNames hmem
    have hlt := (numbered_ofNames names).lt_size hlookup
    unfold retold?
    rw [hw, number_name hlookup]
    show ((ofNames names).canonicalize.placeOf? text).map _ = some (Outline.variableName _ _)
    rw [placeOf?_canonicalize_ofNames hmem, Outline.variableName,
      nameOf_canonicalize (numbered_ofNames names) hlt]
    rfl

end Registry

/-! ## accepted texts -/

theorem isWhitespace_of_mem_clean {raw : String} {c : Char} (hc : c ∈ (clean raw).toList) :
    isWhitespace c = false := by
  rw [clean, String.toList_ofList] at hc
  simpa using (List.mem_filter.mp hc).2

namespace Expression

variable {raw : String} {e : Expression}

/-- **A rendering is the text in other words**: canonical names, decimal numbers, round brackets,
and nothing else changed. -/
theorem retell_clean (h : parse raw = .ok e) :
    retell? e.registry.retold? (clean raw).toList = some e.render.toList := by
  obtain ⟨toks, ps, x, q, t, ha, rfl⟩ := accepted h
  have hrender : (t.relabel (Registry.ofNames t.names).number).render
      (Registry.ofNames t.names).canonicalize.nameOf = _ := ha.render_eq _
  unfold render
  rw [hrender, String.toList_ofList]
  refine retell?_eq_spell ha.tokenize ha.pieces (fun c hc => isWhitespace_of_mem_clean hc) ?_
  intro w a hmem hw
  obtain ⟨hwritten, hnames⟩ := ha.derives.every_iff.mp ha.every a hmem
  exact Registry.retold?_eq_text hwritten hnames hw

/-- brackets of any style become round ones -/
theorem retell_clean_mixed : ∃ e, parse "2*-[foo << \x7b0x10-foo)]" = .ok e ∧
    retell? e.registry.retold? "2*`[foo<\x7b0x10-foo)]".toList = some "2*`(a<(16-a))".toList := by
  have hrender : (parse "2*-[foo << \x7b0x10-foo)]").toOption.map render =
      some "2*`(a<(16-a))" := by decide +kernel
  have hclean : clean "2*-[foo << \x7b0x10-foo)]" = "2*`[foo<\x7b0x10-foo)]" := by decide +kernel
  obtain ⟨e, he, hrender⟩ := Option.map_eq_some_iff.mp hrender
  refine ⟨e, eq_ok_of_toOption he, ?_⟩
  rw [← hclean, ← hrender]
  exact retell_clean (eq_ok_of_toOption he)

end Expression

end WordExpr
