import WordExpr.Proofs.Registry.Renamed
import WordExpr.Proofs.Table.Line
import WordExpr.Proofs.WellFormed.Whitespace

/-!
# Spelling does not count

Two texts whose normal spellings have corresponding tokens (`Token.Counterpart`) lead through the
whole front end to the same tree: names go by one map that keeps them apart, numbers may be written
in any way and brackets in any style. The registries differ by the spellings of the variables
(`Registry.respell`), which neither a rendering nor a table shows (`Expression.parse_respelled`).
-/

namespace WordExpr

/-! ## corresponding tokens -/

/-- read as a name, and not as a number -/
def Token.IsName (t : Token) : Prop := t.piece? = some (.operand (.name t.text))
deriving Decidable

/-- the same operator, a bracket of the same side, the same number, or a name and what `f` makes
of it -/
inductive Token.Counterpart (f : String → String) (t t' : Token) : Prop where
  | operator (op : Operator) (h : t.piece? = some (.operator op))
    (h' : t'.piece? = some (.operator op))
  | opening (h : t.piece? = some .opening) (h' : t'.piece? = some .opening)
  | closing (h : t.piece? = some .closing) (h' : t'.piece? = some .closing)
  | number (v : UInt64) (h : t.piece? = some (.operand (.constant v)))
    (h' : t'.piece? = some (.operand (.constant v)))
  | name (h : t.IsName) (h' : t'.IsName) (hf : t'.text = f t.text)

theorem Token.Counterpart.alike {f : String → String} {t t' : Token} (h : t.Counterpart f t') :
    t.Alike (Atom.mapName f) t' := by
  cases h with
  | operator op h h' => exact ⟨_, h, h'⟩
  | opening h h' => exact ⟨_, h, h'⟩
  | closing h h' => exact ⟨_, h, h'⟩
  | number v h h' => exact ⟨_, h, h'⟩
  | name h h' hf =>
    refine ⟨_, h, ?_⟩
    show t'.piece? = some (.operand (.name (f t.text)))
    rw [← hf]
    exact h'

/-- the names of a tree are names of its tokens -/
theorem Tree.exists_token_of_mem_names {toks : List Token} {t : Tree} (ht : ofTokens toks = .ok t)
    {name : String} (hn : name ∈ t.names) : ∃ tok ∈ toks, tok.IsName ∧ tok.text = name := by
  obtain ⟨ps, q, x, hps, hq, -, hx, hd⟩ := derives_of_ofTokens ht
  obtain ⟨id, hid, hname⟩ := List.mem_filterMap.mp hn
  rw [hq.leaves_eq] at hid
  obtain ⟨e, he, rfl⟩ := List.mem_map.mp (List.mem_filter.mp hid).1
  have hsymbol : e.2.symbol = some (Atom.name name).symbol := by
    rw [← hq.shows.holds.node e he]
    exact nameAt?_eq_some_iff.mp hname
  have hevery : x.Every (fun a => .operand a ∈ ps) := hd.every_iff.mpr (fun _ ha => ha)
  have hmem := (Part.every_iff hx none).mp hevery e he (.name name) hsymbol
  obtain ⟨tok, htok, hpiece⟩ := exists_token_of_mem_pieces? hps hmem
  obtain ⟨-, hterm⟩ := Token.piece?_eq_some_iff.mp hpiece
  rcases Symbol.of_ofTerm hterm with hs | ⟨v, hs⟩
  · obtain rfl : name = tok.text := Symbol.term.inj hs
    exact ⟨tok, htok, hpiece, rfl⟩
  · cases hs

/-! ## tables under other spellings -/

theorem Tree.evalFrom_respell (t : Tree) (f : String → String) (r : Registry) (w : Width)
    (fuel : Nat) (id : NodeId) (met : Bool) :
    t.evalFrom (r.respell f) w fuel id met = t.evalFrom r w fuel id met := by
  induction fuel generalizing id met with
  | zero => rfl
  | succ fuel ih =>
    unfold evalFrom
    simp only [ih]
    rfl

theorem Tree.evaluate_respell (t : Tree) (f : String → String) (r : Registry) (w : Width) :
    t.evaluate (r.respell f) w = t.evaluate r w := by
  unfold evaluate evaluateAt
  rw [evalFrom_respell]

namespace Tabulation

def respell (f : String → String) (T : Tabulation) : Tabulation :=
  { T with registry := T.registry.respell f }

variable (f : String → String) (t : Tree) (w : Width)

theorem finishLine_respell (c : Collector) (r : Registry) (s : Sink) :
    finishLine c (r.respell f) s = (finishLine c r s).respell f := by
  unfold finishLine
  split <;> rfl

theorem constant_respell (r : Registry) (s : Sink) :
    constant t w (r.respell f) s = (constant t w r s).respell f := by
  unfold constant
  rw [t.evaluate_respell]
  cases t.evaluate r w with
  | error e => rfl
  | ok o =>
    rcases hadd : Collector.addUnhashed {} o s with ⟨c, s', written⟩
    simp only [hadd]
    cases written with
    | false => rfl
    | true => exact finishLine_respell f c r s'

theorem rowsFrom_respell (rows : Nat) (c : Collector) (r : Registry) (s : Sink) :
    rowsFrom t w rows c (r.respell f) s = (rowsFrom t w rows c r s).respell f := by
  induction rows generalizing c r s with
  | zero => exact finishLine_respell f c r s
  | succ rows ih =>
    have hadvance : (r.respell f).advance w =
        ((r.advance w).1, (r.advance w).2.respell f) := rfl
    unfold rowsFrom
    rw [t.evaluate_respell, hadvance]
    cases t.evaluate r w with
    | error e => rfl
    | ok o =>
      rcases hadd : c.add o s with ⟨c', s', written⟩
      simp only [hadd]
      cases written with
      | false => rfl
      | true =>
        rcases r.advance w with ⟨more, r'⟩
        cases more with
        | true => exact ih c' r' s'
        | false => exact finishLine_respell f c' r' s'

end Tabulation

theorem tabulate_respell (f : String → String) (t : Tree) (r : Registry) (w : Width) (s : Sink) :
    tabulate t (r.respell f) w s = (tabulate t r w s).respell f := by
  have hempty : (r.respell f).reset.isEmpty = r.reset.isEmpty := List.isEmpty_map
  unfold tabulate
  rw [r.size_respell]
  cases combinations w r.size with
  | error e => rfl
  | ok rows =>
    simp only [hempty]
    cases r.reset.isEmpty with
    | true => exact Tabulation.constant_respell f t w r.reset s
    | false => exact Tabulation.rowsFrom_respell f t w rows {} r.reset s

/-! ## two texts -/

namespace Expression

variable {raw raw' : String} {e : Expression}

theorem ne_refused_of_validate {text : String} (h : validate text = .ok ()) :
    text.toList.foldl State.read .start ≠ .refused := by
  intro hr
  have hacc := ((validate_eq_ok_iff _).mp h).1
  rw [hr] at hacc
  cases hacc

/-- the front end gives the consolidation of the tree of the normal spelling -/
theorem parse_eq_ok_iff_ofText : parse raw = .ok e ↔
    ∃ t, Tree.ofText (normalize raw) = .ok t ∧
      e = ⟨raw, clean raw, t.consolidate.1, t.consolidate.2⟩ := by
  rw [parse_eq_ok_iff]
  constructor
  · rintro ⟨hv, -, t, ht, rfl⟩
    exact ⟨t, (Tree.ofText_withoutWhitespace (ne_refused_of_validate hv) t).mp ht, rfl⟩
  · rintro ⟨t, ht, rfl⟩
    have hv := Tree.validate_of_ofText ht
    have hclean : Tree.ofText (clean raw) = .ok t :=
      (Tree.ofText_withoutWhitespace (ne_refused_of_validate hv) t).mpr ht
    exact ⟨hv, Tree.validate_of_ofText hclean, t, hclean, rfl⟩

/-- a table in full is refused only for its size -/
theorem fingerprint_unlimited (h : parse raw = .ok e) (w : Width) :
    (∃ p, (e.fingerprint w .unlimited).result = .ok p) ∨
      (e.fingerprint w .unlimited).result =
        .error (.tooManyCombinations w.bits e.registry.size) := by
  by_cases hw : w.bits * e.registry.size < 64
  · obtain ⟨os, hos⟩ := exists_lists h w
    exact .inl ⟨_, (hos.fingerprint_eq_ok h hw).1⟩
  · rw [fingerprint_eq_tooMany (Nat.not_lt.mp hw)]
    exact .inr rfl

/-- **Spelling does not count.** If the tokens of a text correspond to those of an accepted one, the
text is accepted too. The two expressions differ by the spellings of their variables only: they have
the same tree, the same rendering and, at every width, the same table in whatever sink. -/
theorem parse_respelled (h : parse raw = .ok e) {toks toks' : List Token}
    (htoks : tokenize (normalize raw) = toks.map .ok)
    (htoks' : tokenize (normalize raw') = toks'.map .ok) {f : String → String}
    (hc : List.Forall₂ (Token.Counterpart f) toks toks')
    (hf : ∀ t ∈ toks, ∀ u ∈ toks, t.IsName → u.IsName → f t.text = f u.text → t.text = u.text) :
    ∃ e', parse raw' = .ok e' ∧ e'.tree = e.tree ∧ e'.registry = e.registry.respell f ∧
      e'.render = e.render ∧
      (∀ (w : Width) (s : Sink), (e'.fingerprint w s).result = (e.fingerprint w s).result ∧
        (e'.fingerprint w s).sink = (e.fingerprint w s).sink) ∧
      ∀ w : Width, (∃ p, (e.fingerprint w .unlimited).result = .ok p) ∨
        (e.fingerprint w .unlimited).result =
          .error (.tooManyCombinations w.bits e.registry.size) := by
  obtain ⟨t, ht, he⟩ := parse_eq_ok_iff_ofText.mp h
  have hof : Tree.ofTokens toks = .ok t := by
    unfold Tree.ofTokens
    rw [← htoks]
    exact ht
  have hnames : ∀ a ∈ t.names, ∀ b ∈ t.names, f a = f b → a = b := by
    intro a ha b hb hab
    obtain ⟨tok, htok, hname, rfl⟩ := Tree.exists_token_of_mem_names hof ha
    obtain ⟨tok', htok', hname', rfl⟩ := Tree.exists_token_of_mem_names hof hb
    exact hf tok htok tok' htok' hname hname' hab
  obtain ⟨t', hof', hcons⟩ :=
    Tree.ofTokens_mapName (hc.imp (fun _ _ => Token.Counterpart.alike)) hof hnames
  have ht' := Tree.ofText_eq_ok_iff.mpr ⟨toks', htoks', hof'⟩
  have htree : t'.consolidate.1 = e.tree := by rw [hcons, he]
  have hreg : t'.consolidate.2 = e.registry.respell f := by rw [hcons, he]
  refine ⟨_, parse_eq_ok_iff_ofText.mpr ⟨t', ht', rfl⟩, htree, hreg, ?_, ?_,
    fingerprint_unlimited h⟩
  · unfold render
    rw [htree, hreg, Registry.nameOf_respell]
  · intro w s
    unfold fingerprint
    rw [htree, hreg, tabulate_respell]
    exact ⟨rfl, rfl⟩

/-- a name of one text is another variable in the other -/
theorem parse_respelled_swapped : ∃ e e', parse "foo-[0x10*bar]" = .ok e ∧
    parse "a - (16 * foo)" = .ok e' ∧ e'.tree = e.tree ∧ e'.render = "a-(16*b)" ∧
    ∀ w : Width, (e'.fingerprint w .unlimited).sink = (e.fingerprint w .unlimited).sink := by
  have hrender : (parse "foo-[0x10*bar]").toOption.map render = some "a-(16*b)" := by
    decide +kernel
  obtain ⟨e, he, hrender⟩ := Option.map_eq_some_iff.mp hrender
  generalize htoks : ([⟨.term, "foo", 0⟩, ⟨.operator, "-", 3⟩, ⟨.bracket, "[", 4⟩,
    ⟨.term, "0x10", 5⟩, ⟨.operator, "*", 9⟩, ⟨.term, "bar", 10⟩, ⟨.bracket, "]", 13⟩] :
    List Token) = toks
  generalize htoks' : ([⟨.term, "a", 0⟩, ⟨.operator, "-", 2⟩, ⟨.bracket, "(", 4⟩,
    ⟨.term, "16", 5⟩, ⟨.operator, "*", 8⟩, ⟨.term, "foo", 10⟩, ⟨.bracket, ")", 13⟩] :
    List Token) = toks'
  have hread : tokenize (normalize "foo-[0x10*bar]") = toks.map .ok := by
    rw [← htoks]
    decide +kernel
  have hread' : tokenize (normalize "a - (16 * foo)") = toks'.map .ok := by
    rw [← htoks']
    decide +kernel
  have hc : List.Forall₂ (Token.Counterpart (fun name => if name = "foo" then "a" else "foo"))
      toks toks' := by
    rw [← htoks, ← htoks']
    exact .cons (.name (by decide +kernel) (by decide +kernel) rfl)
      (.cons (.operator .sub (by decide +kernel) (by decide +kernel))
      (.cons (.opening (by decide +kernel) (by decide +kernel))
      (.cons (.number 16 (by decide +kernel) (by decide +kernel))
      (.cons (.operator .mul (by decide +kernel) (by decide +kernel))
      (.cons (.name (by decide +kernel) (by decide +kernel) rfl)
      (.cons (.closing (by decide +kernel) (by decide +kernel)) .nil))))))
  have hf : ∀ t ∈ toks, ∀ u ∈ toks, t.IsName → u.IsName →
      (if t.text = "foo" then "a" else "foo") = (if u.text = "foo" then "a" else "foo") →
        t.text = u.text := by
    rw [← htoks]
    decide +kernel
  obtain ⟨e', he', htree, -, hsame, htable, -⟩ :=
    parse_respelled (eq_ok_of_toOption he) hread hread' hc hf
  exact ⟨e, e', eq_ok_of_toOption he, he', htree, hsame.trans hrender,
    fun w => (htable w .unlimited).2⟩

end Expression

end WordExpr
