import WordExpr.Expression
import WordExpr.Proofs.Building.Acceptance
import WordExpr.Proofs.Evaluation.Value
import WordExpr.Proofs.Registry.Consolidated

/-!
# Accepted expressions

What `Expression.parse` has done where it gives an expression (`Expression.accepted`), and what
holds of every expression it gives.

* `Accepted`    a text with its tokens, their pieces and formula, and the tree that is built;
* `Written`     an atom that a token can be read as: no registered variable.

The tree of an accepted expression reads as a formula of constants and of variables of its registry
(`Expression.exists_reads`), so that it has an outcome whatever is in the cells
(`Expression.exists_evaluate`).
-/

namespace WordExpr

theorem eq_ok_of_toOption {ε α : Type} {x : Except ε α} {a : α} (h : x.toOption = some a) :
    x = .ok a := by
  cases x with
  | error e => cases h
  | ok b => rw [Option.some.inj h]

/-! ## from the text to the tokens -/

theorem Builder.exists_tokens_of_pushAll {b b' : Builder} {items : List Item}
    (h : b.pushAll items = .ok b') : ∃ toks : List Token, items = toks.map .ok := by
  induction items generalizing b with
  | nil => exact ⟨[], rfl⟩
  | cons item items ih =>
    cases item with
    | error e => cases h
    | ok tok =>
      rw [pushAll] at h
      split at h
      · obtain ⟨toks, rfl⟩ := ih h
        exact ⟨tok :: toks, rfl⟩
      · cases h

theorem Tree.ofText_eq_ok_iff {text : String} {t : Tree} : ofText text = .ok t ↔
    ∃ toks : List Token, tokenize text = toks.map .ok ∧ ofTokens toks = .ok t := by
  constructor
  · intro h
    cases hb : Builder.pushAll {} (tokenize text) with
    | error e =>
      rw [ofText, hb] at h
      cases h
    | ok b =>
      obtain ⟨toks, htoks⟩ := Builder.exists_tokens_of_pushAll hb
      exact ⟨toks, htoks, by rw [ofTokens, ← htoks]; exact h⟩
  · rintro ⟨toks, htoks, h⟩
    unfold ofText
    rw [htoks]
    exact h

namespace Expression

theorem parse_eq_ok_iff {raw : String} {e : Expression} : parse raw = .ok e ↔
    validate (normalize raw) = .ok () ∧ validate (clean raw) = .ok () ∧
      ∃ t, Tree.ofText (clean raw) = .ok t ∧
        e = ⟨raw, clean raw, t.consolidate.1, t.consolidate.2⟩ := by
  unfold parse
  cases validate (normalize raw) with
  | error r => exact iff_of_false (nomatch ·) (fun h => nomatch h.1)
  | ok u =>
    cases validate (clean raw) with
    | error r => exact iff_of_false (nomatch ·) (fun h => nomatch h.2.1)
    | ok u' =>
      cases Tree.ofText (clean raw) with
      | error r => exact iff_of_false (nomatch ·) (fun ⟨_, _, _, h, _⟩ => nomatch h)
      | ok t =>
        constructor
        · intro h
          exact ⟨rfl, rfl, t, rfl, (Except.ok.inj h).symm⟩
        · rintro ⟨-, -, t', ht', rfl⟩
          cases ht'
          rfl

end Expression

/-! ## the formula of the tree -/

theorem Part.reads {t : Tree} {q : Part} {up : Option NodeId} {x : Formula} {i : NodeId}
    (h : t.Holds (q.entries up)) (hx : q.formula? = some x) (hi : q.id? = some i) :
    t.Reads i x := by
  induction q generalizing up x i with
  | missing => cases hx
  | leaf id f a =>
    cases hx
    cases hi
    have hn : t.node id = .ofAtom up f a := h.node (id, _) (List.mem_singleton_self _)
    have hf : (t.node id).flags = f := by rw [hn]; rfl
    exact hf ▸ .leaf (by rw [hn]; rfl) (by rw [hn]; rfl) (by rw [hn]; rfl)
  | group id f p ih =>
    cases hi
    rw [entries_group] at h
    obtain ⟨y, hy, rfl⟩ := Option.map_eq_some_iff.mp hx
    obtain ⟨j, hj⟩ := exists_id?_of_formula? hy
    have hn : t.node id = .ofGroup up p.id? f := h.node (id, _) (List.mem_cons_self ..)
    have hf : (t.node id).flags = f := by rw [hn]; rfl
    exact hf ▸ .group (by rw [hn]; rfl) (by rw [hn]; exact hj)
      (ih (h.sublist (List.sublist_cons_self ..)) hy hj)
  | binary id op l r ihl ihr =>
    cases hi
    rw [entries_binary] at h
    rw [formula?] at hx
    split at hx
    · next y z hy hz =>
      cases hx
      obtain ⟨j, hj⟩ := exists_id?_of_formula? hy
      obtain ⟨k, hk⟩ := exists_id?_of_formula? hz
      have hn : t.node id = .ofOperator up l.id? r.id? op := h.node (id, _) (List.mem_cons_self ..)
      have hf : (t.node id).flags = {} := by rw [hn]; rfl
      have h' := h.sublist (List.sublist_cons_self ..)
      exact hf ▸ .binary (by rw [hn]; rfl) (by rw [hn]; exact hj) (by rw [hn]; exact hk)
        (ihl (h'.sublist (List.sublist_append_left ..)) hy hj)
        (ihr (h'.sublist (List.sublist_append_right ..)) hz hk)
    · cases hx

theorem Tree.Reads.relabel {t : Tree} {id : NodeId} {x : Formula} (h : t.Reads id x)
    (g : Atom → Atom) : (t.relabel g).Reads id (x.relabel g) := by
  induction h with
  | @leaf id a hs hl hr =>
    have hn := t.node_relabel g id
    have hf : ((t.relabel g).node id).flags = (t.node id).flags := by rw [hn]; rfl
    refine hf ▸ .leaf ?_ (by rw [hn]; exact hl) (by rw [hn]; exact hr)
    rw [hn, Node.relabel_of_symbol hs]
  | @group id c x hs hl h ih =>
    have hn := t.node_relabel g id
    have hf : ((t.relabel g).node id).flags = (t.node id).flags := by rw [hn]; rfl
    refine hf ▸ .group ?_ (by rw [hn]; exact hl) ih
    rw [hn, Node.relabel, hs]
    rfl
  | @binary id c d op x y hs hl hr h h' ih ih' =>
    have hn := t.node_relabel g id
    have hf : ((t.relabel g).node id).flags = (t.node id).flags := by rw [hn]; rfl
    refine hf ▸ .binary ?_ (by rw [hn]; exact hl) (by rw [hn]; exact hr) ih ih'
    rw [hn, Node.relabel, hs]
    rfl

/-! ## its atoms -/

/-- the atoms of the formula are those at the entries -/
theorem Part.every_iff {q : Part} {x : Formula} (hx : q.formula? = some x) (up : Option NodeId)
    {P : Atom → Prop} :
    x.Every P ↔ ∀ e ∈ q.entries up, ∀ a : Atom, e.2.symbol = some a.symbol → P a := by
  induction q generalizing up x with
  | missing => cases hx
  | leaf id f b =>
    cases hx
    rw [entries_leaf, List.forall_mem_singleton]
    show P b ↔ ∀ a : Atom, some b.symbol = some a.symbol → P a
    constructor
    · intro hb a ha
      have hatom := congrArg Symbol.atom? (Option.some.inj ha)
      rw [b.atom?_symbol, a.atom?_symbol] at hatom
      exact Option.some.inj hatom ▸ hb
    · exact fun h => h b rfl
  | group id f p ih =>
    obtain ⟨y, hy, rfl⟩ := Option.map_eq_some_iff.mp hx
    rw [entries_group, List.forall_mem_cons, ← ih hy (some id)]
    exact (and_iff_right (fun a ha => nomatch ha)).symm
  | binary id op l r ihl ihr =>
    rw [formula?] at hx
    split at hx
    · next y z hy hz =>
      cases hx
      rw [entries_binary, List.forall_mem_cons, List.forall_mem_append, ← ihl hy (some id),
        ← ihr hz (some id)]
      refine (and_iff_right (fun a ha => ?_)).symm
      have hop := a.operator?_symbol
      rw [← Option.some.inj ha] at hop
      cases hop
    · cases hx

/-- what a token can be read as -/
def Atom.Written (a : Atom) : Prop := ∃ text, Symbol.ofTerm text = .ok a.symbol

theorem Atom.Written.ne_variable {a : Atom} (h : a.Written) (id : VarId) : a ≠ .variable id := by
  rintro rfl
  obtain ⟨text, htext⟩ := h
  rcases Symbol.of_ofTerm htext with hs | ⟨v, hs⟩ <;> cases hs

theorem Derives.every_written {k : Nat} {ps : List Piece} {x : Formula} (h : Derives k ps x)
    {toks : List Token} (ht : pieces? toks = some ps) : x.Every Atom.Written := by
  refine h.every_iff.mpr ?_
  intro a ha
  obtain ⟨t, -, hp⟩ := exists_token_of_mem_pieces? ht ha
  exact ⟨t.text, (Token.piece?_eq_some_iff.mp hp).2⟩

/-- the names of the formula are the names at the leaves -/
theorem Tree.Encloses.every_names {t : Tree} {q : Part} {x : Formula} (h : t.Encloses q)
    (hsize : t.size = q.size + 1) (hx : q.formula? = some x) :
    x.Every (fun a => ∀ name, a = .name name → name ∈ t.names) := by
  refine (Part.every_iff hx none).mpr ?_
  intro e he a ha name hname
  have hn := h.shows.holds.node e he
  refine List.mem_filterMap.mpr ⟨e.1, ?_, ?_⟩
  · exact h.mem_leaves_of_symbol hsize (h.shows.holds.lt e he) (by rw [hn]; exact ha)
  · rw [nameAt?_eq_some_iff, hn, ha, hname]

/-- a written atom, once its name has a number, has a word wherever that number has a cell -/
theorem Atom.Written.exists_word {a : Atom} (h : a.Written) {names : List String}
    (hnames : ∀ name, a = .name name → name ∈ names) {r : Registry}
    (hr : r.cells.length = (Registry.ofNames names).size) :
    ∃ v, r.word? ((Registry.ofNames names).number a) = some v := by
  cases a with
  | constant v => exact ⟨v, rfl⟩
  | «variable» id => exact absurd rfl (h.ne_variable id)
  | name text =>
    obtain ⟨id, hid⟩ : ∃ id, (Registry.ofNames names).lookup text = some id :=
      Registry.exists_lookup_foldl (hnames text rfl)
    rw [Registry.number_name hid]
    have hlt := (Registry.numbered_ofNames names).lt_size hid
    exact ⟨_, List.getElem?_eq_getElem (hr ▸ hlt)⟩

/-! ## from the tokens to the expression -/

/-- An accepted text on its way: its tokens, their pieces and formula, and the tree before its names
are interned, with the part that it is made of. -/
structure Accepted (raw : String) (toks : List Token) (ps : List Piece) (x : Formula) (q : Part)
    (t : Tree) : Prop where
  tokenize : tokenize (clean raw) = toks.map .ok
  ofTokens : Tree.ofTokens toks = .ok t
  pieces : pieces? toks = some ps
  derives : Derives 0 ps x
  formula : q.formula? = some x
  encloses : t.Encloses q
  size : t.size = q.size + 1

namespace Accepted

variable {raw : String} {toks : List Token} {ps : List Piece} {x : Formula} {q : Part} {t : Tree}

theorem every (h : Accepted raw toks ps x q t) :
    x.Every (fun a => a.Written ∧ ∀ name, a = .name name → name ∈ t.names) :=
  (h.derives.every_written h.pieces).and (h.encloses.every_names h.size h.formula)

theorem consolidate_eq (h : Accepted raw toks ps x q t) : t.consolidate =
    (t.relabel (Registry.ofNames t.names).number, (Registry.ofNames t.names).canonicalize) :=
  h.encloses.consolidate_eq h.size

theorem reads (h : Accepted raw toks ps x q t) : t.Reads t.root x :=
  Part.reads h.encloses.shows.holds h.formula h.encloses.root

end Accepted

namespace Expression

variable {raw : String} {e : Expression}

theorem accepted (h : parse raw = .ok e) : ∃ toks ps x q t, Accepted raw toks ps x q t ∧
    e = ⟨raw, clean raw, t.relabel (Registry.ofNames t.names).number,
      (Registry.ofNames t.names).canonicalize⟩ := by
  obtain ⟨-, -, t, ht, rfl⟩ := parse_eq_ok_iff.mp h
  obtain ⟨toks, htoks, hof⟩ := Tree.ofText_eq_ok_iff.mp ht
  obtain ⟨ps, q, x, hps, hq, hsize, hx, hd⟩ := Tree.derives_of_ofTokens hof
  have ha : Accepted raw toks ps x q t := ⟨htoks, hof, hps, hd, hx, hq, hsize⟩
  exact ⟨toks, ps, x, q, t, ha, by rw [ha.consolidate_eq]⟩

/-- the tree of an accepted expression reads as a formula whose variables are all registered -/
theorem exists_reads (h : parse raw = .ok e) : ∃ x, e.tree.Reads e.tree.root x ∧
    ∀ r : Registry, r.cells.length = e.registry.size → x.Registered r := by
  obtain ⟨toks, ps, x, q, t, ha, rfl⟩ := accepted h
  refine ⟨_, ha.reads.relabel _, fun r hr => ?_⟩
  exact Formula.every_relabel.mpr
    (ha.every.imp (fun a hw => hw.1.exists_word hw.2 (hr.trans (Registry.size_canonicalize _))))

/-- an accepted expression has an outcome for every assignment, at every width -/
theorem exists_evaluate (h : parse raw = .ok e) {r : Registry}
    (hr : r.cells.length = e.registry.size) (w : Width) : ∃ o, e.tree.evaluate r w = .ok o := by
  obtain ⟨x, hx, hreg⟩ := exists_reads h
  exact ⟨_, hx.evaluate (hreg r hr) w⟩

end Expression

end WordExpr
