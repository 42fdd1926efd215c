import WordExpr.Proofs.Accepted
import WordExpr.Proofs.Registry.Renamed
import WordExpr.Proofs.Spelling.Rendering
import WordExpr.Proofs.Spelling.Tokens
import WordExpr.Proofs.WellFormed.Sentences

/-!
# Renderings are read back

The rendering of an accepted expression spells out the same derivation with other operands: decimal
numbers for the constants, and for the variables the names that it is given. If these can be told
apart (`Distinct`), the front end takes the rendering for the same tree, down to the places in the
arena, and numbers the variables as before (`Expression.exists_parse_render`). This is so for the
canonical names (`Expression.distinct_nameOf`) and for the numbered ones (`distinct_numbered`).
-/

namespace WordExpr

open Text

/-! ## names -/

/-- each of the first `n` variables is written as a name, and no two of them alike -/
structure Distinct (names : VarId → Option String) (n : Nat) : Prop where
  isName : ∀ id < n, IsName (Outline.variableName names id)
  injective : ∀ i < n, ∀ j < n,
    Outline.variableName names i = Outline.variableName names j → i = j

theorem distinct_numbered (n : Nat) : Distinct (fun _ => none) n where
  isName id _ := isName_numbered id
  injective _ _ _ _ h := decimal_injective (List.cons.inj h).2

namespace Registry

/-- the text that a name gets by its number -/
def spelled (r : Registry) (names : VarId → Option String) (name : String) : String :=
  String.ofList ((r.number (.name name)).text names)

variable {names : VarId → Option String} {ns : List String} {name : String}

theorem spelled_injective (hd : Distinct names (ofNames ns).size) {name' : String}
    (h : name ∈ ns) (h' : name' ∈ ns)
    (he : (ofNames ns).spelled names name = (ofNames ns).spelled names name') : name = name' := by
  obtain ⟨i, hi, hlookup, hn⟩ := exists_number_eq h
  obtain ⟨j, hj, hlookup', hn'⟩ := exists_number_eq h'
  rw [spelled, spelled, hn, hn'] at he
  have hij : i = j := hd.injective i hi j hj (String.ofList_injective he)
  obtain ⟨v, hv, hvn⟩ := ((numbered_ofNames ns).place name i).mp hlookup
  obtain ⟨w, hw, hwn⟩ := ((numbered_ofNames ns).place name' j).mp hlookup'
  rw [hij, hw] at hv
  cases hv
  exact hvn.symm.trans hwn

/-- what a rendering writes for an operand is read as the operand under its new name -/
theorem legible_text (hd : Distinct names (ofNames ns).size) {a : Atom} (h : a.Written)
    (ha : ∀ name, a = .name name → name ∈ ns) :
    IsWord (((ofNames ns).number a).text names) ∧
      Symbol.ofTerm (String.ofList (((ofNames ns).number a).text names)) =
        .ok (a.mapName ((ofNames ns).spelled names)).symbol := by
  cases a with
  | constant v => exact ⟨isWord_decimal v.toNat, ofTerm_decimal v⟩
  | «variable» id => exact absurd rfl (h.ne_variable id)
  | name text =>
    obtain ⟨id, hid, -, hn⟩ := exists_number_eq (ha text rfl)
    have hname : IsName (((ofNames ns).number (.name text)).text names) := by
      rw [hn]
      exact hd.isName id hid
    exact ⟨hname.1, hname.ofTerm_eq⟩

end Registry

/-! ## the second reading -/

/-- tokens with the pieces of others, but for the operands -/
theorem alike_of_pieces? {τ : Atom → Atom} {toks toks' : List Token} {ps : List Piece}
    (h : pieces? toks = some ps) (hk : ∀ t ∈ toks, t.kind ≠ .whitespace)
    (h' : List.Forall₂ (Piece.ReadAs τ) ps toks') : List.Forall₂ (Token.Alike τ) toks toks' := by
  induction toks generalizing ps toks' with
  | nil =>
    cases h
    cases h'
    exact .nil
  | cons t toks ih =>
    obtain ⟨ht, htoks⟩ := List.forall_mem_cons.mp hk
    obtain ⟨c, cs, rfl, hc, hcs⟩ := pieces?_cons ht h
    cases h' with
    | cons hc' hcs' => exact .cons ⟨c, hc, hc'⟩ (ih hcs htoks hcs')

variable {names : VarId → Option String}

namespace Accepted

variable {raw : String} {toks : List Token} {ps : List Piece} {x : Formula} {q : Part} {t : Tree}

theorem legible (h : Accepted raw toks ps x q t)
    (hd : Distinct names (Registry.ofNames t.names).size) :
    Legible (fun a => ((Registry.ofNames t.names).number a).text names)
      (Atom.mapName ((Registry.ofNames t.names).spelled names)) ps := by
  intro a ha
  obtain ⟨hw, hnames⟩ := h.derives.every_iff.mp h.every a ha
  exact Registry.legible_text hd hw hnames

/-- the rendering spells out the derivation -/
theorem render_eq (h : Accepted raw toks ps x q t) (g : Atom → Atom) :
    (t.relabel g).render names = String.ofList (spell (fun a => (g a).text names) ps) := by
  have hx : (t.relabel g).outline.formula? = some (x.relabel g) := by
    have ht : t.outline.formula? = some x := h.encloses.shows.formula?_eq.trans h.formula
    rw [Tree.outline_relabel, Outline.formula?_relabel, ht]
    rfl
  rw [← String.ofList_toList (s := (t.relabel g).render names), Tree.toList_render]
  exact congrArg _ (h.derives.render_eq hx trivial)

theorem kind_ne_whitespace (h : Accepted raw toks ps x q t) :
    ∀ t ∈ toks, t.kind ≠ .whitespace := by
  intro t ht
  have hmem : .ok t ∈ WordExpr.tokenize (clean raw) := by
    rw [h.tokenize]
    exact List.mem_map_of_mem ht
  exact Cursor.kind_of_mem_items hmem

end Accepted

namespace Expression

variable {raw : String} {e : Expression}

/-- what is read from a rendering of an accepted expression -/
theorem exists_parse_render (h : parse raw = .ok e) (hd : Distinct names e.registry.size) :
    ∃ e' f, parse (e.tree.render names) = .ok e' ∧ e'.tree = e.tree ∧
      e'.registry = e.registry.respell f := by
  obtain ⟨toks, ps, x, q, t, ha, rfl⟩ := accepted h
  have hd : Distinct names (Registry.ofNames t.names).size := Registry.size_canonicalize _ ▸ hd
  have hl := ha.legible hd
  obtain ⟨toks', htoks', hread⟩ := ha.derives.tokenize_spell hl
  obtain ⟨t', hof, hc⟩ := Tree.ofTokens_mapName
    (alike_of_pieces? ha.pieces ha.kind_ne_whitespace hread) ha.ofTokens
    (fun a ha b hb => Registry.spelled_injective hd ha hb)
  rw [ha.consolidate_eq] at hc
  show ∃ e' f, parse ((t.relabel (Registry.ofNames t.names).number).render names) = .ok e' ∧ _
  rw [ha.render_eq]
  have hn := ha.derives.normalize_spell hl
  have hcl := ha.derives.clean_spell hl
  generalize String.ofList (spell _ ps) = text at htoks' hn hcl ⊢
  have htree := Tree.ofText_eq_ok_iff.mpr ⟨toks', htoks', hof⟩
  have hv := Tree.validate_of_ofText htree
  rw [← hcl] at htree
  have hparse := parse_eq_ok_iff.mpr ⟨by rwa [hn], by rwa [hcl], _, htree, rfl⟩
  exact ⟨_, _, hparse, congrArg Prod.fst hc, congrArg Prod.snd hc⟩

theorem distinct_nameOf (h : parse raw = .ok e) : Distinct e.registry.nameOf e.registry.size := by
  obtain ⟨toks, ps, x, q, t, -, rfl⟩ := accepted h
  have hname : ∀ id < (Registry.ofNames t.names).canonicalize.size, Outline.variableName
      (Registry.ofNames t.names).canonicalize.nameOf id = nameChars (id + 1) := by
    intro id hid
    rw [Registry.size_canonicalize] at hid
    rw [Outline.variableName, Registry.nameOf_canonicalize (Registry.numbered_ofNames _) hid]
    exact String.toList_ofList
  refine ⟨fun id hid => ?_, fun i hi j hj he => ?_⟩
  · rw [hname id hid]
    exact isName_nameChars id
  · rw [hname i hi, hname j hj] at he
    exact Nat.succ.inj (nameChars_injective he)

/-- The rendering of an accepted expression is read as the same expression but for the spelling of
its variables, and its anonymous rendering as the same tree. -/
theorem parse_render (h : parse raw = .ok e) :
    (∃ e', parse e.render = .ok e' ∧ e'.tree = e.tree ∧ e'.registry.size = e.registry.size ∧
      (∀ id v, e.registry.get? id = some v → ∃ v', e'.registry.get? id = some v' ∧
        v'.name = v.name ∧ v'.occurrences = v.occurrences ∧ v'.firstSeen = v.firstSeen) ∧
      e'.registry.slots = e.registry.slots ∧ e'.render = e.render) ∧
    ∃ e', parse e.tree.renderAnonymous = .ok e' ∧ e'.tree = e.tree := by
  constructor
  · obtain ⟨e', f, hparse, htree, hreg⟩ := exists_parse_render h (distinct_nameOf h)
    refine ⟨e', hparse, htree, ?_, fun id v hv => ?_, ?_, ?_⟩
    · rw [hreg, Registry.size_respell]
    · refine ⟨v.respell f, ?_, rfl, rfl, rfl⟩
      rw [hreg, Registry.get?_respell, hv]
      rfl
    · rw [hreg, Registry.slots_respell]
    · unfold render
      rw [htree, hreg, Registry.nameOf_respell]
  · obtain ⟨e', f, hparse, htree, -⟩ := exists_parse_render h (distinct_numbered _)
    exact ⟨e', hparse, htree⟩

theorem parse_render_nested : ∃ e, parse "2*-[foo << (0x10-foo)]" = .ok e ∧
    e.render = "2*`(a<(16-a))" ∧ ∃ e', parse e.render = .ok e' ∧ e'.tree = e.tree := by
  have hrender : (parse "2*-[foo << (0x10-foo)]").toOption.map render = some "2*`(a<(16-a))" := by
    decide +kernel
  cases h : parse "2*-[foo << (0x10-foo)]" with
  | error r =>
    rw [h] at hrender
    cases hrender
  | ok e =>
    rw [h] at hrender
    obtain ⟨⟨e', hparse, htree, -⟩, -⟩ := parse_render h
    exact ⟨e, rfl, Option.some.inj hrender, e', hparse, htree⟩

end Expression

end WordExpr
