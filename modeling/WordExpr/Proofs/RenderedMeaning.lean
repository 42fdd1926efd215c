import WordExpr.Proofs.Accepted
import WordExpr.Proofs.Evaluation.Residues
import WordExpr.Proofs.Registry.Reached
import WordExpr.Proofs.Spelling.Rendered
import WordExpr.Proofs.Spelling.Tokens

/-!
# Rendering keeps the meaning

Under the names of a registry, the rendering of a tree is read as the rendered formula with names in
the place of variables (`Registry.named`). They name the same cells, so the tree that is read has
the outcome of the tree that was written, whatever is in the cells (`Tree.evaluate_ofText_render`).
-/

namespace WordExpr

/-! ## other atoms -/

theorem Sign.map_relabel {u : List Piece} {f : Flags} (h : Sign u f) (g : Atom → Atom) :
    u.map (Piece.relabel g) = u := by
  cases h <;> rfl

theorem Derives.relabel {k : Nat} {ps : List Piece} {x : Formula} (h : Derives k ps x)
    (g : Atom → Atom) : Derives k (ps.map (Piece.relabel g)) (x.relabel g) := by
  induction h with
  | operand hu a =>
    rw [List.map_append, hu.map_relabel]
    exact .operand hu (g a)
  | brackets hu h ih =>
    rw [List.map_append, List.map_cons, List.map_append, hu.map_relabel]
    exact .brackets hu ih
  | tighter h ih => exact ih.tighter
  | chain hop hl hr ihl ihr =>
    rw [List.map_append, List.map_cons]
    exact .chain hop ihl ihr

namespace Formula

variable {r : Registry} {g : Atom → Atom} {x : Formula}

/-- the outcome of what a rendering says -/
theorem outcome_relabel_rendered (h : x.Every (fun a => r.word? (g a) = r.word? a)) (place : Place)
    (w : Width) : ((x.rendered place).relabel g).outcome r w = x.outcome r w := by
  have hres : (x.rendered place).Every (fun a => r.residue w.bits (g a) = r.residue w.bits a) :=
    every_rendered.mpr (h.imp (fun a ha => by rw [Registry.residue, Registry.residue, ha]))
  rw [outcome_relabel hres, outcome, dividesByZero_rendered, value_rendered, outcome]

end Formula

/-! ## the names of a registry -/

namespace Registry

/-- the name of a variable in its place, if it has one -/
def named (r : Registry) : Atom → Atom
  | .variable id =>
    match r.nameOf id with
    | some name => .name name
    | none => .variable id
  | a => a

theorem named_variable {r : Registry} {id : VarId} {v : Variable} (h : r.vars[id]? = some v) :
    r.named (.variable id) = .name v.name := by
  have hname : r.nameOf id = some v.name := congrArg (Option.map _) h
  rw [named, hname]

variable {r : Registry} {a : Atom} {c : UInt64}

/-- a variable that has a word has a name -/
theorem Reached.exists_variable (h : r.Reached) {id : VarId}
    (ha : r.word? (.variable id) = some c) : ∃ v, r.vars[id]? = some v := by
  have hlt : id < r.cells.length := (List.getElem?_eq_some_iff.mp ha).1
  rw [h.length_cells] at hlt
  exact ⟨_, List.getElem?_eq_getElem hlt⟩

/-- the name of a variable has its number -/
theorem Reached.word?_named (h : r.Reached) (ha : r.word? a = some c) (cells : List UInt64) :
    ({ r with cells } : Registry).word? (r.named a) = ({ r with cells } : Registry).word? a := by
  cases a with
  | name text => rfl
  | constant v => rfl
  | «variable» id =>
    obtain ⟨v, hv⟩ := h.exists_variable ha
    have hlookup : r.lookup v.name = some id := (h.numbered.place v.name id).mpr ⟨v, hv, rfl⟩
    rw [named_variable hv]
    show (r.lookup v.name).bind _ = _
    rw [hlookup]
    rfl

theorem Reached.exists_word (h : r.Reached) (ha : r.word? a = some c) {cells : List UInt64}
    (hc : cells.length = r.size) : ∃ c', ({ r with cells } : Registry).word? a = some c' := by
  have hcell (id : VarId) (hid : r.value? id = some c) : ∃ c', cells[id]? = some c' := by
    have hlt : id < r.cells.length := (List.getElem?_eq_some_iff.mp hid).1
    rw [h.length_cells, ← hc] at hlt
    exact ⟨_, List.getElem?_eq_getElem hlt⟩
  cases a with
  | constant v => exact ⟨v, rfl⟩
  | «variable» id => exact hcell id ha
  | name text =>
    obtain ⟨id, hlookup, hid⟩ := Option.bind_eq_some_iff.mp ha
    obtain ⟨c', hc'⟩ := hcell id hid
    exact ⟨c', Option.bind_eq_some_iff.mpr ⟨id, hlookup, hc'⟩⟩

/-- what is written for an atom is read as the atom, by its name -/
theorem Reached.legible (h : r.Reached) (hn : ∀ v ∈ r.vars, IsName v.name.toList)
    (ha : r.word? a = some c) : IsWord (a.text r.nameOf) ∧
      Symbol.ofTerm (String.ofList (a.text r.nameOf)) = .ok (r.named a).symbol := by
  have hname {v : Variable} {id : VarId} (hv : r.vars[id]? = some v) : IsWord v.name.toList ∧
      Symbol.ofTerm (String.ofList v.name.toList) = .ok (Atom.name v.name).symbol := by
    have hv' : IsName v.name.toList := hn v (List.mem_of_getElem? hv)
    refine ⟨hv'.1, hv'.ofTerm_eq.trans ?_⟩
    rw [String.ofList_toList]
    rfl
  cases a with
  | constant v => exact ⟨isWord_decimal v.toNat, ofTerm_decimal v⟩
  | «variable» id =>
    obtain ⟨v, hv⟩ := h.exists_variable ha
    have htext : (Atom.variable id).text r.nameOf = v.name.toList := by
      have hid : r.nameOf id = some v.name := congrArg (Option.map _) hv
      rw [Atom.text, Outline.variableName, hid]
    rw [htext, named_variable hv]
    exact hname hv
  | name text =>
    obtain ⟨id, hlookup, -⟩ := Option.bind_eq_some_iff.mp ha
    obtain ⟨v, hv, rfl⟩ := (h.numbered.place text id).mp hlookup
    exact hname hv

end Registry

/-! ## the tree that is read -/

namespace Tree

theorem exists_reads_of_derives {text : String} {toks : List Token} {ps : List Piece} {x : Formula}
    (htoks : tokenize text = toks.map .ok) (hps : pieces? toks = some ps) (hx : Derives 0 ps x) :
    ∃ t, ofText text = .ok t ∧ t.Reads t.root x := by
  obtain ⟨t, ht, hformula⟩ := exists_ofTokens hps hx
  obtain ⟨-, q, y, -, hq, -, hy, -⟩ := derives_of_ofTokens ht
  have he : q.formula? = some x := hq.shows.formula?_eq.symm.trans hformula
  exact ⟨t, ofText_eq_ok_iff.mpr ⟨toks, htoks, ht⟩, Part.reads hq.shows.holds he hq.root⟩

theorem Reads.exists_ofText_render {t : Tree} {x : Formula} (h : t.Reads t.root x)
    (hx : x.Binary) {names : VarId → Option String} {τ : Atom → Atom}
    (hl : x.Every (fun a => IsWord (a.text names) ∧
      Symbol.ofTerm (String.ofList (a.text names)) = .ok (τ a).symbol)) :
    ∃ t', ofText (t.render names) = .ok t' ∧ t'.Reads t'.root ((x.rendered none).relabel τ) := by
  obtain ⟨k, ps, -, hd, hps⟩ :=
    h.exists_derives hx h.height_lt (show Place.Fits 6 none from trivial)
  have hd : Derives 0 ps (x.rendered none) := hd.mono (Nat.zero_le k)
  have hlegible : Legible (Atom.text names) τ ps := hd.every_iff.mp (Formula.every_rendered.mpr hl)
  obtain ⟨toks, htoks, hread⟩ := hd.tokenize_spell hlegible
  have htext : t.render names = String.ofList (spell (Atom.text names) ps) := by
    rw [← hps, ← String.ofList_toList (s := t.render names), toList_render]
    rfl
  rw [htext]
  exact exists_reads_of_derives htoks (pieces?_of_readAs hread) (hd.relabel τ)

/-- A sound tree without a cycle is read back from its rendering with the same outcome, for every
width and whatever is in the cells. -/
theorem evaluate_ofText_render {t : Tree} {r : Registry} (hr : r.Reached)
    (hn : ∀ v ∈ r.vars, IsName v.name.toList) (hac : t.Acyclic t.root)
    (hs : ∀ j, t.Reaches t.root j → (t.node j).Sound r) :
    ∃ t', ofText (t.render r.nameOf) = .ok t' ∧
      ∀ cells : List UInt64, cells.length = r.size → ∀ w : Width, ∃ o,
        t.evaluate { r with cells } w = .ok o ∧ t'.evaluate { r with cells } w = .ok o := by
  obtain ⟨x, hx, hreg⟩ := t.exists_reads hac hs
  obtain ⟨t', ht', hx'⟩ := hx.exists_ofText_render (hx.binary_of_sound hs)
    (hreg.imp (fun a ⟨_, ha⟩ => hr.legible hn ha))
  refine ⟨t', ht', fun cells hc w => ⟨x.outcome { r with cells } w, ?_, ?_⟩⟩
  · exact hx.evaluate (hreg.imp (fun a ⟨_, ha⟩ => hr.exists_word ha hc)) w
  · have hword : x.Every (fun a => ({ r with cells } : Registry).word? (r.named a) =
        ({ r with cells } : Registry).word? a) :=
      hreg.imp (fun a ⟨_, ha⟩ => hr.word?_named ha cells)
    have hreg' : ((x.rendered none).relabel r.named).Registered { r with cells } := by
      refine Formula.every_relabel.mpr (Formula.every_rendered.mpr (hreg.imp ?_))
      rintro a ⟨_, ha⟩
      rw [hr.word?_named ha]
      exact hr.exists_word ha hc
    rw [hx'.evaluate hreg' w, Formula.outcome_relabel_rendered hword]

/-- a product with both flags, on its right a difference without brackets -/
theorem evaluate_ofText_render_flagged : ∃ t', ofText "~(`(`a*(b-~(7))))" = .ok t' ∧
    t'.evaluate { (Registry.ofNames ["x", "y"]).canonicalize with cells := [3, 5] }
      ⟨8, by decide, by decide⟩ = .ok (.value 216) := by
  have hr : (Registry.ofNames ["x", "y"]).canonicalize.Reached :=
    ((Registry.Reached.empty.intern "x").intern "y").canonicalize
  generalize ht : (⟨#[⟨none, some 1, some 2, some (.operator .mul), true, true⟩,
    { symbol := some (.variable 0), minus := true },
    { left := some 3, right := some 4, symbol := some (.operator .sub) },
    { symbol := some (.term "b") }, { left := some 5, complement := true },
    { symbol := some (.constant 7) }], 0⟩ : Tree) = t
  have hd : t.Descends := by
    subst ht
    decide
  have hword : (Registry.ofNames ["x", "y"]).canonicalize.word? (.name "b") = some 0 := by
    decide +kernel
  have hs : ∀ j, t.Reaches t.root j →
      (t.node j).Sound (Registry.ofNames ["x", "y"]).canonicalize := by
    intro j hj
    have hlt : j < t.size := hd.lt_size (by rw [← ht]; decide) hj
    subst ht
    match j, hlt with
    | 0, _ => exact .binary rfl rfl rfl rfl
    | 1, _ => exact .leaf (a := .variable 0) rfl rfl rfl rfl
    | 2, _ => exact .binary rfl rfl rfl rfl
    | 3, _ => exact .leaf (a := .name "b") rfl rfl rfl hword
    | 4, _ => exact .group rfl rfl
    | 5, _ => exact .leaf (a := .constant 7) rfl rfl rfl rfl
  have htext : t.render (Registry.ofNames ["x", "y"]).canonicalize.nameOf =
      "~(`(`a*(b-~(7))))" := by
    subst ht
    decide +kernel
  have hvalue : t.evaluate { (Registry.ofNames ["x", "y"]).canonicalize with cells := [3, 5] }
      ⟨8, by decide, by decide⟩ = .ok (.value 216) := by
    subst ht
    decide +kernel
  obtain ⟨t', ht', heval⟩ := evaluate_ofText_render hr (Registry.isName_canonicalize _)
    (hd.acyclic t.root) hs
  obtain ⟨o, ho, ho'⟩ := heval [3, 5] rfl ⟨8, by decide, by decide⟩
  rw [htext] at ht'
  exact ⟨t', ht', ho'.trans (ho.symm.trans hvalue)⟩

end Tree

end WordExpr
