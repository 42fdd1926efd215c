import WordExpr.Proofs.Accepted
import WordExpr.Proofs.Evaluation.Residues
import WordExpr.Proofs.Registry.Reached

/-!
# Consolidation keeps the meaning

Consolidation puts numbers in the place of the names of a tree, and the variables of its registry
remember how they were spelled (`Registry.exists_get?_canonicalize`). So a tree whose names are
looked up in some registry comes to the same outcome as its consolidation, once every cell of the
new registry holds the word that the old one has for the spelling of its variable
(`Tree.evaluate_consolidate`). The canonical names play no part in this.
-/

namespace WordExpr

namespace Registry

/-! ## spellings -/

theorem spelling_mem_canonicalize {names : List String} {v : Variable}
    (hv : v ∈ (ofNames names).canonicalize.vars) : v.spelling ∈ names := by
  obtain ⟨u, hu, rfl⟩ := List.mem_map.mp hv
  obtain ⟨hmem, hs, -⟩ := name_of_mem_ofNames hu
  show u.spelling ∈ names
  rw [hs]
  exact hmem

/-- the variable with the number of a name is spelled like it, whatever it is called now -/
theorem exists_get?_canonicalize {names : List String} {name : String} (h : name ∈ names) :
    ∃ id v, (ofNames names).lookup name = some id ∧
      (ofNames names).canonicalize.get? id = some v ∧ v.spelling = name := by
  obtain ⟨id, hid⟩ : ∃ id, (ofNames names).lookup name = some id := exists_lookup_foldl h
  obtain ⟨v, hv, hname⟩ := ((numbered_ofNames names).place name id).mp hid
  refine ⟨id, v.renamed, hid, ?_, ?_⟩
  · show ((ofNames names).vars.map _)[id]? = _
    rw [List.getElem?_map, hv]
    rfl
  · exact (name_of_mem_ofNames (List.mem_of_getElem? hv)).2.1.trans hname

/-! ## words -/

theorem Reached.exists_word_of_lookup {r : Registry} (h : r.Reached) {name : String} {id : VarId}
    (hid : r.lookup name = some id) : ∃ c, (r.lookup name).bind r.value? = some c := by
  have hlt : id < r.cells.length := h.length_cells ▸ h.numbered.lt_size hid
  rw [hid]
  exact ⟨_, List.getElem?_eq_getElem hlt⟩

/-- the cells that go with the spellings of some variables -/
theorem Reached.exists_cells {r : Registry} (h : r.Reached) {vars : List Variable}
    (hvars : ∀ v ∈ vars, ∃ id, r.lookup v.spelling = some id) :
    ∃ cells : List UInt64,
      vars.map (fun v => (r.lookup v.spelling).bind r.value?) = cells.map some := by
  refine ⟨vars.map (fun v => ((r.lookup v.spelling).bind r.value?).getD 0), ?_⟩
  rw [List.map_map]
  refine List.map_congr_left ?_
  intro v hv
  obtain ⟨id, hid⟩ := hvars v hv
  obtain ⟨c, hc⟩ := h.exists_word_of_lookup hid
  show _ = some (Option.getD _ 0)
  rw [hc]
  rfl

/-- a written atom has the word of its number -/
theorem word?_number {r : Registry} {names : List String} {cells : List UInt64}
    (hcells : (ofNames names).canonicalize.vars.map
      (fun v => (r.lookup v.spelling).bind r.value?) = cells.map some) {a : Atom}
    (ha : a.Written) (hnames : ∀ name, a = .name name → name ∈ names) :
    ({ (ofNames names).canonicalize with cells } : Registry).word? ((ofNames names).number a) =
      r.word? a := by
  cases a with
  | constant v => rfl
  | «variable» id => exact absurd rfl (ha.ne_variable id)
  | name text =>
    obtain ⟨id, v, hid, hv, hs⟩ := exists_get?_canonicalize (hnames text rfl)
    have hcell := congrArg (·[id]?) hcells
    simp only [List.getElem?_map] at hcell
    rw [show (ofNames names).canonicalize.vars[id]? = some v from hv] at hcell
    obtain ⟨c, hc, hword⟩ := Option.map_eq_some_iff.mp hcell.symm
    rw [number_name hid]
    show cells[id]? = (r.lookup text).bind r.value?
    rw [hc, ← hs]
    exact hword

end Registry

/-! ## trees -/

namespace Tree

/-- **Consolidation preserves the outcome.** If a registry knows all names of a tree, its words for
the spellings of the new variables make up cells under which the consolidated tree has the outcome
that the tree has with its names, at every width. -/
theorem evaluate_consolidate {toks : List Token} {t : Tree} (ht : ofTokens toks = .ok t)
    {r : Registry} (hr : r.Reached) (hn : ∀ name ∈ t.names, ∃ id, r.lookup name = some id) :
    ∃ cells : List UInt64, t.consolidate.2.vars.map
        (fun v => (r.lookup v.spelling).bind r.value?) = cells.map some ∧
      ∀ w : Width, ∃ o, t.evaluate r w = .ok o ∧
        t.consolidate.1.evaluate { t.consolidate.2 with cells } w = .ok o := by
  obtain ⟨ps, q, x, hps, hq, hsize, hx, hd⟩ := derives_of_ofTokens ht
  have hread : t.Reads t.root x := Part.reads hq.shows.holds hx hq.root
  have hevery := (hd.every_written hps).and (hq.every_names hsize hx)
  rw [hq.consolidate_eq hsize]
  obtain ⟨cells, hcells⟩ := hr.exists_cells
    (fun v hv => hn v.spelling (Registry.spelling_mem_canonicalize hv))
  have hword : x.Every (fun a => (∃ c, r.word? a = some c) ∧
      ({ (Registry.ofNames t.names).canonicalize with cells } : Registry).word?
        ((Registry.ofNames t.names).number a) = r.word? a) := by
    refine hevery.imp ?_
    rintro a ⟨hw, hnames⟩
    refine ⟨?_, Registry.word?_number hcells hw hnames⟩
    cases a with
    | constant v => exact ⟨v, rfl⟩
    | «variable» id => exact absurd rfl (hw.ne_variable id)
    | name text =>
      obtain ⟨id, hid⟩ := hn text (hnames text rfl)
      exact hr.exists_word_of_lookup hid
  refine ⟨cells, hcells, fun w => hread.evaluate_relabel (hread.relabel _) ?_ ?_ ?_⟩
  · exact hword.imp (fun a h => h.1)
  · exact Formula.every_relabel.mpr (hword.imp (fun a h => h.2 ▸ h.1))
  · exact hword.imp (fun a h => by rw [Registry.residue, Registry.residue, h.2])

/-- the names are the canonical names of each other -/
theorem evaluate_consolidate_swapped : ∃ t,
    ofTokens [⟨.term, "b", 0⟩, ⟨.operator, "-", 1⟩, ⟨.term, "a", 2⟩] = .ok t ∧
      t.evaluate (((({} : Registry).intern "a").2.intern "b").2.setValue 0 5 |>.setValue 1 9)
        ⟨8, by decide, by decide⟩ = .ok (.value 4) ∧
      t.consolidate.1.evaluate { t.consolidate.2 with cells := [9, 5] } ⟨8, by decide, by decide⟩ =
        .ok (.value 4) := by
  generalize hr : (((({} : Registry).intern "a").2.intern "b").2.setValue 0 5 |>.setValue 1 9) = r
  have hreached : r.Reached := by
    subst hr
    exact (((Registry.Reached.empty.intern "a").intern "b").setValue 0 5).setValue 1 9
  have hfacts : (ofTokens [⟨.term, "b", 0⟩, ⟨.operator, "-", 1⟩, ⟨.term, "a", 2⟩]).toOption.map
      (fun t => (t.names, t.consolidate.2.vars.map (fun v => (r.lookup v.spelling).bind r.value?),
        t.evaluate r ⟨8, by decide, by decide⟩)) =
      some (["b", "a"], [some 9, some 5], .ok (.value 4)) := by
    subst hr
    decide +kernel
  obtain ⟨t, ht, hfacts⟩ := Option.map_eq_some_iff.mp hfacts
  have ht := eq_ok_of_toOption ht
  obtain ⟨hnames, hwords⟩ := Prod.mk.inj hfacts
  obtain ⟨hcells, hvalue⟩ := Prod.mk.inj hwords
  have hn : ∀ name ∈ t.names, ∃ id, r.lookup name = some id := by
    subst hr
    rw [hnames]
    simp only [List.mem_cons, List.not_mem_nil, or_false, forall_eq_or_imp, forall_eq]
    exact ⟨⟨1, by decide +kernel⟩, ⟨0, by decide +kernel⟩⟩
  obtain ⟨cells, hc, heval⟩ := evaluate_consolidate ht hreached hn
  obtain ⟨o, ho, ho'⟩ := heval ⟨8, by decide, by decide⟩
  rw [hcells] at hc
  have hlist : cells = [9, 5] := List.map_injective_iff.mpr (Option.some_injective _) hc.symm
  refine ⟨t, ht, hvalue, ?_⟩
  rw [← hlist, ho', ← ho, hvalue]

end Tree

end WordExpr
