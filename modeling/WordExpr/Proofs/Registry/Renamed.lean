import WordExpr.Proofs.Building.Simulation
import WordExpr.Proofs.Registry.Consolidated

/-!
# Consolidation under other names

`Atom.mapName f` puts the name `f a` in the place of a name `a`. Where `f` keeps the names of a tree
apart, they have the same numbers afterwards (`Registry.number_mapName`). So the tree of tokens with
other names has the same consolidation, and its registry only remembers other spellings
(`Tree.ofTokens_mapName`).
-/

namespace WordExpr

def Atom.mapName (f : String → String) : Atom → Atom
  | .name text => .name (f text)
  | a => a

namespace Tree

variable (t : Tree) (f : String → String)

theorem nameAt?_relabel_mapName (id : NodeId) :
    (t.relabel (Atom.mapName f)).nameAt? id = (t.nameAt? id).map f := by
  unfold nameAt?
  rw [node_relabel, Node.relabel]
  cases (t.node id).symbol with
  | none => rfl
  | some s => cases s <;> rfl

theorem names_relabel_mapName : (t.relabel (Atom.mapName f)).names = t.names.map f := by
  unfold names
  rw [leaves_relabel, List.map_filterMap]
  congr 1
  exact funext (t.nameAt?_relabel_mapName f)

end Tree

namespace Registry

variable {ns : List String}

theorem exists_number_eq {name : String} (h : name ∈ ns) : ∃ id < (ofNames ns).size,
    (ofNames ns).lookup name = some id ∧ (ofNames ns).number (.name name) = .variable id := by
  obtain ⟨id, hid⟩ : ∃ id, (ofNames ns).lookup name = some id := exists_lookup_foldl h
  exact ⟨id, (numbered_ofNames ns).lt_size hid, hid, number_name hid⟩

/-- the new names have the old numbers -/
theorem number_mapName {f : String → String} (hf : ∀ a ∈ ns, ∀ b ∈ ns, f a = f b → a = b)
    {a : Atom} (ha : ∀ name, a = .name name → name ∈ ns) :
    (ofNames (ns.map f)).number (a.mapName f) = (ofNames ns).number a := by
  cases a with
  | constant v => rfl
  | «variable» id => rfl
  | name text =>
    obtain ⟨id, -, hid, hn⟩ := exists_number_eq (ha text rfl)
    rw [hn]
    exact number_name ((lookup_ofNames_map hf (ha text rfl)).trans hid)

end Registry

namespace Tree

variable {t : Tree} {f : String → String}

theorem Encloses.consolidate_mapName {q q' : Part} (h : t.Encloses q)
    (hsize : t.size = q.size + 1) (hf : ∀ a ∈ t.names, ∀ b ∈ t.names, f a = f b → a = b)
    (h' : (t.relabel (Atom.mapName f)).Encloses q')
    (hsize' : (t.relabel (Atom.mapName f)).size = q'.size + 1) :
    (t.relabel (Atom.mapName f)).consolidate =
      (t.consolidate.1, t.consolidate.2.respell f) := by
  have htree : (t.relabel (Atom.mapName f)).relabel (Registry.ofNames (t.names.map f)).number =
      t.relabel (Registry.ofNames t.names).number := by
    rw [relabel_relabel]
    refine relabel_congr ?_
    intro i hi a ha
    refine Registry.number_mapName hf ?_
    intro name hname
    refine List.mem_filterMap.mpr ⟨i, h.mem_leaves_of_symbol hsize hi ha, ?_⟩
    rw [nameAt?_eq_some_iff, ha, hname]
  rw [h'.consolidate_eq hsize', h.consolidate_eq hsize, names_relabel_mapName, htree,
    Registry.ofNames_map hf, Registry.canonicalize_rename]

/-- consolidation does not see other names, as long as they are told apart -/
theorem ofTokens_mapName {toks toks' : List Token}
    (ha : List.Forall₂ (Token.Alike (Atom.mapName f)) toks toks') (ht : ofTokens toks = .ok t)
    (hf : ∀ a ∈ t.names, ∀ b ∈ t.names, f a = f b → a = b) :
    ∃ t', ofTokens toks' = .ok t' ∧
      t'.consolidate = (t.consolidate.1, t.consolidate.2.respell f) := by
  have ht' := ofTokens_relabel ha ht
  obtain ⟨-, q, -, -, hq, hsize, -, -⟩ := derives_of_ofTokens ht
  obtain ⟨-, q', -, -, hq', hsize', -, -⟩ := derives_of_ofTokens ht'
  exact ⟨_, ht', hq.consolidate_mapName hsize hf hq' hsize'⟩

end Tree

end WordExpr
