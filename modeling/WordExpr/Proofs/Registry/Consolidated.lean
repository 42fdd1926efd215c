import WordExpr.Proofs.Building.Finish
import WordExpr.Proofs.Registry.Interning
import WordExpr.Proofs.Relabel
import WordExpr.Registry

/-!
# What consolidation does

`Registry.number r` puts the number of a name, where the registry `r` has one, in the place of the
name. Consolidation puts the numbers of all names at the leaves, in the order of the text, into the
tree, and nothing else of it changes: `foldl_internLeaf` for any list of leaves,
`Tree.Spans.exists_consolidate` for those of an arena that spans a tree. Where an arena holds no
names but at the leaves of a tree, this is `Tree.relabel` (`Tree.Encloses.consolidate_eq`).
-/

namespace WordExpr

def Registry.number (r : Registry) : Atom → Atom
  | .name text =>
    match r.lookup text with
    | some id => .variable id
    | none => .name text
  | a => a

namespace Tree

def nameAt? (t : Tree) (id : NodeId) : Option String :=
  match (t.node id).symbol with
  | some (.term name) => some name
  | _ => none

/-- the names at the leaves -/
def names (t : Tree) : List String := t.leaves.filterMap t.nameAt?

theorem nameAt?_eq_some_iff {t : Tree} {id : NodeId} {name : String} :
    t.nameAt? id = some name ↔ (t.node id).symbol = some (Atom.name name).symbol := by
  unfold nameAt?
  split
  · next n h => simp [h, Atom.symbol]
  · next h =>
    refine iff_of_false (nomatch ·) (fun h' => h name h')

end Tree

/-! ## one leaf after the other -/

theorem Registry.number_eq_self {r : Registry} {a : Atom} (h : ∀ name, a ≠ .name name) :
    r.number a = a := by
  cases a with
  | name text => exact absurd rfl (h text)
  | constant v => rfl
  | «variable» id => rfl

theorem Registry.number_name {r : Registry} {name : String} {id : VarId}
    (h : r.lookup name = some id) : r.number (.name name) = .variable id := by
  rw [number, h]

namespace Tree

variable {t : Tree} {r : Registry} {id : NodeId}

theorem internLeaf_of_some {name : String} (h : t.nameAt? id = some name) :
    internLeaf (t, r) id =
      (t.modify id (fun n => { n with symbol := some (.variable (r.intern name).1) }),
        (r.intern name).2) := by
  have hs : (t.node id).symbol = some (.term name) := nameAt?_eq_some_iff.mp h
  simp only [internLeaf, hs]

theorem internLeaf_of_none (h : t.nameAt? id = none) : internLeaf (t, r) id = (t, r) := by
  rw [nameAt?] at h
  split at h
  · cases h
  · next hs =>
    rw [internLeaf]
    split
    · next name hn => exact absurd hn (hs name)
    · rfl

theorem nameAt?_eq_none_iff : t.nameAt? id = none ↔
    ∀ name, (t.node id).symbol ≠ some (Atom.name name).symbol := by
  rw [Option.eq_none_iff_forall_ne_some]
  exact forall_congr' (fun name => not_congr nameAt?_eq_some_iff)

theorem nameAt?_congr {t' : Tree} (h : t'.node id = t.node id) : t'.nameAt? id = t.nameAt? id := by
  unfold nameAt?
  rw [h]

/-- the leaves of a list get the numbers that their names have in the end -/
theorem foldl_internLeaf {ids : List NodeId} (hnd : ids.Nodup) (hlt : ∀ id ∈ ids, id < t.size) :
    ∃ t' r', ids.foldl internLeaf (t, r) = (t', r') ∧
      r' = (ids.filterMap t.nameAt?).foldl (fun r name => (r.intern name).2) r ∧
      t'.size = t.size ∧ t'.root = t.root ∧ ∀ i < t.size, t'.node i =
        if i ∈ ids then (t.node i).relabel r'.number else t.node i := by
  induction ids generalizing t r with
  | nil => exact ⟨t, r, rfl, rfl, rfl, rfl, fun i _ => (if_neg (by simp)).symm⟩
  | cons id ids ih =>
    obtain ⟨hid, hnd⟩ := List.nodup_cons.mp hnd
    obtain ⟨hidlt, hlt⟩ := List.forall_mem_cons.mp hlt
    rw [List.foldl_cons]
    cases hname : t.nameAt? id with
    | none =>
      rw [internLeaf_of_none hname, List.filterMap_cons_none hname]
      obtain ⟨t', r', hfold, hr, hsize, hroot, hnode⟩ := ih (r := r) hnd hlt
      refine ⟨t', r', hfold, hr, hsize, hroot, fun i hi => ?_⟩
      rw [hnode i hi]
      by_cases he : i = id
      · subst he
        rw [if_neg hid, if_pos (List.mem_cons_self ..)]
        refine (Node.relabel_eq_self (fun a ha => ?_)).symm
        exact Registry.number_eq_self (fun name hn => nameAt?_eq_none_iff.mp hname name (hn ▸ ha))
      · simp only [List.mem_cons, he, false_or]
    | some name =>
      rw [internLeaf_of_some hname, List.filterMap_cons_some hname, List.foldl_cons]
      generalize ht1 : t.modify id _ = t1
      have hsize1 : t1.size = t.size := ht1 ▸ t.size_modify id _
      have hnode1 : ∀ i < t.size, t1.node i = if id = i then
          { t.node i with symbol := some (.variable (r.intern name).1) } else t.node i :=
        fun i hi => ht1 ▸ t.node_modify id i _ hi
      have hnames : ids.filterMap t1.nameAt? = ids.filterMap t.nameAt? := by
        refine List.filterMap_congr (fun i hi => nameAt?_congr ?_)
        rw [hnode1 i (hlt i hi), if_neg (fun he : id = i => hid (he ▸ hi))]
      obtain ⟨t', r', hfold, hr, hsize, hroot, hnode⟩ :=
        ih (t := t1) (r := (r.intern name).2) hnd (fun i hi => hsize1 ▸ hlt i hi)
      rw [hnames] at hr
      refine ⟨t', r', hfold, hr, hsize.trans hsize1, hroot.trans (ht1 ▸ rfl), fun i hi => ?_⟩
      rw [hnode i (hsize1 ▸ hi), hnode1 i hi]
      by_cases he : i = id
      · subst he
        rw [if_neg hid, if_pos rfl, if_pos (List.mem_cons_self ..),
          Node.relabel_of_symbol (nameAt?_eq_some_iff.mp hname)]
        have hlookup : r'.lookup name = some (r.intern name).1 :=
          hr ▸ Registry.lookup_foldl_of_some (r.lookup_intern name) _
        rw [Registry.number_name hlookup]
        rfl
      · simp only [List.mem_cons, he, Ne.symm he, false_or, if_false]

end Tree

/-! ## the whole tree -/

/-- the leaves of any tree get the numbers of their names -/
theorem Tree.Spans.exists_consolidate {t : Tree} {o : Outline} (h : t.Spans o) :
    ∃ t', t.consolidate = (t', (Registry.ofNames t.names).canonicalize) ∧ t'.size = t.size ∧
      t'.root = t.root ∧ ∀ i < t.size, t'.node i =
        if i ∈ t.leaves then (t.node i).relabel (Registry.ofNames t.names).number
        else t.node i := by
  obtain ⟨t', r', hfold, hr, hsize, hroot, hnode⟩ := foldl_internLeaf (t := t) (r := {})
    h.nodup_leaves (fun i hi => h.lt_of_mem_leaves hi)
  have hr' : r' = Registry.ofNames t.names := hr
  rw [hr'] at hfold hnode
  exact ⟨t', by rw [consolidate, hfold], hsize, hroot, hnode⟩

/-- an atom stands at a leaf -/
theorem Part.isLeaf_of_entries {q : Part} {up : Option NodeId} {e : Entry} (he : e ∈ q.entries up)
    {a : Atom} (ha : e.2.symbol = some a.symbol) : e.2.isLeaf = true := by
  induction q generalizing up with
  | missing => cases he
  | leaf id f b =>
    rw [entries_leaf, List.mem_singleton] at he
    rw [he]
    show (Symbol.operator? b.symbol).isNone = true
    rw [b.operator?_symbol]
    rfl
  | group id f p ih =>
    rw [entries_group] at he
    rcases List.mem_cons.mp he with rfl | he
    · cases ha
    · exact ih he
  | binary id op l r ihl ihr =>
    rw [entries_binary] at he
    rcases List.mem_cons.mp he with rfl | he
    · have hop := a.operator?_symbol
      rw [← Option.some.inj ha] at hop
      cases hop
    · exact (List.mem_append.mp he).elim ihl ihr

namespace Tree.Encloses

variable {t : Tree} {q : Part}

theorem leaves_eq (h : t.Encloses q) :
    t.leaves = ((q.entries none).map Prod.fst).filter (fun id => (t.node id).isLeaf) := by
  unfold leaves
  rw [h.shows.preorder_eq]

/-- every atom of the arena is at a leaf of the tree -/
theorem mem_leaves_of_symbol (h : t.Encloses q) (hsize : t.size = q.size + 1) {i : NodeId}
    (hi : i < t.size) {a : Atom} (ha : (t.node i).symbol = some a.symbol) : i ∈ t.leaves := by
  rcases h.exists_entry hsize hi with rfl | ⟨e, he, rfl⟩
  · rw [h.holds.node (0, .ofGroup none q.id? {}) (List.mem_cons_self ..)] at ha
    cases ha
  · have hn := h.shows.holds.node e he
    rw [h.leaves_eq]
    refine List.mem_filter.mpr ⟨List.mem_map_of_mem he, ?_⟩
    rw [hn] at ha ⊢
    exact Part.isLeaf_of_entries he ha

theorem consolidate_eq (h : t.Encloses q) (hsize : t.size = q.size + 1) :
    t.consolidate =
      (t.relabel (Registry.ofNames t.names).number, (Registry.ofNames t.names).canonicalize) := by
  obtain ⟨t', hc, hsize', hroot, hnode⟩ := h.shows.spans.exists_consolidate
  rw [hc]
  congr 1
  refine ext_node (hsize'.trans (t.size_relabel _).symm) hroot ?_
  intro i hi
  rw [hsize'] at hi
  rw [hnode i hi, node_relabel]
  split
  · rfl
  · next hmem =>
    exact (Node.relabel_eq_self (fun a ha =>
      absurd (h.mem_leaves_of_symbol hsize hi ha) hmem)).symm

end Tree.Encloses

end WordExpr
