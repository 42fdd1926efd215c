import Mathlib.Data.Finset.Card
import WordExpr.Proofs.Building.Shape
import WordExpr.Proofs.Registry.Operations

/-!
# How consolidation numbers the names

The number of a name is the number of different names in front of its first occurrence, and its
variable counts all occurrences (`Registry.get?_ofNames_iff`). Consolidation gives the leaves of any
tree such numbers, from left to right, and leaves everything else in the arena alone
(`Tree.consolidate_numbers`); in the tree of a text this is the order of the text.

* `distinctBefore names name`    the different names in front of the first occurrence of a name;
* `Outline.namedLeaves`          the leaves with names, from left to right;
* `Tree.Numbers`                 what consolidation makes of a tree with these leaves.
-/

namespace WordExpr

/-! ## names in a list -/

/-- how many different names stand in front of the first occurrence of a name -/
def distinctBefore (names : List String) (name : String) : Nat :=
  (names.takeWhile (· ≠ name)).toFinset.card

section

variable {names : List String} {name last : String}

theorem distinctBefore_append (h : name ∈ names) (last : String) :
    distinctBefore (names ++ [last]) name = distinctBefore names name := by
  have hlt : (names.takeWhile (· ≠ name)).length ≠ names.length := by
    intro heq
    have hself := (List.takeWhile_prefix _).eq_of_length heq
    have hne : decide (name ≠ name) = true :=
      List.all_eq_true.mp List.all_takeWhile name (hself.symm ▸ h)
    exact of_decide_eq_true hne rfl
  unfold distinctBefore
  rw [List.takeWhile_append, if_neg hlt]

theorem distinctBefore_append_self (h : name ∉ names) :
    distinctBefore (names ++ [name]) name = names.toFinset.card := by
  have hall : ∀ a ∈ names, decide (a ≠ name) = true := by
    intro a ha
    exact decide_eq_true (fun he => h (he ▸ ha))
  unfold distinctBefore
  rw [List.takeWhile_append_of_pos hall, List.takeWhile_cons_of_neg (by simp), List.append_nil]

theorem toFinset_append_of_mem (h : last ∈ names) :
    (names ++ [last]).toFinset = names.toFinset := by
  rw [List.toFinset_append]
  exact Finset.union_eq_left.mpr (by simpa using h)

theorem card_toFinset_append (h : last ∉ names) :
    (names ++ [last]).toFinset.card = names.toFinset.card + 1 := by
  have hunion : (names ++ [last]).toFinset = insert last names.toFinset := by
    ext a
    simp
  rw [hunion, Finset.card_insert_of_notMem (by simpa using h)]

end

/-! ## interned names -/

namespace Registry

variable {names : List String} {name : String} {id : VarId}

theorem size_ofNames (names : List String) : (ofNames names).size = names.toFinset.card := by
  induction names using List.reverseRecOn with
  | nil => rfl
  | append_singleton names last ih =>
    rw [ofNames_append]
    by_cases h : last ∈ names
    · obtain ⟨id, hid⟩ : ∃ id, (ofNames names).lookup last = some id := exists_lookup_foldl h
      rw [intern_of_some hid, toFinset_append_of_mem h, ← ih]
      exact List.length_modify ..
    · rw [intern_of_none (lookup_ofNames_eq_none h), card_toFinset_append h, ← ih]
      exact List.length_append ..

theorem lookup_ofNames (h : name ∈ names) :
    (ofNames names).lookup name = some (distinctBefore names name) := by
  induction names using List.reverseRecOn with
  | nil => cases h
  | append_singleton names last ih =>
    rw [ofNames_append]
    by_cases hn : name ∈ names
    · rw [distinctBefore_append hn]
      exact lookup_intern_of_some (ih hn) last
    · obtain rfl : name = last := by
        rcases List.mem_append.mp h with h | h
        · exact absurd h hn
        · exact List.mem_singleton.mp h
      rw [lookup_intern, intern_of_none (lookup_ofNames_eq_none hn), size_ofNames,
        distinctBefore_append_self hn]

theorem get?_ofNames_iff {v : Variable} : (ofNames names).get? id = some v ↔
    ∃ name ∈ names, id = distinctBefore names name ∧ v = ⟨name, name, names.count name, id⟩ := by
  have hnum := numbered_ofNames names
  have hfields : ∀ {v}, (ofNames names).get? id = some v →
      v.name ∈ names ∧ v = ⟨v.name, v.name, names.count v.name, id⟩ := by
    intro v hv
    obtain ⟨hmem, hspell, hcount⟩ := name_of_mem_ofNames (List.mem_of_getElem? hv)
    have hseen := hnum.firstSeen id v hv
    refine ⟨hmem, ?_⟩
    rw [← hcount, ← hseen]
    obtain ⟨spelling, name, occurrences, firstSeen⟩ := v
    cases hspell
    rfl
  constructor
  · intro hv
    obtain ⟨hmem, hv'⟩ := hfields hv
    have hplace := (hnum.place v.name id).mpr ⟨v, hv, rfl⟩
    rw [lookup_ofNames hmem] at hplace
    exact ⟨v.name, hmem, (Option.some.inj hplace).symm, hv'⟩
  · rintro ⟨name, hmem, hid, rfl⟩
    obtain ⟨v, hv, rfl⟩ := (hnum.place name id).mp (hid ▸ lookup_ofNames hmem)
    rw [← (hfields hv).2]
    exact hv

theorem slots_ofNames (names : List String) : (ofNames names).slots = names.length := by
  have hrun : ofNames names = run (names.map .intern) := by
    rw [run, List.foldl_map]
    rfl
  rw [hrun, slots_run, List.countP_map]
  exact congrFun List.countP_true names

/-! ## canonical names -/

theorem get?_canonicalize_ofNames_iff {v : Variable} :
    (ofNames names).canonicalize.get? id = some v ↔ ∃ name ∈ names, id = distinctBefore names name ∧
      v = ⟨name, canonicalName id, names.count name, id⟩ := by
  have hget : (ofNames names).canonicalize.get? id =
      ((ofNames names).get? id).map Variable.renamed := List.getElem?_map ..
  rw [hget, Option.map_eq_some_iff]
  constructor
  · rintro ⟨w, hw, rfl⟩
    obtain ⟨name, hmem, hid, rfl⟩ := get?_ofNames_iff.mp hw
    exact ⟨name, hmem, hid, rfl⟩
  · rintro ⟨name, hmem, hid, rfl⟩
    exact ⟨_, get?_ofNames_iff.mpr ⟨name, hmem, hid, rfl⟩, rfl⟩

theorem lookup_canonicalize_iff {r : Registry} (h : r.Numbered) {text : String} :
    r.canonicalize.lookup text = some id ↔ id < r.size ∧ text = canonicalName id := by
  have hname : ∀ v, r.canonicalize.vars[id]? = some v →
      id < r.size ∧ v.name = canonicalName id := by
    intro v hv
    have hlt : id < r.size := r.size_canonicalize ▸ (List.getElem?_eq_some_iff.mp hv).1
    have hn := r.nameOf_canonicalize h hlt
    rw [nameOf, get?, hv] at hn
    exact ⟨hlt, Option.some.inj hn⟩
  rw [h.canonicalize.place]
  constructor
  · rintro ⟨v, hv, rfl⟩
    exact hname v hv
  · rintro ⟨hlt, rfl⟩
    have hv := List.getElem?_eq_getElem (r.size_canonicalize.symm ▸ hlt)
    exact ⟨_, hv, (hname _ hv).2⟩

end Registry

/-! ## leaves with names -/

def Symbol.name? : Symbol → Option String
  | term name => some name
  | _ => none

/-- what is read from a text as a name is the text itself -/
theorem Token.name?_ofTerm (tok : Token) : (Symbol.ofTerm tok.text).toOption.bind Symbol.name? =
    if isAlpha tok.firstChar then some tok.text else none := by
  unfold Symbol.ofTerm Token.firstChar
  cases tok.text.toList with
  | nil => rfl
  | cons c cs =>
    show (Except.toOption (if isAlpha c then _ else _)).bind _ = if isAlpha c then _ else _
    split
    · rfl
    · cases literal tok.text <;> rfl

/-- the leaves with names, from left to right -/
def Outline.namedLeaves (o : Outline) : List (NodeId × String) :=
  o.leaves.filterMap fun e => e.2.name?.map (e.1, ·)

theorem Outline.names_namedLeaves (o : Outline) :
    o.namedLeaves.map Prod.snd = o.leaves.filterMap (fun e => e.2.name?) := by
  unfold namedLeaves
  rw [List.map_filterMap]
  refine List.filterMap_congr fun e _ => ?_
  cases e.2.name? <;> rfl

/-- What consolidation makes of a tree with these names at its leaves: the tree with numbers in
their place, and the registry of the names. -/
structure Tree.Numbers (t : Tree) (leaves : List (NodeId × String)) (t' : Tree) (r : Registry) :
    Prop where
  size : t'.size = t.size
  root : t'.root = t.root
  named : ∀ i name, (i, name) ∈ leaves → t'.node i =
    { t.node i with symbol := some (.variable (distinctBefore (leaves.map Prod.snd) name)) }
  kept : ∀ i, (∀ name, (i, name) ∉ leaves) → t'.node i = t.node i
  vars : ∀ id v, r.get? id = some v ↔ ∃ name ∈ leaves.map Prod.snd,
    id = distinctBefore (leaves.map Prod.snd) name ∧
      v = ⟨name, canonicalName id, (leaves.map Prod.snd).count name, id⟩
  distinct : r.size = (leaves.map Prod.snd).toFinset.card
  cells : r.cells = List.replicate r.size 0
  slots : r.slots = leaves.length
  lookup : ∀ text id, r.lookup text = some id ↔ id < r.size ∧ text = canonicalName id

namespace Tree

theorem nameAt?_eq_bind (t : Tree) (i : NodeId) :
    t.nameAt? i = (t.node i).symbol.bind Symbol.name? := by
  unfold nameAt?
  cases (t.node i).symbol with
  | none => rfl
  | some s => cases s <;> rfl

namespace Spans

variable {t : Tree} {o : Outline}

theorem namedLeaves_eq (h : t.Spans o) :
    o.namedLeaves = t.leaves.filterMap fun i => (t.nameAt? i).map (i, ·) := by
  have hleaves := congrArg (List.filterMap fun (e : NodeId × Option Symbol) =>
    (e.2.bind Symbol.name?).map (e.1, ·)) h.leaves_eq
  rw [List.filterMap_map, List.filterMap_map] at hleaves
  refine hleaves.symm.trans (List.filterMap_congr fun i _ => ?_)
  rw [nameAt?_eq_bind]
  rfl

theorem mem_namedLeaves_iff (h : t.Spans o) {i : NodeId} {name : String} :
    (i, name) ∈ o.namedLeaves ↔ i ∈ t.leaves ∧ t.nameAt? i = some name := by
  rw [h.namedLeaves_eq, List.mem_filterMap]
  constructor
  · rintro ⟨j, hj, he⟩
    obtain ⟨n, hn, he⟩ := Option.map_eq_some_iff.mp he
    cases he
    exact ⟨hj, hn⟩
  · rintro ⟨hi, hn⟩
    exact ⟨i, hi, by rw [hn]; rfl⟩

theorem names_eq (h : t.Spans o) : t.names = o.namedLeaves.map Prod.snd := by
  rw [h.namedLeaves_eq, names, List.map_filterMap]
  refine List.filterMap_congr fun i _ => ?_
  cases t.nameAt? i <;> rfl

theorem numbers (h : t.Spans o) : t.Numbers o.namedLeaves t.consolidate.1 t.consolidate.2 := by
  obtain ⟨t', hc, hsize, hroot, hnode⟩ := h.exists_consolidate
  have hnum := Registry.numbered_ofNames (o.namedLeaves.map Prod.snd)
  rw [h.names_eq] at hc hnode
  rw [hc]
  refine ⟨hsize, hroot, fun i name hi => ?_, fun i hi => ?_, fun id v => ?_, ?_, ?_, ?_,
    fun text id => ?_⟩
  · obtain ⟨hmem, hname⟩ := h.mem_namedLeaves_iff.mp hi
    have hlookup := Registry.lookup_ofNames (List.mem_map_of_mem (f := Prod.snd) hi)
    rw [hnode i (h.lt_of_mem_leaves hmem), if_pos hmem,
      Node.relabel_of_symbol (nameAt?_eq_some_iff.mp hname), Registry.number_name hlookup]
    rfl
  · by_cases hlt : i < t.size
    · rw [hnode i hlt]
      split
      · next hmem =>
        refine Node.relabel_eq_self fun a ha => Registry.number_eq_self ?_
        rintro name rfl
        exact hi name (h.mem_namedLeaves_iff.mpr ⟨hmem, nameAt?_eq_some_iff.mpr ha⟩)
      · rfl
    · rw [node_of_size_le t (Nat.le_of_not_lt hlt),
        node_of_size_le t' (hsize.symm ▸ Nat.le_of_not_lt hlt)]
  · exact Registry.get?_canonicalize_ofNames_iff
  · rw [Registry.size_canonicalize, Registry.size_ofNames]
  · exact hnum.canonicalize.cells
  · rw [Registry.slots_canonicalize, Registry.slots_ofNames, List.length_map]
  · rw [Registry.size_canonicalize]
    exact Registry.lookup_canonicalize_iff hnum

end Spans

/-- the leaves of the tree of a text are its terms, in their order -/
theorem spans_of_ofText {text : String} {t : Tree} (h : ofText text = .ok t) :
    t.Spans t.outline ∧ ∃ toks : List Token, tokenize text = toks.map .ok ∧
      t.outline.leaves.map (fun e => .ok e.2) =
        (toks.filter Token.isTerm).map (fun tok => Symbol.ofTerm tok.text) := by
  obtain ⟨toks, htoks, hof⟩ := ofText_eq_ok_iff.mp h
  obtain ⟨ps, q, x, hps, hq, -, hx, hd⟩ := derives_of_ofTokens hof
  have hspans := hq.shows.spans
  rw [hspans.outline_eq]
  exact ⟨hspans, toks, htoks, leaves_outline_eq hps hd hx⟩

/-- **Consolidation numbers the names from left to right.** Of any tree whose links form a finite
tree only the leaves with names change, and the registry has what they say. In the tree of a text
these leaves are the names of the text, in its order. -/
theorem consolidate_numbers :
    (∀ t : Tree, t.Treelike → t.Spans t.outline ∧
      t.Numbers t.outline.namedLeaves t.consolidate.1 t.consolidate.2) ∧
    ∀ (text : String) (t : Tree), ofText text = .ok t → t.Treelike ∧
      ∃ toks : List Token, tokenize text = toks.map .ok ∧
        t.outline.leaves.map (fun e => .ok e.2) =
          (toks.filter Token.isTerm).map (fun tok => Symbol.ofTerm tok.text) ∧
        t.outline.namedLeaves.map Prod.snd =
          (toks.filter fun tok => isAlpha tok.firstChar && tok.isTerm).map Token.text := by
  refine ⟨fun t h => ⟨h.spans, h.spans.numbers⟩, fun text t h => ?_⟩
  obtain ⟨hspans, toks, htoks, hleaves⟩ := spans_of_ofText h
  refine ⟨hspans.treelike, toks, htoks, hleaves, ?_⟩
  have hnames := congrArg (List.filterMap fun (s : Except ParseError Symbol) =>
    s.toOption.bind Symbol.name?) hleaves
  rw [List.filterMap_map, List.filterMap_map] at hnames
  rw [Outline.names_namedLeaves, ← List.filter_filter, ← List.filterMap_eq_map,
    List.filterMap_filter]
  refine hnames.trans (List.filterMap_congr fun tok _ => ?_)
  exact tok.name?_ofTerm

/-- the name that comes first twice as often -/
theorem consolidate_numbers_swapped : ∃ t, ofText "b-a*(b+2)" = .ok t ∧
    t.consolidate.2.get? 0 = some ⟨"b", "a", 2, 0⟩ ∧
    t.consolidate.2.get? 1 = some ⟨"a", "b", 1, 1⟩ ∧ t.consolidate.2.size = 2 ∧
    t.consolidate.2.slots = 3 := by
  generalize hlist : ([⟨.term, "b", 0⟩, ⟨.operator, "-", 1⟩, ⟨.term, "a", 2⟩, ⟨.operator, "*", 3⟩,
    ⟨.bracket, "(", 4⟩, ⟨.term, "b", 5⟩, ⟨.operator, "+", 6⟩, ⟨.term, "2", 7⟩,
    ⟨.bracket, ")", 8⟩] : List Token) = toks
  have hread : tokenize "b-a*(b+2)" = toks.map .ok := by
    rw [← hlist]
    decide +kernel
  have hsome : (ofText "b-a*(b+2)").toOption.isSome = true := by decide +kernel
  obtain ⟨t, ht⟩ := Option.isSome_iff_exists.mp hsome
  obtain ⟨htree, toks', htoks', -, hnames⟩ := consolidate_numbers.2 _ t (eq_ok_of_toOption ht)
  obtain rfl : toks = toks' :=
    List.map_injective_iff.mpr (fun _ _ => Except.ok.inj) (hread.symm.trans htoks')
  have hnames : t.outline.namedLeaves.map Prod.snd = ["b", "a", "b"] := by
    rw [hnames, ← hlist]
    decide +kernel
  obtain ⟨-, hnumbers⟩ := consolidate_numbers.1 t htree
  refine ⟨t, eq_ok_of_toOption ht, (hnumbers.vars 0 _).mpr ⟨"b", ?_⟩,
    (hnumbers.vars 1 _).mpr ⟨"a", ?_⟩, ?_, ?_⟩
  · rw [hnames]
    decide +kernel
  · rw [hnames]
    decide +kernel
  · rw [hnumbers.distinct, hnames]
    decide +kernel
  · rw [hnumbers.slots, ← List.length_map Prod.snd, hnames]
    rfl

end Tree

end WordExpr
