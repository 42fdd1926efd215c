import Mathlib.Data.List.Induction
import WordExpr.Proofs.Index
import WordExpr.Registry

/-!
# What a registry knows after interning

`Registry.ofNames names` has interned the names of a list one after the other.

* `Registry.Numbered r`   the number of a name is the place of its variable, which is where the name
                          was first seen; all cells are zero. Interning keeps this
                          (`Numbered.intern`);
* `Registry.rename f`     other names for the same variables; interning commutes with it where `f`
                          keeps names apart (`ofNames_map`), and canonical names do not see it
                          (`canonicalize_rename`).
-/

namespace WordExpr

namespace Variable

def rename (f : String → String) (v : Variable) : Variable :=
  { v with spelling := f v.spelling, name := f v.name }

def respell (f : String → String) (v : Variable) : Variable := { v with spelling := f v.spelling }

end Variable

namespace Registry

def ofNames (names : List String) : Registry := names.foldl (fun r name => (r.intern name).2) {}

theorem ofNames_append (names : List String) (name : String) :
    ofNames (names ++ [name]) = ((ofNames names).intern name).2 :=
  List.foldl_append ..

/-! ## one more name -/

theorem intern_of_some {r : Registry} {name : String} {id : VarId} (h : r.lookup name = some id) :
    r.intern name = (id, { r with vars := r.vars.modify id Variable.seenAgain }) := by
  unfold intern
  rw [h]

theorem intern_of_none {r : Registry} {name : String} (h : r.lookup name = none) :
    r.intern name = (r.size,
      { index := (name, r.size) :: r.index
        vars := r.vars ++ [⟨name, name, 1, r.size⟩]
        cells := r.cells ++ [0] }) := by
  unfold intern
  rw [h]

theorem lookup_intern (r : Registry) (name : String) :
    (r.intern name).2.lookup name = some (r.intern name).1 := by
  cases h : r.lookup name with
  | some id =>
    rw [intern_of_some h]
    exact h
  | none =>
    rw [intern_of_none h]
    exact List.lookup_cons_self

theorem lookup_intern_of_ne {r : Registry} {name other : String} (h : other ≠ name) :
    (r.intern name).2.lookup other = r.lookup other := by
  cases hn : r.lookup name with
  | some id =>
    rw [intern_of_some hn]
    rfl
  | none =>
    rw [intern_of_none hn]
    show List.lookup other ((name, r.size) :: r.index) = _
    rw [List.lookup_cons, beq_eq_false_iff_ne.mpr h]
    rfl

theorem lookup_intern_of_some {r : Registry} {other : String} {id : VarId}
    (h : r.lookup other = some id) (name : String) : (r.intern name).2.lookup other = some id := by
  by_cases he : other = name
  · subst he
    rw [lookup_intern, intern_of_some h]
  · rw [lookup_intern_of_ne he, h]

theorem lookup_foldl_of_some {r : Registry} {other : String} {id : VarId}
    (h : r.lookup other = some id) (names : List String) :
    (names.foldl (fun r name => (r.intern name).2) r).lookup other = some id := by
  induction names generalizing r with
  | nil => exact h
  | cons name names ih => exact ih (lookup_intern_of_some h name)

theorem exists_lookup_foldl {r : Registry} {name : String} {names : List String}
    (h : name ∈ names) :
    ∃ id, (names.foldl (fun r name => (r.intern name).2) r).lookup name = some id := by
  induction names generalizing r with
  | nil => cases h
  | cons n names ih =>
    rcases List.mem_cons.mp h with rfl | h
    · exact ⟨_, lookup_foldl_of_some (r.lookup_intern name) names⟩
    · exact ih h

/-! ## numbers and places -/

structure Numbered (r : Registry) : Prop where
  firstSeen : ∀ (i : Nat) (v : Variable), r.vars[i]? = some v → v.firstSeen = i
  place : ∀ (name : String) (i : Nat),
    r.lookup name = some i ↔ ∃ v, r.vars[i]? = some v ∧ v.name = name
  cells : r.cells = List.replicate r.size 0

namespace Numbered

variable {r : Registry}

theorem empty : Numbered {} where
  firstSeen _ _ h := nomatch h
  place _ _ := iff_of_false (nomatch ·) (fun ⟨_, h, _⟩ => nomatch h)
  cells := rfl

theorem lt_size (h : r.Numbered) {name : String} {i : VarId} (hi : r.lookup name = some i) :
    i < r.size := by
  obtain ⟨v, hv, -⟩ := (h.place name i).mp hi
  exact (List.getElem?_eq_some_iff.mp hv).1

theorem seenAgain (h : r.Numbered) (id : VarId) :
    Numbered { r with vars := r.vars.modify id Variable.seenAgain } := by
  have hvars : ∀ (i : Nat) (v' : Variable), (r.vars.modify id Variable.seenAgain)[i]? = some v' →
      ∃ v : Variable, r.vars[i]? = some v ∧ v'.name = v.name ∧ v'.firstSeen = v.firstSeen := by
    intro i v' hv'
    rw [List.getElem?_modify] at hv'
    obtain ⟨v, hv, rfl⟩ := Option.map_eq_some_iff.mp hv'
    refine ⟨v, hv, ?_⟩
    split <;> exact ⟨rfl, rfl⟩
  refine ⟨fun i v' hv' => ?_, fun name i => ?_, ?_⟩
  · obtain ⟨v, hv, -, hseen⟩ := hvars i v' hv'
    rw [hseen, h.firstSeen i v hv]
  · refine (h.place name i).trans ⟨fun ⟨v, hv, hname⟩ => ?_, fun ⟨v', hv', hname⟩ => ?_⟩
    · refine ⟨if id = i then v.seenAgain else v, ?_, ?_⟩
      · rw [List.getElem?_modify, hv]
        split <;> rfl
      · split <;> exact hname
    · obtain ⟨v, hv, hvn, -⟩ := hvars i v' hv'
      exact ⟨v, hv, hvn.symm.trans hname⟩
  · show r.cells = List.replicate (r.vars.modify id _).length 0
    rw [List.length_modify]
    exact h.cells

/-- the index is in step with the names -/
theorem indexes (h : r.Numbered) : Indexes r.index (r.vars.map (·.name)) := by
  intro name i
  rw [List.getElem?_map, Option.map_eq_some_iff]
  exact h.place name i

theorem added (h : r.Numbered) {name : String} (hn : r.lookup name = none) :
    Numbered { index := (name, r.size) :: r.index, vars := r.vars ++ [⟨name, name, 1, r.size⟩],
               cells := r.cells ++ [0] } := by
  refine ⟨fun i v hv => ?_, fun other i => ?_, ?_⟩
  · rcases getElem?_concat_eq_some_iff.mp hv with hv | ⟨rfl, rfl⟩
    · exact h.firstSeen i v hv
    · rfl
  · have hindexes := h.indexes.concat hn other i
    rw [List.length_map] at hindexes
    refine hindexes.trans ?_
    rw [← Option.map_eq_some_iff (f := Variable.name), ← List.getElem?_map, List.map_append]
    rfl
  · show r.cells ++ [0] = List.replicate (r.vars ++ [_]).length 0
    rw [List.length_append, List.length_singleton, List.replicate_succ', h.cells]
    rfl

theorem intern (h : r.Numbered) (name : String) : (r.intern name).2.Numbered := by
  cases hn : r.lookup name with
  | some id =>
    rw [intern_of_some hn]
    exact h.seenAgain id
  | none =>
    rw [intern_of_none hn]
    exact h.added hn

end Numbered

theorem numbered_ofNames (names : List String) : (ofNames names).Numbered := by
  induction names using List.reverseRecOn with
  | nil => exact .empty
  | append_singleton names name ih =>
    rw [ofNames_append]
    exact ih.intern name

theorem lookup_ofNames_eq_none {names : List String} {name : String} (h : name ∉ names) :
    (ofNames names).lookup name = none := by
  induction names using List.reverseRecOn with
  | nil => rfl
  | append_singleton names last ih =>
    rw [List.mem_append, not_or, List.mem_singleton] at h
    rw [ofNames_append, lookup_intern_of_ne h.2, ih h.1]

/-- a variable is called as it is spelled, and counts the occurrences of its name -/
theorem name_of_mem_ofNames {names : List String} {v : Variable} (hv : v ∈ (ofNames names).vars) :
    v.name ∈ names ∧ v.spelling = v.name ∧ v.occurrences = names.count v.name := by
  induction names using List.reverseRecOn generalizing v with
  | nil => cases hv
  | append_singleton names last ih =>
    rw [ofNames_append] at hv
    rw [List.count_append]
    by_cases h : last ∈ names
    · obtain ⟨i, hi⟩ : ∃ i, (ofNames names).lookup last = some i := exists_lookup_foldl h
      rw [intern_of_some hi] at hv
      obtain ⟨j, hj⟩ := List.mem_iff_getElem?.mp hv
      rw [List.getElem?_modify] at hj
      obtain ⟨w, hw, rfl⟩ := Option.map_eq_some_iff.mp hj
      obtain ⟨hmem, hspell, hcount⟩ := ih (List.mem_of_getElem? hw)
      have hplace := ((numbered_ofNames names).place w.name j).mpr ⟨w, hw, rfl⟩
      by_cases hij : i = j
      · subst hij
        obtain ⟨u, hu, hname⟩ := ((numbered_ofNames names).place last i).mp hi
        cases hw.symm.trans hu
        rw [if_pos rfl]
        refine ⟨List.mem_append_left _ hmem, hspell, ?_⟩
        show w.occurrences + 1 = names.count w.name + [last].count w.name
        rw [hcount, hname, List.count_singleton_self]
      · have hne : w.name ≠ last := by
          intro he
          rw [he, hi] at hplace
          exact hij (Option.some.inj hplace)
        rw [if_neg hij, List.count_singleton, beq_eq_false_iff_ne.mpr hne.symm]
        exact ⟨List.mem_append_left _ hmem, hspell, hcount⟩
    · rw [intern_of_none (lookup_ofNames_eq_none h)] at hv
      rcases List.mem_append.mp hv with hv | hv
      · obtain ⟨hmem, hspell, hcount⟩ := ih hv
        have hne : v.name ≠ last := fun he => h (he ▸ hmem)
        rw [List.count_singleton, beq_eq_false_iff_ne.mpr hne.symm]
        exact ⟨List.mem_append_left _ hmem, hspell, hcount⟩
      · cases List.mem_singleton.mp hv
        refine ⟨by simp, rfl, ?_⟩
        show 1 = names.count last + [last].count last
        rw [List.count_eq_zero.mpr h, List.count_singleton_self]

/-! ## other names -/

def rename (f : String → String) (r : Registry) : Registry :=
  { r with
    index := r.index.map (fun (name, id) => (f name, id))
    vars := r.vars.map (Variable.rename f) }

theorem lookup_map {f : String → String} {name : String} {index : List (String × VarId)}
    (hf : ∀ entry ∈ index, f name = f entry.1 → name = entry.1) :
    (index.map (fun (name, id) => (f name, id))).lookup (f name) = index.lookup name := by
  induction index with
  | nil => rfl
  | cons entry index ih =>
    obtain ⟨other, id⟩ := entry
    obtain ⟨hne, hf⟩ := List.forall_mem_cons.mp hf
    rw [List.map_cons, List.lookup_cons, List.lookup_cons, ih hf]
    by_cases he : name = other
    · rw [he, beq_self_eq_true, beq_self_eq_true]
    · rw [beq_eq_false_iff_ne.mpr he, beq_eq_false_iff_ne.mpr (mt hne he)]

theorem rename_intern {f : String → String} {r : Registry} {name : String}
    (hf : ∀ entry ∈ r.index, f name = f entry.1 → name = entry.1) :
    (r.rename f).intern (f name) = ((r.intern name).1, (r.intern name).2.rename f) := by
  have hlookup : (r.rename f).lookup (f name) = r.lookup name := lookup_map hf
  cases hn : r.lookup name with
  | some id =>
    rw [intern_of_some hn, intern_of_some (hlookup.trans hn)]
    have hvars : (r.vars.map (Variable.rename f)).modify id Variable.seenAgain =
        (r.vars.modify id Variable.seenAgain).map (Variable.rename f) := by
      refine List.ext_getElem? ?_
      intro i
      rw [List.getElem?_modify, List.getElem?_map, List.getElem?_map, List.getElem?_modify]
      cases r.vars[i]? with
      | none => rfl
      | some v => split <;> rfl
    simp only [rename, hvars]
  | none =>
    rw [intern_of_none hn, intern_of_none (hlookup.trans hn)]
    have hsize : (r.rename f).size = r.size := List.length_map ..
    rw [hsize]
    congr 1
    simp only [rename, List.map_append, List.map_cons, List.map_nil]
    rfl

theorem mem_index_ofNames {names : List String} {entry : String × VarId}
    (h : entry ∈ (ofNames names).index) : entry.1 ∈ names := by
  induction names using List.reverseRecOn with
  | nil => cases h
  | append_singleton names name ih =>
    rw [ofNames_append] at h
    cases hn : (ofNames names).lookup name with
    | some id =>
      rw [intern_of_some hn] at h
      exact List.mem_append_left _ (ih h)
    | none =>
      rw [intern_of_none hn] at h
      rcases List.mem_cons.mp h with rfl | h
      · exact List.mem_append_right _ (List.mem_singleton_self name)
      · exact List.mem_append_left _ (ih h)

/-- renaming comes out the same before and after interning if no two names become one -/
theorem ofNames_map {f : String → String} {names : List String}
    (hf : ∀ a ∈ names, ∀ b ∈ names, f a = f b → a = b) :
    ofNames (names.map f) = (ofNames names).rename f := by
  induction names using List.reverseRecOn with
  | nil => rfl
  | append_singleton names name ih =>
    rw [List.map_append, List.map_cons, List.map_nil, ofNames_append, ofNames_append,
      ih (fun a ha b hb => hf a (List.mem_append_left _ ha) b (List.mem_append_left _ hb))]
    have hname : ∀ entry ∈ (ofNames names).index, f name = f entry.1 → name = entry.1 :=
      fun entry he => hf name (by simp) entry.1 (List.mem_append_left _ (mem_index_ofNames he))
    rw [rename_intern hname]

theorem lookup_ofNames_map {f : String → String} {names : List String}
    (hf : ∀ a ∈ names, ∀ b ∈ names, f a = f b → a = b) {name : String} (hn : name ∈ names) :
    (ofNames (names.map f)).lookup (f name) = (ofNames names).lookup name := by
  rw [ofNames_map hf]
  exact lookup_map (fun entry he => hf name hn entry.1 (mem_index_ofNames he))

/-! ## canonical names -/

def respell (f : String → String) (r : Registry) : Registry :=
  { r with vars := r.vars.map (Variable.respell f) }

/-- the canonical names do not depend on the names that were interned -/
theorem canonicalize_rename (f : String → String) (r : Registry) :
    (r.rename f).canonicalize = r.canonicalize.respell f := by
  have hvars : (r.vars.map (Variable.rename f)).map Variable.renamed =
      (r.vars.map Variable.renamed).map (Variable.respell f) := by
    rw [List.map_map, List.map_map]
    rfl
  simp only [canonicalize, rename, respell, hvars, List.zipIdx_map, List.map_map]
  rfl

theorem size_canonicalize (r : Registry) : r.canonicalize.size = r.size := List.length_map ..

theorem nameOf_canonicalize {r : Registry} (h : r.Numbered) {id : VarId} (hid : id < r.size) :
    r.canonicalize.nameOf id = some (canonicalName id) := by
  have hv : r.vars[id]? = some r.vars[id] := List.getElem?_eq_getElem hid
  show ((r.vars.map Variable.renamed)[id]?).map _ = _
  rw [List.getElem?_map, hv]
  show some (canonicalName (r.vars[id]).firstSeen) = _
  rw [h.firstSeen id _ hv]

variable (f : String → String) (r : Registry)

theorem size_respell : (r.respell f).size = r.size := List.length_map ..

theorem get?_respell (id : VarId) :
    (r.respell f).get? id = (r.get? id).map (Variable.respell f) := List.getElem?_map ..

theorem nameOf_respell : (r.respell f).nameOf = r.nameOf := by
  funext id
  unfold nameOf
  rw [get?_respell, Option.map_map]
  rfl

theorem slots_respell : (r.respell f).slots = r.slots := by
  show ((r.vars.map _).map _).foldr (· + ·) 0 = _
  rw [List.map_map]
  rfl

end Registry

end WordExpr
