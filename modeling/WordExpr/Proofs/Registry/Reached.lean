import Mathlib.Data.List.Nodup
import WordExpr.Proofs.Registry.Consolidated
import WordExpr.Proofs.Spelling.Words

/-!
# Registries that are reached

A registry starts empty, and interning, canonical renaming and writing cells lead from one to the
next (`Registry.Reached`). Cells apart, each of these keeps `Registry.Numbered`. So in every
registry that is reached the number of a current name is the place of its variable
(`Reached.numbered`), and there is one cell for each variable (`Reached.length_cells`). The
registries of trees are reached (`Tree.reached_consolidate`).
-/

namespace WordExpr

inductive Registry.Reached : Registry → Prop where
  | empty : Reached {}
  | intern {r : Registry} (h : Reached r) (name : String) : Reached (r.intern name).2
  | canonicalize {r : Registry} (h : Reached r) : Reached r.canonicalize
  | setValue {r : Registry} (h : Reached r) (id : VarId) (v : UInt64) : Reached (r.setValue id v)
  | reset {r : Registry} (h : Reached r) : Reached r.reset

namespace Registry

/-! ## canonical renaming -/

/-- an index without a name twice is asked for its entries -/
theorem lookup_eq_some_iff_mem {index : List (String × VarId)} (h : (index.map Prod.fst).Nodup)
    {name : String} {id : VarId} : index.lookup name = some id ↔ (name, id) ∈ index := by
  induction index with
  | nil => exact iff_of_false (nomatch ·) (nomatch ·)
  | cons entry index ih =>
    obtain ⟨other, i⟩ := entry
    obtain ⟨hother, hnd⟩ := List.nodup_cons.mp h
    rw [List.mem_cons]
    by_cases he : name = other
    · subst he
      have hnot : (name, id) ∉ index := fun hmem => hother (List.mem_map.mpr ⟨_, hmem, rfl⟩)
      rw [List.lookup_cons_self, or_iff_left hnot, Option.some.injEq, Prod.mk.injEq]
      exact ⟨fun hi => ⟨rfl, hi.symm⟩, fun hi => hi.2.symm⟩
    · rw [List.lookup_cons, beq_eq_false_iff_ne.mpr he, ih hnd]
      exact (or_iff_right (fun hi => he (Prod.mk.inj hi).1)).symm

theorem Numbered.names_canonicalize {r : Registry} (h : r.Numbered) :
    r.canonicalize.vars.map (·.name) = (List.range r.size).map canonicalName := by
  refine List.ext_getElem? ?_
  intro i
  show ((r.vars.map Variable.renamed).map (·.name))[i]? = _
  rw [List.map_map, List.getElem?_map, List.getElem?_map]
  by_cases hi : i < r.size
  · have hv : r.vars[i]? = some r.vars[i] := List.getElem?_eq_getElem hi
    rw [hv, List.getElem?_range hi]
    show some (canonicalName (r.vars[i]).firstSeen) = _
    rw [h.firstSeen i _ hv]
    rfl
  · have hlen : (List.range r.size).length ≤ i := by
      rw [List.length_range]
      exact Nat.le_of_not_lt hi
    rw [List.getElem?_eq_none (Nat.le_of_not_lt hi), List.getElem?_eq_none hlen]
    rfl

theorem Numbered.nodup_index_canonicalize {r : Registry} (h : r.Numbered) :
    (r.canonicalize.index.map Prod.fst).Nodup := by
  have hfst : r.canonicalize.index.map Prod.fst = r.canonicalize.vars.map (·.name) := by
    show (r.canonicalize.vars.zipIdx.map _).map Prod.fst = _
    conv_rhs => rw [← List.zipIdx_map_fst 0 r.canonicalize.vars]
    rw [List.map_map, List.map_map]
    rfl
  rw [hfst, h.names_canonicalize]
  exact List.nodup_range.map (fun _ _ => canonicalName_injective)

theorem Numbered.canonicalize {r : Registry} (h : r.Numbered) : r.canonicalize.Numbered where
  firstSeen i v' hv' := by
    obtain ⟨v, hv, rfl⟩ := Option.map_eq_some_iff.mp (List.getElem?_map.symm.trans hv')
    exact h.firstSeen i v hv
  place name i := by
    refine (lookup_eq_some_iff_mem h.nodup_index_canonicalize).trans (List.mem_map.trans ?_)
    constructor
    · rintro ⟨⟨v, j⟩, hmem, he⟩
      cases he
      exact ⟨v, List.mem_zipIdx_iff_getElem?.mp hmem, rfl⟩
    · rintro ⟨v, hv, rfl⟩
      exact ⟨(v, i), List.mem_zipIdx_iff_getElem?.mpr hv, rfl⟩
  cells := h.cells.trans (by rw [size_canonicalize])

/-- canonical names are names -/
theorem isName_canonicalize (r : Registry) : ∀ v ∈ r.canonicalize.vars, IsName v.name.toList := by
  intro v hv
  obtain ⟨w, -, rfl⟩ := List.mem_map.mp hv
  show IsName (canonicalName w.firstSeen).toList
  rw [canonicalName, String.toList_ofList]
  exact isName_nameChars _

/-! ## cells -/

theorem reset_intern (r : Registry) (name : String) :
    (r.intern name).2.reset = (r.reset.intern name).2 := by
  cases h : r.lookup name with
  | some id =>
    have h' : r.reset.lookup name = some id := h
    rw [intern_of_some h, intern_of_some h']
    rfl
  | none =>
    have h' : r.reset.lookup name = none := h
    rw [intern_of_none h, intern_of_none h']
    simp only [reset, List.map_append, List.map_cons, List.map_nil]
    rfl

theorem reset_setValue (r : Registry) (id : VarId) (v : UInt64) :
    (r.setValue id v).reset = r.reset := by
  simp only [reset, setValue, List.map_const', List.length_set]

theorem reset_reset (r : Registry) : r.reset.reset = r.reset := by
  simp only [reset, List.map_const', List.length_replicate]

namespace Reached

variable {r : Registry}

theorem numbered (h : r.Reached) : r.reset.Numbered := by
  induction h with
  | empty => exact .empty
  | @intern r h name ih =>
    rw [reset_intern]
    exact ih.intern name
  | canonicalize h ih => exact ih.canonicalize
  | @setValue r h id v ih =>
    rw [reset_setValue]
    exact ih
  | @reset r h ih =>
    rw [reset_reset]
    exact ih

theorem length_cells (h : r.Reached) : r.cells.length = r.size := by
  have hcells := congrArg List.length h.numbered.cells
  rw [List.length_replicate] at hcells
  exact (List.length_map ..).symm.trans hcells

end Reached

end Registry

/-- the registry of any tree is reached -/
theorem Tree.reached_consolidate (t : Tree) : t.consolidate.2.Reached := by
  have hfold : ∀ (ids : List NodeId) (s : Tree × Registry), s.2.Reached →
      (ids.foldl internLeaf s).2.Reached := by
    intro ids
    induction ids with
    | nil => exact fun s h => h
    | cons id ids ih =>
      rintro ⟨t, r⟩ h
      refine ih _ ?_
      cases hname : t.nameAt? id with
      | none =>
        rw [internLeaf_of_none hname]
        exact h
      | some name =>
        rw [internLeaf_of_some hname]
        exact h.intern name
  exact (hfold t.leaves (t, {}) .empty).canonicalize

end WordExpr
