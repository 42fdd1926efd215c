import Mathlib.Data.List.Nodup

/-!
# An index beside a list

A list of keys grows at its end, and an index beside it is to give the place of each key. The two
are in step (`Indexes`) if the index finds a key exactly where it stands. Then no key stands at two
places (`Indexes.nodup`), a key that is not found is a new one (`Indexes.notMem_of_lookup`), and
putting it behind the others and into the index keeps them in step (`Indexes.concat`).
-/

namespace WordExpr

variable {α : Type} {a b : α} {i : Nat}

theorem getElem?_concat_eq_some_iff {l : List α} :
    (l ++ [a])[i]? = some b ↔ l[i]? = some b ∨ (i = l.length ∧ a = b) := by
  rcases Nat.lt_trichotomy i l.length with hi | rfl | hi
  · rw [List.getElem?_append_left hi]
    exact (or_iff_left (fun h => Nat.ne_of_lt hi h.1)).symm
  · simp
  · rw [List.getElem?_append_right (Nat.le_of_lt hi), List.getElem?_eq_none (Nat.le_of_lt hi),
      List.getElem?_eq_none (by simp only [List.length_singleton]; omega)]
    exact iff_of_false (nomatch ·) (fun h => h.elim (nomatch ·) (fun h => Nat.ne_of_gt hi h.1))

variable [DecidableEq α] {index : List (α × Nat)} {keys : List α}

def Indexes (index : List (α × Nat)) (keys : List α) : Prop :=
  ∀ a i, index.lookup a = some i ↔ keys[i]? = some a

namespace Indexes

theorem nil : Indexes ([] : List (α × Nat)) [] := fun _ _ => iff_of_false nofun nofun

theorem nodup (h : Indexes index keys) : keys.Nodup := by
  refine List.nodup_iff_injective_getElem.mpr fun i j hij => Fin.ext ?_
  have hi := (h _ i).mpr (List.getElem?_eq_getElem i.2)
  have hj := (h _ j).mpr (List.getElem?_eq_getElem j.2)
  rw [show keys[i.1] = keys[j.1] from hij, hj] at hi
  exact (Option.some.inj hi).symm

theorem notMem_of_lookup (h : Indexes index keys) (hn : index.lookup a = none) : a ∉ keys := by
  intro ha
  obtain ⟨i, hi⟩ := List.mem_iff_getElem?.mp ha
  cases hn.symm.trans ((h a i).mpr hi)

theorem concat (h : Indexes index keys) (hn : index.lookup a = none) :
    Indexes ((a, keys.length) :: index) (keys ++ [a]) := by
  intro b i
  rw [getElem?_concat_eq_some_iff, ← h]
  by_cases hb : b = a
  · subst hb
    rw [List.lookup_cons_self, hn, Option.some.injEq]
    constructor
    · exact fun hi => .inr ⟨hi.symm, rfl⟩
    · exact fun hi => hi.elim nofun fun hi => hi.1.symm
  · rw [List.lookup_cons, beq_eq_false_iff_ne.mpr hb]
    exact (or_iff_left fun hi => hb hi.2.symm).symm

end Indexes

end WordExpr
