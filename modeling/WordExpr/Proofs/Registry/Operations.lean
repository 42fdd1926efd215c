import WordExpr.Proofs.Registry.Reached

/-!
# Sequences of registry operations

`Registry.run ops` is what an empty registry becomes by the operations `ops`, one after the other.

* `Registry.Consistent r`   the index of `r` holds the name of every variable once, with its place;
                            no name stands twice, every variable has a cell and has been interned,
                            and its place is where it was first seen;
* `Reached.consistent`      every registry that is reached is consistent;
* `Registry.Keeps r r'`     the variables of `r` are still there in `r'`, as they were spelled.

`Registry.consistent_run` says so of every sequence of operations, counts the interned names, and
tells what interning one more name does.
-/

namespace WordExpr

/-! ## operations -/

/-- a number without a variable may be written to, which changes nothing -/
inductive Registry.Operation where
  | intern (name : String)
  | canonicalize
  | setValue (id : VarId) (v : UInt64)
  | reset
deriving DecidableEq, Repr

namespace Registry

def Operation.isIntern : Operation → Bool
  | intern _ => true
  | _ => false

def perform (r : Registry) : Operation → Registry
  | .intern name => (r.intern name).2
  | .canonicalize => r.canonicalize
  | .setValue id v => r.setValue id v
  | .reset => r.reset

def run (ops : List Operation) : Registry := ops.foldl perform {}

theorem run_append (before after : List Operation) :
    run (before ++ after) = after.foldl perform (run before) :=
  List.foldl_append ..

theorem Reached.perform {r : Registry} (h : r.Reached) (op : Operation) :
    (r.perform op).Reached := by
  cases op with
  | intern name => exact h.intern name
  | canonicalize => exact h.canonicalize
  | setValue id v => exact h.setValue id v
  | reset => exact h.reset

theorem reached_run (ops : List Operation) : (run ops).Reached := by
  induction ops using List.reverseRecOn with
  | nil => exact .empty
  | append_singleton ops op ih =>
    rw [run_append]
    exact ih.perform op

/-! ## consistency -/

structure Consistent (r : Registry) : Prop where
  index : r.index.Perm (r.vars.map (·.name)).zipIdx
  names : (r.vars.map (·.name)).Nodup
  cells : r.cells.length = r.size
  firstSeen : ∀ id v, r.get? id = some v → v.firstSeen = id
  occurrences : ∀ v ∈ r.vars, 1 ≤ v.occurrences

theorem names_seenAgain (vars : List Variable) (id : VarId) :
    (vars.modify id Variable.seenAgain).map (·.name) = vars.map (·.name) := by
  refine List.ext_getElem? ?_
  intro i
  rw [List.getElem?_map, List.getElem?_map, List.getElem?_modify]
  cases vars[i]? with
  | none => rfl
  | some v =>
    show some (if id = i then v.seenAgain else v).name = some v.name
    split <;> rfl

namespace Reached

variable {r : Registry}

theorem place (h : r.Reached) (name : String) (id : VarId) :
    r.lookup name = some id ↔ ∃ v, r.get? id = some v ∧ v.name = name :=
  h.numbered.place name id

theorem index_perm (h : r.Reached) : r.index.Perm (r.vars.map (·.name)).zipIdx := by
  induction h with
  | empty => exact .nil
  | @intern r h name ih =>
    cases hn : r.lookup name with
    | some id =>
      rw [intern_of_some hn]
      show r.index.Perm ((r.vars.modify id _).map _).zipIdx
      rw [names_seenAgain]
      exact ih
    | none =>
      rw [intern_of_none hn]
      show ((name, r.size) :: r.index).Perm ((r.vars ++ [_]).map _).zipIdx
      rw [List.map_append, List.zipIdx_append, List.length_map, Nat.zero_add]
      exact (ih.cons _).trans (List.perm_append_singleton ..).symm
  | @canonicalize r h ih =>
    show (r.canonicalize.vars.zipIdx.map _).Perm _
    rw [List.zipIdx_map]
    exact .refl _
  | setValue h id v ih => exact ih
  | reset h ih => exact ih

/-- no two variables have one name -/
theorem nodup_names (h : r.Reached) : (r.vars.map (·.name)).Nodup := h.numbered.indexes.nodup

theorem one_le_occurrences (h : r.Reached) : ∀ v ∈ r.vars, 1 ≤ v.occurrences := by
  induction h with
  | empty => exact fun v hv => nomatch hv
  | @intern r h name ih =>
    intro v hv
    cases hn : r.lookup name with
    | some id =>
      rw [intern_of_some hn] at hv
      obtain ⟨i, hi⟩ := List.mem_iff_getElem?.mp hv
      rw [List.getElem?_modify] at hi
      obtain ⟨u, hu, rfl⟩ := Option.map_eq_some_iff.mp hi
      have hone := ih u (List.mem_of_getElem? hu)
      split
      · exact Nat.le_succ_of_le hone
      · exact hone
    | none =>
      rw [intern_of_none hn] at hv
      rcases List.mem_append.mp hv with hv | hv
      · exact ih v hv
      · obtain rfl := List.mem_singleton.mp hv
        exact Nat.le_refl 1
  | canonicalize h ih =>
    intro v hv
    obtain ⟨u, hu, rfl⟩ := List.mem_map.mp hv
    exact ih u hu
  | setValue h id v ih => exact ih
  | reset h ih => exact ih

theorem consistent (h : r.Reached) : r.Consistent where
  index := h.index_perm
  names := h.nodup_names
  cells := h.length_cells
  firstSeen := h.numbered.firstSeen
  occurrences := h.one_le_occurrences

end Reached

/-! ## occurrences -/

theorem slots_eq_sum (r : Registry) : r.slots = (r.vars.map (·.occurrences)).sum := rfl

theorem sum_occurrences_seenAgain {vars : List Variable} {id : VarId} (h : id < vars.length) :
    ((vars.modify id Variable.seenAgain).map (·.occurrences)).sum =
      (vars.map (·.occurrences)).sum + 1 := by
  induction vars generalizing id with
  | nil => cases h
  | cons v vars ih =>
    cases id with
    | zero =>
      show v.occurrences + 1 + (vars.map _).sum = v.occurrences + (vars.map _).sum + 1
      omega
    | succ id =>
      rw [List.modify_succ_cons, List.map_cons, List.map_cons, List.sum_cons, List.sum_cons,
        ih (Nat.lt_of_succ_lt_succ h), Nat.add_assoc]

theorem Reached.slots_intern {r : Registry} (h : r.Reached) (name : String) :
    (r.intern name).2.slots = r.slots + 1 := by
  rw [slots_eq_sum, slots_eq_sum]
  cases hn : r.lookup name with
  | some id =>
    rw [intern_of_some hn]
    exact sum_occurrences_seenAgain (h.numbered.lt_size hn)
  | none =>
    rw [intern_of_none hn, List.map_append, List.sum_append]
    rfl

theorem slots_canonicalize (r : Registry) : r.canonicalize.slots = r.slots := by
  rw [slots_eq_sum, slots_eq_sum]
  show ((r.vars.map Variable.renamed).map _).sum = _
  rw [List.map_map]
  rfl

/-- every interned name is one occurrence -/
theorem slots_run (ops : List Operation) : (run ops).slots = ops.countP Operation.isIntern := by
  induction ops using List.reverseRecOn with
  | nil => rfl
  | append_singleton ops op ih =>
    rw [run_append, List.countP_append, ← ih]
    cases op with
    | intern name => exact (reached_run ops).slots_intern name
    | canonicalize => exact slots_canonicalize _
    | setValue id v => rfl
    | reset => rfl

/-! ## variables stay -/

def Keeps (r r' : Registry) : Prop :=
  ∀ id v, r.get? id = some v → ∃ v', r'.get? id = some v' ∧ v'.spelling = v.spelling

theorem keeps_intern (r : Registry) (name : String) : r.Keeps (r.intern name).2 := by
  intro id v hv
  cases hn : r.lookup name with
  | some i =>
    rw [intern_of_some hn]
    refine ⟨if i = id then v.seenAgain else v, ?_, ?_⟩
    · show (r.vars.modify i _)[id]? = _
      rw [List.getElem?_modify, show r.vars[id]? = some v from hv]
      rfl
    · split <;> rfl
  | none =>
    rw [intern_of_none hn]
    have hid : id < r.vars.length := (List.getElem?_eq_some_iff.mp hv).1
    exact ⟨v, (List.getElem?_append_left hid).trans hv, rfl⟩

theorem keeps_perform (r : Registry) (op : Operation) : r.Keeps (r.perform op) := by
  cases op with
  | intern name => exact r.keeps_intern name
  | canonicalize =>
    intro id v hv
    refine ⟨v.renamed, ?_, rfl⟩
    show (r.vars.map _)[id]? = _
    rw [List.getElem?_map, show r.vars[id]? = some v from hv]
    rfl
  | setValue i c => exact fun id v hv => ⟨v, hv, rfl⟩
  | reset => exact fun id v hv => ⟨v, hv, rfl⟩

theorem keeps_foldl_perform (r : Registry) (ops : List Operation) :
    r.Keeps (ops.foldl perform r) := by
  induction ops generalizing r with
  | nil => exact fun id v hv => ⟨v, hv, rfl⟩
  | cons op ops ih =>
    intro id v hv
    obtain ⟨v1, hv1, hs1⟩ := r.keeps_perform op id v hv
    obtain ⟨v2, hv2, hs2⟩ := ih (r.perform op) id v1 hv1
    exact ⟨v2, hv2, hs2.trans hs1⟩

/-! ## one more name -/

namespace Reached

variable {r : Registry}

theorem exists_get?_intern (h : r.Reached) (name : String) :
    ∃ v, (r.intern name).2.get? (r.intern name).1 = some v := by
  obtain ⟨v, hv, -⟩ := ((h.intern name).place name _).mp (r.lookup_intern name)
  exact ⟨v, hv⟩

theorem intern_current (h : r.Reached) {id : VarId} {v : Variable} (hv : r.get? id = some v) :
    r.intern v.name = (id, { r with vars := r.vars.set id v.seenAgain }) := by
  rw [intern_of_some ((h.place v.name id).mpr ⟨v, hv, rfl⟩), List.modify_eq_set_getElem?,
    show r.vars[id]? = some v from hv]
  rfl

theorem intern_other (h : r.Reached) {name : String} (hn : ∀ v ∈ r.vars, v.name ≠ name) :
    r.intern name = (r.size,
      { index := (name, r.size) :: r.index
        vars := r.vars ++ [⟨name, name, 1, r.size⟩]
        cells := r.cells ++ [0] }) := by
  refine intern_of_none (Option.eq_none_iff_forall_ne_some.mpr ?_)
  intro id hid
  obtain ⟨v, hv, hname⟩ := (h.place name id).mp hid
  exact hn v (List.mem_of_getElem? hv) hname

end Reached

/-- **What holds after any sequence of operations.** The three parts of the registry agree, a number
that interning has once given belongs to its variable for good, a current name has the number of
its variable, and interning adds an occurrence to this variable or, for any other text, one new
variable at the end. -/
theorem consistent_run (ops : List Operation) :
    (run ops).Consistent ∧ (run ops).slots = ops.countP Operation.isIntern ∧
      (∀ before name after, ops = before ++ .intern name :: after →
        ∃ v v', ((run before).intern name).2.get? ((run before).intern name).1 = some v ∧
          (run ops).get? ((run before).intern name).1 = some v' ∧ v'.spelling = v.spelling) ∧
      (∀ id v, (run ops).get? id = some v → (run ops).intern v.name =
        (id, { run ops with vars := (run ops).vars.set id v.seenAgain })) ∧
      (∀ name, (∀ v ∈ (run ops).vars, v.name ≠ name) → (run ops).intern name =
        ((run ops).size,
          { index := (name, (run ops).size) :: (run ops).index
            vars := (run ops).vars ++ [⟨name, name, 1, (run ops).size⟩]
            cells := (run ops).cells ++ [0] })) ∧
      ∀ name id, (run ops).lookup name = some id ↔
        ∃ v, (run ops).get? id = some v ∧ v.name = name := by
  have h := reached_run ops
  refine ⟨h.consistent, slots_run ops, ?_, fun id v hv => h.intern_current hv,
    fun name hn => h.intern_other hn, h.place⟩
  rintro before name after rfl
  obtain ⟨v, hv⟩ := (reached_run before).exists_get?_intern name
  rw [run_append]
  obtain ⟨v', hv', hs⟩ := keeps_foldl_perform ((run before).intern name).2 after _ v hv
  exact ⟨v, v', hv, hv', hs⟩

/-- the canonical name of the second variable is how the first one was spelled -/
theorem consistent_run_renamed :
    ∃ ops, ops = [.intern "b", .intern "a", .canonicalize, .intern "b", .setValue 0 7] ∧
      (run ops).slots = 3 ∧ ((run ops).intern "b").1 = 1 ∧ ((run ops).intern "c").1 = 2 ∧
      ∃ v v', ((run []).intern "b").2.get? 0 = some v ∧ (run ops).get? 0 = some v' ∧
        v'.spelling = v.spelling := by
  refine ⟨_, rfl, ?_⟩
  obtain ⟨-, hslots, hkeeps, hcurrent, hother, -⟩ :=
    consistent_run [.intern "b", .intern "a", .canonicalize, .intern "b", .setValue 0 7]
  refine ⟨hslots, ?_, ?_, hkeeps [] "b" _ rfl⟩
  · have hv : (run [.intern "b", .intern "a", .canonicalize, .intern "b", .setValue 0 7]).get? 1 =
        some ⟨"a", "b", 2, 1⟩ := by decide +kernel
    rw [hcurrent 1 _ hv]
  · rw [hother "c" (by decide +kernel)]
    decide +kernel

end Registry

end WordExpr
