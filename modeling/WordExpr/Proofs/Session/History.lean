import WordExpr.Proofs.Session.Actions

/-!
# Enumerations do not remember

Actions that register no new variable leave the names of an accepted expression canonical: interning
a name that is there only counts it (`Registry.names_intern`), and renaming canonically gives the
same names again (`Registry.Numbered.canonical_canonicalize`). The outcomes are a matter of the
cells (`Expression.evaluate_congr_cells`), which an enumeration starts anew.

`Expression.fingerprint_after` says that neither an enumeration nor the rendering shows what has
been done before.
-/

namespace WordExpr

/-! ## canonical names -/

namespace Registry

variable {r r' : Registry}

def Canonical (r : Registry) : Prop :=
  r.vars.map (·.name) = (List.range r.size).map canonicalName

/-- a name that adds no variable is there -/
theorem names_intern {name : String} (h : (r.intern name).2.size = r.size) :
    (r.intern name).2.vars.map (·.name) = r.vars.map (·.name) := by
  cases hn : r.lookup name with
  | some id =>
    rw [intern_of_some hn]
    exact names_seenAgain r.vars id
  | none =>
    rw [intern_of_none hn] at h
    change (r.vars ++ [_]).length = r.vars.length at h
    rw [List.length_append, List.length_singleton] at h
    omega

theorem Numbered.canonical_canonicalize (h : r.Numbered) : r.canonicalize.Canonical := by
  unfold Canonical
  rw [size_canonicalize, h.names_canonicalize]

theorem Canonical.perform (h : r.Canonical) (hr : r.Reached) {op : Operation}
    (hsize : (r.perform op).size = r.size) : (r.perform op).Canonical := by
  cases op with
  | intern name =>
    unfold Canonical
    rw [hsize, ← h]
    exact names_intern hsize
  | canonicalize => exact hr.numbered.canonical_canonicalize
  | setValue id v => exact h
  | reset => exact h

theorem Canonical.nameOf_eq (h : r.Canonical) (h' : r'.Canonical) (hsize : r'.size = r.size) :
    r'.nameOf = r.nameOf := by
  funext id
  have hget (r : Registry) : r.nameOf id = (r.vars.map (·.name))[id]? := (List.getElem?_map ..).symm
  rw [hget, hget, h, h', hsize]

theorem isEmpty_eq_of_size (hsize : r'.size = r.size) : r'.isEmpty = r.isEmpty := by
  rw [Bool.eq_iff_iff]
  unfold isEmpty
  rw [List.isEmpty_iff_length_eq_zero, List.isEmpty_iff_length_eq_zero]
  exact iff_of_eq (congrArg (· = 0) hsize)

end Registry

namespace Tabulation

/-- of the registry, only the number of its variables shows -/
theorem ofOutcomes_congr {r r' : Registry} (hsize : r'.size = r.size) (w : Width)
    (os : List Outcome) (s : Sink) : (ofOutcomes w r' os s).result = (ofOutcomes w r os s).result ∧
      (ofOutcomes w r' os s).sink = (ofOutcomes w r os s).sink := by
  unfold ofOutcomes
  rw [Registry.isEmpty_eq_of_size hsize]
  cases s.left with
  | none => exact ⟨rfl, rfl⟩
  | some n =>
    by_cases hn : (Outcome.line os ++ "\n").toUTF8.size ≤ n
    · simp only [if_pos hn, and_self]
    · simp only [if_neg hn, and_self]

end Tabulation

namespace Expression

variable {raw : String} {e e' : Expression}

theorem canonical_start (h : parse raw = .ok e) : e.registry.Canonical := by
  obtain ⟨toks, ps, x, q, t, -, rfl⟩ := accepted h
  exact (Registry.numbered_ofNames t.names).canonical_canonicalize

theorem Continues.canonical_perform (hc : e.Continues e') (h : e'.registry.Canonical) {act : Action}
    (hsize : (e'.perform act).registry.size = e'.registry.size) :
    (e'.perform act).registry.Canonical := by
  cases act with
  | onRegistry op => exact h.perform hc.reached hsize
  | advance radix => exact h
  | copy => exact h
  | evaluate w => exact h
  | fingerprint w s =>
    obtain ⟨cells, -, hreg⟩ := exists_cells_tabulate e'.tree e'.registry w s
    show (tabulate e'.tree e'.registry w s).registry.Canonical
    rw [hreg]
    exact h

theorem canonical_after (h : parse raw = .ok e) {acts : List Action}
    (hsize : (e.after acts).registry.size = e.registry.size) :
    (e.after acts).registry.Canonical := by
  induction acts using List.reverseRecOn with
  | nil => exact canonical_start h
  | append_singleton acts act ih =>
    have hc := Continues.after h acts
    -- the number of variables never goes down, so that it has not changed on the way
    have hstep : (e.after acts).registry.size ≤ (e.after (acts ++ [act])).registry.size := by
      rw [after_append]
      exact ((Continues.refl hc.reached).perform act).size
    have hsize' : (e.after acts).registry.size = e.registry.size :=
      Nat.le_antisymm (hsize ▸ hstep) hc.size
    rw [after_append] at hsize ⊢
    exact hc.canonical_perform (ih hsize') (hsize.trans hsize'.symm)

/-! ## the same table -/

theorem evaluate_congr_words (h : parse raw = .ok e) {r r' : Registry}
    (hr : e.registry.size ≤ r.cells.length)
    (hword : ∀ a : Atom, a.Within e.registry.size → r'.word? a = r.word? a) (w : Width) :
    e.tree.evaluate r' w = e.tree.evaluate r w := by
  obtain ⟨x, hx, hwithin⟩ := exists_within h
  have hreg : x.Registered r := hwithin.imp (fun a ha => ha.exists_word hr)
  have hsame : x.Every (fun a => r'.word? a = r.word? a) := hwithin.imp hword
  have hreg' : x.Registered r' := (hreg.and hsame).imp (fun a ha => ha.2 ▸ ha.1)
  have hres : x.Every (fun a => r'.residue w.bits a = r.residue w.bits a) :=
    hsame.imp (fun a ha => by rw [Registry.residue, Registry.residue, ha])
  have houtcome : (x.relabel id).outcome r' w = x.outcome r w := Formula.outcome_relabel hres
  rw [x.relabel_id] at houtcome
  rw [hx.evaluate hreg w, hx.evaluate hreg' w, houtcome]

theorem evaluate_congr_cells (h : parse raw = .ok e) {r r' : Registry}
    (hr : r.cells.length = e.registry.size) (hcells : r'.cells = r.cells) (w : Width) :
    e.tree.evaluate r' w = e.tree.evaluate r w :=
  evaluate_congr_words h (Nat.le_of_eq hr.symm) (fun _ ha => ha.word?_congr hcells) w

theorem Continues.lists (hc : e.Continues e') (h : parse raw = .ok e)
    (hsize : e'.registry.size = e.registry.size) {w : Width} {os : List Outcome}
    (hos : e.Lists w os) : e'.Lists w os where
  length := by rw [hsize, hos.length]
  evaluate k hk := by
    have hcells : (e'.registry.assign w k).cells = (e.registry.assign w k).cells :=
      congrArg (assignment w · k) hsize
    rw [hc.tree, evaluate_congr_cells h (length_assignment w _ k) hcells, hos.evaluate k hk]

/-- **History does not show.** After any actions that register no new variable, an enumeration ends
as it would have ended at first, into any sink, and the rendering is the same. -/
theorem fingerprint_after (h : parse raw = .ok e) {acts : List Action}
    (hsize : (e.after acts).registry.size = e.registry.size) :
    (∀ w s, ((e.after acts).fingerprint w s).result = (e.fingerprint w s).result ∧
        ((e.after acts).fingerprint w s).sink = (e.fingerprint w s).sink) ∧
      (e.after acts).render = e.render := by
  have hc := Continues.after h acts
  constructor
  · intro w s
    by_cases hw : w.bits * e.registry.size < 64
    · obtain ⟨os, hos⟩ := exists_lists h w
      rw [(hc.lists h hsize hos).fingerprint_eq_ofOutcomes hc.reached.length_cells
        (by rw [hsize]; exact hw), hos.fingerprint_eq_ofOutcomes (length_cells h) hw]
      exact Tabulation.ofOutcomes_congr hsize w os s
    · have hle := Nat.not_lt.mp hw
      rw [fingerprint_eq_tooMany hle, fingerprint_eq_tooMany (by rw [hsize]; exact hle), hsize]
      exact ⟨rfl, rfl⟩
  · unfold render
    rw [hc.tree, (canonical_start h).nameOf_eq (canonical_after h hsize) hsize]

/-- neither an enumeration that broke off nor one that was refused is seen by the next one -/
theorem fingerprint_after_interrupted : ∃ e acts, parse "x/y" = .ok e ∧
    acts = [.fingerprint .single (.limited 5), .onRegistry (.setValue 0 77),
      .onRegistry (.intern "b"), .fingerprint ⟨32, by decide, by decide⟩ .unlimited] ∧
    (e.after acts).registry.size = e.registry.size ∧
    (e.after acts).registry.cells ≠ e.registry.cells ∧
    ((e.after acts).fingerprint .single .unlimited).result =
      (e.fingerprint .single .unlimited).result ∧
    ((e.after acts).fingerprint .single .unlimited).sink =
      (e.fingerprint .single .unlimited).sink ∧
    (e.after acts).render = e.render := by
  have hrun : (parse "x/y").toOption.map (fun e =>
      let e' := e.after [.fingerprint .single (.limited 5), .onRegistry (.setValue 0 77),
        .onRegistry (.intern "b"), .fingerprint ⟨32, by decide, by decide⟩ .unlimited]
      (e'.registry.size == e.registry.size, e'.registry.cells != e.registry.cells)) =
      some (true, true) := by decide +kernel
  obtain ⟨e, he, hfacts⟩ := Option.map_eq_some_iff.mp hrun
  obtain ⟨hsize, hcells⟩ := Prod.mk.inj hfacts
  have h := eq_ok_of_toOption he
  obtain ⟨htable, hrender⟩ := fingerprint_after h (beq_iff_eq.mp hsize)
  obtain ⟨hresult, hsink⟩ := htable .single .unlimited
  exact ⟨e, _, h, rfl, beq_iff_eq.mp hsize, bne_iff_ne.mp hcells, hresult, hsink, hrender⟩

end Expression

end WordExpr
