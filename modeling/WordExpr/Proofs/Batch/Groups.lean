import Mathlib.Data.List.Induction
import WordExpr.Batch
import WordExpr.Proofs.Index

/-!
# Groups of a batch

`places es d` are the places of the entries that succeeded with the digest `d`, in order.

* `Placed`             the two ways a success can go: into the group that the index knows for its
                       digest, or into a new one behind all others;
* `Grouped es s`       each digest of `es` has one group in `s`, which holds all its places and the
                       fingerprint of the first of them, and the index is in step with the groups;
* `Grouped.add`        one more entry, from which `grouped_grouping` follows for all batches;
* `Partitions es gs`   what this says of the member lists.
-/

namespace WordExpr.Batch

/-! ## successes -/

def Entry.summary? (e : Entry) : Option Summary := e.result.toOption

def Entry.digest? (e : Entry) : Option Digest := e.summary?.map (·.fingerprint.digest)

/-- the summary at a place, nothing where the entry failed -/
def summary? (es : List Entry) (i : Nat) : Option Summary := es[i]?.bind Entry.summary?

def digest? (es : List Entry) (i : Nat) : Option Digest := es[i]?.bind Entry.digest?

def places (es : List Entry) (d : Digest) : List Nat :=
  (List.range es.length).filter fun i => digest? es i = some d

variable {es : List Entry} {e : Entry} {i j : Nat} {d : Digest} {s : Summary}

theorem Entry.digest?_of_ok (h : e.result = .ok s) : e.digest? = some s.fingerprint.digest := by
  unfold digest? summary?
  rw [h]
  rfl

theorem Entry.digest?_of_error {why : Error} (h : e.result = .error why) : e.digest? = none := by
  unfold digest? summary?
  rw [h]
  rfl

theorem digest?_eq_map (es : List Entry) (i : Nat) :
    digest? es i = (summary? es i).map (·.fingerprint.digest) := by
  unfold digest? summary?
  cases es[i]? with
  | none => rfl
  | some e => rfl

theorem digest?_of_summary? (h : summary? es i = some s) :
    digest? es i = some s.fingerprint.digest := by
  rw [digest?_eq_map, h]
  rfl

theorem summary?_eq_some_iff :
    summary? es i = some s ↔ ∃ e, es[i]? = some e ∧ e.result = .ok s := by
  unfold summary?
  rw [Option.bind_eq_some_iff]
  refine exists_congr fun e => and_congr_right fun _ => ?_
  unfold Entry.summary?
  cases e.result with
  | ok t => exact ⟨fun h => congrArg _ (Option.some.inj h), fun h => congrArg _ (Except.ok.inj h)⟩
  | error why => exact iff_of_false nofun nofun

theorem lt_length_of_summary? (h : summary? es i = some s) : i < es.length := by
  obtain ⟨e, he, -⟩ := summary?_eq_some_iff.mp h
  exact (List.getElem?_eq_some_iff.mp he).1

theorem mem_places : i ∈ places es d ↔ digest? es i = some d := by
  unfold places
  rw [List.mem_filter, List.mem_range, decide_eq_true_iff]
  refine and_iff_right_of_imp fun h => ?_
  rw [digest?_eq_map] at h
  obtain ⟨s, hs, -⟩ := Option.map_eq_some_iff.mp h
  exact lt_length_of_summary? hs

theorem pairwise_places (es : List Entry) (d : Digest) : (places es d).Pairwise (· < ·) :=
  List.pairwise_lt_range.filter _

/-! ## places of a longer batch -/

theorem digest?_concat_length (es : List Entry) (e : Entry) :
    digest? (es ++ [e]) es.length = e.digest? := by
  unfold digest?
  rw [List.getElem?_concat_length]
  rfl

theorem summary?_concat (h : summary? es i = some s) (e : Entry) :
    summary? (es ++ [e]) i = some s := by
  have hi := lt_length_of_summary? h
  unfold summary? at h ⊢
  rwa [List.getElem?_append_left hi]

theorem digest?_concat (hi : i < es.length) (e : Entry) :
    digest? (es ++ [e]) i = digest? es i := by
  unfold digest?
  rw [List.getElem?_append_left hi]

theorem places_concat (es : List Entry) (e : Entry) (d : Digest) :
    places (es ++ [e]) d = places es d ++ if e.digest? = some d then [es.length] else [] := by
  have hlen : (es ++ [e]).length = es.length + 1 := List.length_append
  unfold places
  rw [hlen, List.range_succ, List.filter_append]
  congr 1
  · refine List.filter_congr fun i hi => ?_
    rw [digest?_concat (List.mem_range.mp hi)]
  · rw [List.filter_singleton, digest?_concat_length]
    split <;> simp_all

/-! ## one more success -/

namespace Grouping

def digests (s : Grouping) : List Digest := s.groups.map (·.fingerprint.digest)

/-- the index gives the place of each group -/
def InStep (s : Grouping) : Prop := Indexes s.index s.digests

variable {s : Grouping} {f : Fingerprint} {summary : Summary}

theorem add_of_ok (h : e.result = .ok summary) (s : Grouping) (i : Nat) :
    s.add (e, i) = s.place summary.fingerprint i := by
  unfold add
  simp only [h]

theorem add_of_error {why : Error} (h : e.result = .error why) (s : Grouping) (i : Nat) :
    s.add (e, i) = s := by
  unfold add
  simp only [h]

/-- where a success goes -/
inductive Placed (f : Fingerprint) (i : Nat) : Grouping → Grouping → Prop where
  | joined {index : List (Digest × Nat)} {before after : List Group} {g : Group}
    (h : g.fingerprint.digest = f.digest) :
    Placed f i ⟨index, before ++ g :: after⟩ ⟨index, before ++ g.joined i :: after⟩
  | opened {s : Grouping} (h : s.index.lookup f.digest = none) :
    Placed f i s ⟨(f.digest, s.groups.length) :: s.index, s.groups ++ [⟨f, [i]⟩]⟩

/-- what the index finds is a group, and has the digest -/
theorem InStep.placed (h : s.InStep) (f : Fingerprint) (i : Nat) : Placed f i s (s.place f i) := by
  unfold place
  cases hf : s.index.lookup f.digest with
  | none => exact .opened hf
  | some k =>
    have hk := (h f.digest k).mp hf
    rw [digests, List.getElem?_map] at hk
    obtain ⟨g, hg, hgf⟩ := Option.map_eq_some_iff.mp hk
    obtain ⟨index, groups⟩ := s
    have hlt := (List.getElem?_eq_some_iff.mp hg).1
    obtain ⟨before, g', after, rfl, rfl, hmodify⟩ := List.exists_of_modify (·.joined i) hlt
    obtain rfl : g' = g := by simpa using hg
    show Placed f i _ ⟨index, List.modify _ _ _⟩
    rw [hmodify]
    exact .joined hgf

end Grouping

/-! ## the groups of a batch -/

theorem grouping_concat (es : List Entry) (e : Entry) :
    grouping (es ++ [e]) = (grouping es).add (e, es.length) := by
  unfold grouping
  rw [List.zipIdx_append, List.foldl_append, Nat.zero_add]
  rfl

structure Grouped (es : List Entry) (s : Grouping) : Prop where
  inStep : s.InStep
  members : ∀ g ∈ s.groups, g.members = places es g.fingerprint.digest
  complete : ∀ i d, digest? es i = some d → d ∈ s.digests
  first : ∀ g ∈ s.groups, ∃ i t, g.members.head? = some i ∧ summary? es i = some t ∧
    g.fingerprint = t.fingerprint
  ordered : (s.groups.map (·.members.head?)).Pairwise fun a b =>
    ∃ i j, a = some i ∧ b = some j ∧ i < j

namespace Grouped

variable {grouping : Grouping} {index : List (Digest × Nat)}

theorem nil : Grouped [] {} where
  inStep := .nil
  members := nofun
  complete _ _ h := nomatch h
  first := nofun
  ordered := .nil

/-- a failure has no digest, so all stays as it was -/
theorem failed (h : Grouped es grouping) (he : e.digest? = none) :
    Grouped (es ++ [e]) grouping where
  inStep := h.inStep
  members g hg := by
    rw [places_concat, he, if_neg nofun, List.append_nil]
    exact h.members g hg
  complete i d hd := by
    have hmem : i ∈ places es d := by
      have hi := mem_places.mpr hd
      rwa [places_concat, he, if_neg nofun, List.append_nil] at hi
    exact h.complete i d (mem_places.mp hmem)
  first g hg := by
    obtain ⟨i, s, hi, hs, hf⟩ := h.first g hg
    exact ⟨i, s, hi, summary?_concat hs e, hf⟩
  ordered := h.ordered

/-- one more success adds no other digest than its own -/
theorem mem_digests_or_eq (h : Grouped es grouping) (he : e.digest? = some d) {d' : Digest}
    (hd' : digest? (es ++ [e]) i = some d') : d' ∈ grouping.digests ∨ d' = d := by
  have hi := mem_places.mpr hd'
  rw [places_concat, he] at hi
  rcases List.mem_append.mp hi with hi | hi
  · exact .inl (h.complete i d' (mem_places.mp hi))
  · by_cases hdd : some d = some d'
    · exact .inr (Option.some.inj hdd).symm
    · rw [if_neg hdd] at hi
      cases hi

section

variable {before after : List Group} {g g' : Group} {n : Nat}

theorem map_joined {α : Type} (f : Group → α) (hf : f (g.joined n) = f g) :
    (before ++ g.joined n :: after).map f = (before ++ g :: after).map f := by
  rw [List.map_append, List.map_append, List.map_cons, List.map_cons, hf]

/-- all groups but the one that grows have other digests -/
theorem eq_or_mem_of_mem_joined (h : Grouped es ⟨index, before ++ g :: after⟩)
    (hg' : g' ∈ before ++ g.joined n :: after) : g' = g.joined n ∨
      g' ∈ before ++ g :: after ∧ g'.fingerprint.digest ≠ g.fingerprint.digest := by
  have hnd := h.inStep.nodup
  rw [Grouping.digests, List.map_append, List.map_cons, List.nodup_append, List.nodup_cons] at hnd
  obtain ⟨-, ⟨hafter, -⟩, hbefore⟩ := hnd
  rcases List.mem_append.mp hg' with hg' | hg'
  · exact .inr ⟨List.mem_append_left _ hg',
      hbefore _ (List.mem_map_of_mem hg') _ (List.mem_cons_self ..)⟩
  · rcases List.mem_cons.mp hg' with rfl | hg'
    · exact .inl rfl
    · refine .inr ⟨List.mem_append_right _ (List.mem_cons_of_mem _ hg'), fun heq => ?_⟩
      exact hafter (heq ▸ List.mem_map_of_mem hg')

/-- the group that grows keeps its fingerprint, its first member and its place -/
theorem joined (h : Grouped es ⟨index, before ++ g :: after⟩)
    (he : e.digest? = some g.fingerprint.digest) :
    Grouped (es ++ [e]) ⟨index, before ++ g.joined es.length :: after⟩ := by
  have hg : g ∈ before ++ g :: after := List.mem_append_right _ (List.mem_cons_self ..)
  have hdigests : Grouping.digests ⟨index, before ++ g.joined es.length :: after⟩ =
      Grouping.digests ⟨index, before ++ g :: after⟩ := map_joined _ rfl
  obtain ⟨i, s, hi, hs, hf⟩ := h.first g hg
  have hhead : (g.joined es.length).members.head? = g.members.head? := by
    rw [Group.joined, List.head?_append, hi]
    rfl
  refine ⟨?_, fun g' hg' => ?_, fun i d hd => ?_, fun g' hg' => ?_, ?_⟩
  · rw [Grouping.InStep, hdigests]
    exact h.inStep
  · rcases h.eq_or_mem_of_mem_joined hg' with rfl | ⟨hg', hne⟩
    · show g.members ++ [es.length] = places (es ++ [e]) g.fingerprint.digest
      rw [places_concat, if_pos he, ← h.members g hg]
    · rw [places_concat, he, if_neg (fun heq => hne (Option.some.inj heq).symm), List.append_nil]
      exact h.members g' hg'
  · rw [hdigests]
    exact (h.mem_digests_or_eq he hd).elim id fun hdg => hdg ▸ List.mem_map_of_mem hg
  · rcases h.eq_or_mem_of_mem_joined hg' with rfl | ⟨hg', -⟩
    · exact ⟨i, s, hhead.trans hi, summary?_concat hs e, hf⟩
    · obtain ⟨i, s, hi, hs, hf⟩ := h.first g' hg'
      exact ⟨i, s, hi, summary?_concat hs e, hf⟩
  · rw [map_joined (·.members.head?) hhead]
    exact h.ordered

end

theorem opened (h : Grouped es grouping) (he : e.result = .ok s)
    (hn : grouping.index.lookup s.fingerprint.digest = none) :
    Grouped (es ++ [e]) ⟨(s.fingerprint.digest, grouping.groups.length) :: grouping.index,
      grouping.groups ++ [⟨s.fingerprint, [es.length]⟩]⟩ := by
  have hd : e.digest? = some s.fingerprint.digest := Entry.digest?_of_ok he
  have hnew : s.fingerprint.digest ∉ grouping.digests := h.inStep.notMem_of_lookup hn
  have hdigests : (grouping.groups ++ [(⟨s.fingerprint, [es.length]⟩ : Group)]).map
      (·.fingerprint.digest) = grouping.digests ++ [s.fingerprint.digest] := List.map_append
  have hlen : grouping.groups.length = grouping.digests.length := (List.length_map _).symm
  refine ⟨?_, fun g hg => ?_, fun i d hd' => ?_, fun g hg => ?_, ?_⟩
  · rw [Grouping.InStep, Grouping.digests, hdigests, hlen]
    exact h.inStep.concat hn
  · rcases List.mem_append.mp hg with hg | hg
    · have hne : ¬some s.fingerprint.digest = some g.fingerprint.digest := fun heq =>
        hnew (Option.some.inj heq ▸ List.mem_map_of_mem hg)
      rw [places_concat, hd, if_neg hne, List.append_nil]
      exact h.members g hg
    · cases List.mem_singleton.mp hg
      have hnone : places es s.fingerprint.digest = [] :=
        List.eq_nil_iff_forall_not_mem.mpr fun i hi => hnew (h.complete i _ (mem_places.mp hi))
      rw [places_concat, hd, if_pos rfl, hnone, List.nil_append]
  · rw [Grouping.digests, hdigests]
    exact (h.mem_digests_or_eq hd hd').elim (List.mem_append_left _) fun hds =>
      List.mem_append_right _ (List.mem_singleton.mpr hds)
  · rcases List.mem_append.mp hg with hg | hg
    · obtain ⟨i, t, hi, ht, hf⟩ := h.first g hg
      exact ⟨i, t, hi, summary?_concat ht e, hf⟩
    · cases List.mem_singleton.mp hg
      exact ⟨es.length, s, rfl, summary?_eq_some_iff.mpr ⟨e, List.getElem?_concat_length, he⟩, rfl⟩
  · rw [List.map_append, List.pairwise_append]
    refine ⟨h.ordered, List.pairwise_singleton .., fun a ha b hb => ?_⟩
    obtain ⟨g, hg, rfl⟩ := List.mem_map.mp ha
    cases List.mem_singleton.mp hb
    obtain ⟨i, t, hi, ht, -⟩ := h.first g hg
    exact ⟨i, es.length, hi, rfl, lt_length_of_summary? ht⟩

/-- one more entry keeps the groups of a batch -/
theorem add (h : Grouped es grouping) (e : Entry) :
    Grouped (es ++ [e]) (grouping.add (e, es.length)) := by
  cases he : e.result with
  | error why =>
    rw [Grouping.add_of_error he]
    exact h.failed (Entry.digest?_of_error he)
  | ok s =>
    rw [Grouping.add_of_ok he]
    have hplaced := h.inStep.placed s.fingerprint es.length
    generalize grouping.place s.fingerprint es.length = grown at hplaced
    cases hplaced with
    | joined hg => exact h.joined (hg ▸ Entry.digest?_of_ok he)
    | opened hn => exact h.opened he hn

end Grouped

theorem grouped_grouping (es : List Entry) : Grouped es (grouping es) := by
  induction es using List.reverseRecOn with
  | nil => exact .nil
  | append_singleton es e ih =>
    rw [grouping_concat]
    exact ih.add e

/-! ## a partition -/

/-- the member lists divide the successes by their digests -/
structure Partitions (es : List Entry) (gs : List Group) : Prop where
  disjoint : gs.Pairwise fun g h => g.members.Disjoint h.members
  covers : ∀ i, (∃ g ∈ gs, i ∈ g.members) ↔ ∃ e s, es[i]? = some e ∧ e.result = .ok s
  increasing : ∀ g ∈ gs, g.members.Pairwise (· < ·)
  ordered : gs.Pairwise fun g h =>
    ∃ i j, g.members.head? = some i ∧ h.members.head? = some j ∧ i < j
  together : ∀ i j s t, summary? es i = some s → summary? es j = some t →
    ((∃ g ∈ gs, i ∈ g.members ∧ j ∈ g.members) ↔ s.fingerprint.digest = t.fingerprint.digest)
  first : ∀ g ∈ gs, ∃ i s, g.members.head? = some i ∧ summary? es i = some s ∧
    g.fingerprint = s.fingerprint

namespace Grouped

variable {grouping : Grouping} {g : Group}

theorem mem_members (h : Grouped es grouping) (hg : g ∈ grouping.groups) :
    i ∈ g.members ↔ digest? es i = some g.fingerprint.digest := by
  rw [h.members g hg, mem_places]

/-- every success has its group -/
theorem exists_group (h : Grouped es grouping) (hs : summary? es i = some s) :
    ∃ g ∈ grouping.groups, g.fingerprint.digest = s.fingerprint.digest ∧ i ∈ g.members := by
  have hd := digest?_of_summary? hs
  obtain ⟨g, hg, hgd⟩ := List.mem_map.mp (h.complete i _ hd)
  exact ⟨g, hg, hgd, (h.mem_members hg).mpr (hgd ▸ hd)⟩

theorem partitions (h : Grouped es grouping) : Partitions es grouping.groups where
  disjoint := by
    have hne : grouping.groups.Pairwise fun g h => g.fingerprint.digest ≠ h.fingerprint.digest :=
      List.pairwise_map.mp h.inStep.nodup
    refine hne.imp_of_mem fun {g g'} hg hg' hne i hi hi' => hne ?_
    rw [h.mem_members hg] at hi
    rw [h.mem_members hg'] at hi'
    exact Option.some.inj (hi.symm.trans hi')
  covers i := by
    constructor
    · rintro ⟨g, hg, hi⟩
      rw [h.mem_members hg, digest?_eq_map] at hi
      obtain ⟨s, hs, -⟩ := Option.map_eq_some_iff.mp hi
      obtain ⟨e, he, hes⟩ := summary?_eq_some_iff.mp hs
      exact ⟨e, s, he, hes⟩
    · rintro ⟨e, s, he, hes⟩
      obtain ⟨g, hg, -, hi⟩ := h.exists_group (summary?_eq_some_iff.mpr ⟨e, he, hes⟩)
      exact ⟨g, hg, hi⟩
  increasing g hg := h.members g hg ▸ pairwise_places es _
  ordered := List.pairwise_map.mp h.ordered
  together i j s t hs ht := by
    have hdi := digest?_of_summary? hs
    have hdj := digest?_of_summary? ht
    constructor
    · rintro ⟨g, hg, hi, hj⟩
      rw [h.mem_members hg, hdi] at hi
      rw [h.mem_members hg, hdj] at hj
      exact Option.some.inj (hi.trans hj.symm)
    · intro hst
      obtain ⟨g, hg, hgs, hi⟩ := h.exists_group hs
      exact ⟨g, hg, hi, (h.mem_members hg).mpr (by rw [hdj, hgs, hst])⟩
  first := h.first

end Grouped

end WordExpr.Batch
