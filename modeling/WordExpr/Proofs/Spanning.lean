import Mathlib.Data.Finset.Card
import WordExpr.Proofs.Building.Spine

/-!
# Arenas that span a tree

* `Tree.Spans t o`     the links from the root on form a finite tree, which is `o`: all of them lead
                       to nodes of the arena, and no two to the same one;
* `Tree.follow`        the node at the end of a path of links. In a spanned tree a path leads to
                       every node (`Spans.exists_follow_iff`), and only one
                       (`Spans.follow_injective`);
* `Tree.Treelike`      the same of the links alone: no path leaves the arena, and no two lead to one
                       node. Such an arena spans its outline (`spans_outline_iff`);
* `Outline.leaves`     the leaves of an outline from left to right, each with its symbol. They are
                       the leaves that the stack walk finds (`Spans.leaves_eq`).
-/

namespace WordExpr

/-- the arena has the nodes of an outline below its root -/
structure Tree.Spans (t : Tree) (o : Outline) : Prop where
  root : o.id? = some t.root
  linked : o.Linked
  holds : t.Holds o.entries

namespace Tree.Spans

variable {t : Tree} {o : Outline}

theorem outline_eq (h : t.Spans o) : t.outline = o := by
  rw [Tree.outline, Tree.outlineAt, ← h.root]
  exact t.outlineFrom_eq h.linked h.holds.node h.holds.length_le

theorem size_pos (h : t.Spans o) : 0 < t.size := by
  cases o with
  | empty => cases h.root
  | node id n l r =>
    exact Nat.lt_of_le_of_lt (Nat.zero_le _) (h.holds.lt (id, n) (List.mem_cons_self ..))

theorem preorder_eq (h : t.Spans o) : t.preorder = o.toList := by
  rw [t.preorder_eq_toList h.size_pos, h.outline_eq]

theorem nodup (h : t.Spans o) : o.toList.Nodup := by
  rw [← o.map_entries]
  exact h.holds.nodup

theorem lt_size (h : t.Spans o) {i : NodeId} (hi : i ∈ o.toList) : i < t.size := by
  rw [← o.map_entries] at hi
  obtain ⟨e, he, rfl⟩ := List.mem_map.mp hi
  exact h.holds.lt e he

end Tree.Spans

/-! ## paths -/

inductive Side where
  | left
  | right
deriving DecidableEq, Repr

def Node.child (n : Node) : Side → Option NodeId
  | .left => n.left
  | .right => n.right

namespace Tree

/-- the node at the end of a path of links, nothing where a link is missing -/
def follow (t : Tree) : List Side → Option NodeId → Option NodeId
  | [], place => place
  | side :: path, place => t.follow path (place.bind fun id => (t.node id).child side)

theorem follow_none (t : Tree) (path : List Side) : t.follow path none = none := by
  induction path with
  | nil => rfl
  | cons side path ih => exact ih

theorem follow_left (t : Tree) (path : List Side) (id : NodeId) :
    t.follow (.left :: path) (some id) = t.follow path (t.node id).left := rfl

theorem follow_right (t : Tree) (path : List Side) (id : NodeId) :
    t.follow (.right :: path) (some id) = t.follow path (t.node id).right := rfl

variable {t : Tree} {o : Outline} {i : NodeId}

theorem exists_follow_iff (hl : o.Linked) (hn : ∀ e ∈ o.entries, t.node e.1 = e.2) :
    (∃ path, t.follow path o.id? = some i) ↔ i ∈ o.toList := by
  induction o with
  | empty => exact iff_of_false (fun ⟨path, h⟩ => nomatch (t.follow_none path).symm.trans h) nofun
  | node id n l r ihl ihr =>
    obtain ⟨el, er, hll, hlr⟩ := hl
    rw [Outline.entries, List.forall_mem_cons, List.forall_mem_append] at hn
    obtain ⟨hid, hnl, hnr⟩ := hn
    have hid : t.node id = n := hid
    show (∃ path, t.follow path (some id) = some i) ↔ _
    rw [Outline.toList, List.mem_cons, List.mem_append, ← ihl hll hnl, ← ihr hlr hnr, ← el, ← er,
      ← hid]
    constructor
    · rintro ⟨_ | ⟨_ | _, path⟩, h⟩
      · exact .inl (Option.some.inj h).symm
      · exact .inr (.inl ⟨path, h⟩)
      · exact .inr (.inr ⟨path, h⟩)
    · rintro (rfl | ⟨path, h⟩ | ⟨path, h⟩)
      · exact ⟨[], rfl⟩
      · exact ⟨.left :: path, h⟩
      · exact ⟨.right :: path, h⟩

theorem follow_injective (hl : o.Linked) (hn : ∀ e ∈ o.entries, t.node e.1 = e.2)
    (hnd : o.toList.Nodup) {p q : List Side} (hp : t.follow p o.id? = some i)
    (hq : t.follow q o.id? = some i) : p = q := by
  induction o generalizing p q with
  | empty => cases (t.follow_none p).symm.trans hp
  | node id n l r ihl ihr =>
    obtain ⟨el, er, hll, hlr⟩ := hl
    rw [Outline.entries, List.forall_mem_cons, List.forall_mem_append] at hn
    obtain ⟨hid, hnl, hnr⟩ := hn
    have hid : t.node id = n := hid
    rw [Outline.toList, List.nodup_cons, List.nodup_append, List.mem_append, not_or] at hnd
    obtain ⟨⟨hidl, hidr⟩, hndl, hndr, hdisj⟩ := hnd
    have hleft : ∀ {path}, t.follow (.left :: path) (some id) = some i →
        t.follow path l.id? = some i := by
      intro path h
      rwa [follow_left, hid, el] at h
    have hright : ∀ {path}, t.follow (.right :: path) (some id) = some i →
        t.follow path r.id? = some i := by
      intro path h
      rwa [follow_right, hid, er] at h
    have hmeml : ∀ {path}, t.follow (.left :: path) (some id) = some i → i ∈ l.toList :=
      fun h => (exists_follow_iff hll hnl).mp ⟨_, hleft h⟩
    have hmemr : ∀ {path}, t.follow (.right :: path) (some id) = some i → i ∈ r.toList :=
      fun h => (exists_follow_iff hlr hnr).mp ⟨_, hright h⟩
    have hne : ∀ {side path}, t.follow (side :: path) (some id) = some i → id ≠ i := by
      rintro (_ | _) path h rfl
      · exact hidl (hmeml h)
      · exact hidr (hmemr h)
    change t.follow p (some id) = some i at hp
    change t.follow q (some id) = some i at hq
    rcases p with _ | ⟨_ | _, p⟩
    · rcases q with _ | ⟨side, q⟩
      · rfl
      · exact absurd (Option.some.inj hp) (hne hq)
    · rcases q with _ | ⟨_ | _, q⟩
      · exact absurd (Option.some.inj hq) (hne hp)
      · rw [ihl hll hnl hndl (hleft hp) (hleft hq)]
      · exact absurd rfl (hdisj i (hmeml hp) i (hmemr hq))
    · rcases q with _ | ⟨_ | _, q⟩
      · exact absurd (Option.some.inj hq) (hne hp)
      · exact absurd rfl (hdisj i (hmeml hq) i (hmemr hp))
      · rw [ihr hlr hnr hndr (hright hp) (hright hq)]

namespace Spans

theorem exists_follow_iff (h : t.Spans o) :
    (∃ path, t.follow path (some t.root) = some i) ↔ i ∈ o.toList := by
  rw [← h.root]
  exact Tree.exists_follow_iff h.linked h.holds.node

/-- only one path leads to a node -/
theorem follow_injective (h : t.Spans o) {p q : List Side}
    (hp : t.follow p (some t.root) = some i) (hq : t.follow q (some t.root) = some i) : p = q := by
  rw [← h.root] at hp hq
  exact Tree.follow_injective h.linked h.holds.node h.nodup hp hq

end Spans

end Tree

/-! ## finite trees -/

namespace Tree

/-- the links from the root on form a finite tree in the arena -/
structure Treelike (t : Tree) : Prop where
  inside : ∀ path i, t.follow path (some t.root) = some i → i < t.size
  once : ∀ p q i, t.follow p (some t.root) = some i → t.follow q (some t.root) = some i → p = q

variable {t : Tree} {o : Outline} {i : NodeId} {path : List Side}

theorem follow_append (t : Tree) (p q : List Side) (place : Option NodeId) :
    t.follow (p ++ q) place = t.follow q (t.follow p place) := by
  induction p generalizing place with
  | nil => rfl
  | cons side p ih => exact ih _

/-- the nodes on the way are different ones, so the arena has more nodes than the way has links -/
theorem Treelike.length_lt (h : t.Treelike) (hp : t.follow path (some t.root) = some i) :
    path.length < t.size := by
  have hway : ∀ k, ∃ j, t.follow (path.take k) (some t.root) = some j := by
    intro k
    cases hj : t.follow (path.take k) (some t.root) with
    | some j => exact ⟨j, rfl⟩
    | none =>
      rw [← path.take_append_drop k, follow_append, hj, follow_none] at hp
      cases hp
  choose way hway using hway
  have hin : ∀ k ∈ Finset.range (path.length + 1), way k ∈ Finset.range t.size :=
    fun k _ => Finset.mem_range.mpr (h.inside _ _ (hway k))
  have hdiff : Set.InjOn way (Finset.range (path.length + 1)) := by
    intro j hj k hk hjk
    have hlen := congrArg List.length (h.once _ _ _ (hway j) (hjk ▸ hway k))
    rw [Finset.mem_coe, Finset.mem_range] at hj hk
    rw [List.length_take, List.length_take] at hlen
    omega
  have hcard := Finset.card_le_card_of_injOn way hin hdiff
  rw [Finset.card_range, Finset.card_range] at hcard
  exact hcard

theorem node_of_mem_outlineFrom (t : Tree) (fuel : Nat) (place : Option NodeId) :
    ∀ e ∈ (t.outlineFrom fuel place).entries, t.node e.1 = e.2 := by
  induction fuel generalizing place with
  | zero => exact List.forall_mem_nil _
  | succ fuel ih =>
    cases place with
    | none => exact List.forall_mem_nil _
    | some id =>
      rw [outlineFrom, Outline.entries, List.forall_mem_cons, List.forall_mem_append]
      exact ⟨rfl, ih _, ih _⟩

/-- an outline that may follow more links than any path has is complete -/
theorem linked_outlineFrom {fuel : Nat} {place : Option NodeId}
    (hf : ∀ path i, t.follow path place = some i → path.length < fuel) :
    (t.outlineFrom fuel place).id? = place ∧ (t.outlineFrom fuel place).Linked := by
  induction fuel generalizing place with
  | zero =>
    cases place with
    | none => exact ⟨rfl, trivial⟩
    | some id => exact absurd (hf [] id rfl) (Nat.lt_irrefl 0)
  | succ fuel ih =>
    cases place with
    | none => exact ⟨rfl, trivial⟩
    | some id =>
      obtain ⟨hl, hll⟩ := ih fun path i h => Nat.lt_of_succ_lt_succ (hf (.left :: path) i h)
      obtain ⟨hr, hlr⟩ := ih fun path i h => Nat.lt_of_succ_lt_succ (hf (.right :: path) i h)
      exact ⟨rfl, hl.symm, hr.symm, hll, hlr⟩

theorem nodup_toList (hl : o.Linked) (hn : ∀ e ∈ o.entries, t.node e.1 = e.2)
    (honce : ∀ p q i, t.follow p o.id? = some i → t.follow q o.id? = some i → p = q) :
    o.toList.Nodup := by
  induction o with
  | empty => exact List.nodup_nil
  | node id n l r ihl ihr =>
    obtain ⟨el, er, hll, hlr⟩ := hl
    rw [Outline.entries, List.forall_mem_cons, List.forall_mem_append] at hn
    obtain ⟨hid, hnl, hnr⟩ := hn
    have hid : t.node id = n := hid
    have hleft : ∀ path, t.follow (.left :: path) (some id) = t.follow path l.id? := by
      intro path
      rw [follow_left, hid, el]
    have hright : ∀ path, t.follow (.right :: path) (some id) = t.follow path r.id? := by
      intro path
      rw [follow_right, hid, er]
    have hndl := ihl hll hnl fun p q i hp hq => List.tail_eq_of_cons_eq
      (honce _ _ i ((hleft p).trans hp) ((hleft q).trans hq))
    have hndr := ihr hlr hnr fun p q i hp hq => List.tail_eq_of_cons_eq
      (honce _ _ i ((hright p).trans hp) ((hright q).trans hq))
    rw [Outline.toList, List.nodup_cons, List.nodup_append, List.mem_append, not_or,
      ← exists_follow_iff hll hnl, ← exists_follow_iff hlr hnr]
    refine ⟨⟨?_, ?_⟩, hndl, hndr, ?_⟩
    · rintro ⟨path, h⟩
      cases honce _ [] id ((hleft path).trans h) rfl
    · rintro ⟨path, h⟩
      cases honce _ [] id ((hright path).trans h) rfl
    · rintro i hi j hj rfl
      obtain ⟨p, hp⟩ := (exists_follow_iff hll hnl).mpr hi
      obtain ⟨q, hq⟩ := (exists_follow_iff hlr hnr).mpr hj
      cases honce _ _ i ((hleft p).trans hp) ((hright q).trans hq)

theorem Spans.treelike (h : t.Spans o) : t.Treelike where
  inside _ _ hp := h.lt_size (h.exists_follow_iff.mp ⟨_, hp⟩)
  once _ _ _ hp hq := h.follow_injective hp hq

theorem Treelike.spans (h : t.Treelike) : t.Spans t.outline := by
  obtain ⟨hroot, hlinked⟩ := linked_outlineFrom fun _ _ hp => h.length_lt hp
  have hnode := t.node_of_mem_outlineFrom t.size (some t.root)
  have hreach := fun i => exists_follow_iff (i := i) hlinked hnode
  rw [hroot] at hreach
  refine ⟨hroot, hlinked, fun e he => ?_, hnode, ?_⟩
  · have hmem : e.1 ∈ t.outline.toList := t.outline.map_entries ▸ List.mem_map_of_mem he
    obtain ⟨path, hp⟩ := (hreach e.1).mpr hmem
    exact h.inside path e.1 hp
  · rw [Outline.map_entries]
    exact nodup_toList hlinked hnode (hroot.symm ▸ h.once)

/-- an arena spans a tree exactly when its links form one -/
theorem spans_outline_iff : t.Spans t.outline ↔ t.Treelike :=
  ⟨Spans.treelike, Treelike.spans⟩

end Tree

/-! ## leaves -/

/-- a leaf with its symbol -/
def Entry.leaf? (e : Entry) : Option (NodeId × Symbol) :=
  if e.2.isLeaf then e.2.symbol.map (e.1, ·) else none

namespace Outline

/-- the leaves from left to right, each with its symbol -/
def leaves : Outline → List (NodeId × Symbol)
  | empty => []
  | node id n l r =>
    if l.isEmpty && r.isEmpty then (Entry.leaf? (id, n)).toList else l.leaves ++ r.leaves

theorem isNone_id? (o : Outline) : o.id?.isNone = o.isEmpty := by
  cases o <;> rfl

theorem leaves_eq_filterMap {o : Outline} (hl : o.Linked) :
    o.leaves = o.entries.filterMap Entry.leaf? := by
  induction o with
  | empty => rfl
  | node id n l r ihl ihr =>
    obtain ⟨el, er, hll, hlr⟩ := hl
    rw [leaves, entries]
    split
    · next he =>
      rw [Bool.and_eq_true] at he
      cases l with
      | node => cases he.1
      | empty =>
        cases r with
        | node => cases he.2
        | empty =>
          show _ = List.filterMap Entry.leaf? [(id, n)]
          rw [List.filterMap_cons, List.filterMap_nil]
          cases Entry.leaf? (id, n) <;> rfl
    · next he =>
      have hnot : Entry.leaf? (id, n) = none := by
        rw [← isNone_id?, ← isNone_id?, ← el, ← er] at he
        rw [Entry.leaf?, Node.isLeaf, Bool.eq_false_iff.mpr he]
        rfl
      rw [List.filterMap_cons_none hnot, List.filterMap_append, ihl hll, ihr hlr]

end Outline

namespace Tree

/-- the leaves among some nodes of the arena -/
theorem map_filter_isLeaf {t : Tree} {es : List Entry} (hn : ∀ e ∈ es, t.node e.1 = e.2) :
    ((es.map Prod.fst).filter fun id => (t.node id).isLeaf).map
        (fun id => (id, (t.node id).symbol)) =
      (es.filterMap Entry.leaf?).map fun e => (e.1, some e.2) := by
  induction es with
  | nil => rfl
  | cons e es ih =>
    obtain ⟨he, hes⟩ := List.forall_mem_cons.mp hn
    rw [List.map_cons, List.filter_cons, he]
    cases hleaf : e.2.isLeaf with
    | false =>
      have hnone : e.leaf? = none := by rw [Entry.leaf?, hleaf]; rfl
      rw [List.filterMap_cons_none hnone]
      exact ih hes
    | true =>
      obtain ⟨s, hs⟩ : ∃ s, e.2.symbol = some s := by
        rw [Node.isLeaf, Bool.and_eq_true] at hleaf
        cases hs : e.2.symbol with
        | none =>
          rw [hs] at hleaf
          cases hleaf.2
        | some s => exact ⟨s, rfl⟩
      have hsome : e.leaf? = some (e.1, s) := by rw [Entry.leaf?, hleaf, hs]; rfl
      rw [List.filterMap_cons_some hsome, if_pos rfl, List.map_cons, List.map_cons, ih hes, he, hs]

namespace Spans

variable {t : Tree} {o : Outline}

/-- the leaves that the stack walk finds are those of the outline, in their order -/
theorem leaves_eq (h : t.Spans o) :
    t.leaves.map (fun id => (id, (t.node id).symbol)) = o.leaves.map fun e => (e.1, some e.2) := by
  rw [Tree.leaves, h.preorder_eq, ← o.map_entries, map_filter_isLeaf h.holds.node,
    Outline.leaves_eq_filterMap h.linked]

theorem nodup_leaves (h : t.Spans o) : t.leaves.Nodup := by
  unfold leaves
  rw [h.preorder_eq]
  exact h.nodup.filter _

theorem lt_of_mem_leaves (h : t.Spans o) {i : NodeId} (hi : i ∈ t.leaves) : i < t.size := by
  unfold leaves at hi
  rw [h.preorder_eq] at hi
  exact h.lt_size (List.mem_filter.mp hi).1

end Spans

end Tree

end WordExpr
