import Mathlib.Algebra.GroupWithZero.Nat
import Mathlib.Data.List.Perm.Subperm
import WordExpr.Proofs.Formula

/-!
# The tree of a builder, cut at its cursor

A builder's tree is complete up to its cursor. Here it is taken apart there:

* `Part`          a part of the tree with the places of its nodes; `Part.missing` stands where an
                  operand is still to come;
* `Frame`         an open group or an operator on the way from the cursor up, with what it already
                  holds on its left;
* `plug p fs`     the whole tree: the part `p` below the frames `fs`, the innermost one first;
* `Tree.Holds`    an arena holds a list of entries, each at a place of its own.

`Tree.Holds.graft` is the one fact about changes of the arena: a new part below the innermost
frame, and nothing else changes. Taking a frame off and putting it around the part does not change
the whole (`plug` by definition), so climbing past operators and closing a group leave the arena
alone.
-/

namespace WordExpr

/-! ## entries of an outline -/

abbrev Entry := NodeId × Node

namespace Outline

def id? : Outline → Option NodeId
  | empty => none
  | node id _ _ _ => some id

def entries : Outline → List Entry
  | empty => []
  | node id n l r => (id, n) :: (l.entries ++ r.entries)

/-- every node names its children -/
def Linked : Outline → Prop
  | empty => True
  | node _ n l r => n.left = l.id? ∧ n.right = r.id? ∧ l.Linked ∧ r.Linked

theorem map_entries (o : Outline) : o.entries.map Prod.fst = o.toList := by
  induction o with
  | empty => rfl
  | node id n l r ihl ihr => simp [entries, toList, ihl, ihr]

end Outline

/-! ## arenas -/

/-- the entries are in the arena, each at a place of its own -/
structure Tree.Holds (t : Tree) (es : List Entry) : Prop where
  lt : ∀ e ∈ es, e.1 < t.size
  node : ∀ e ∈ es, t.node e.1 = e.2
  nodup : (es.map Prod.fst).Nodup

namespace Tree

theorem Holds.perm {t : Tree} {es es' : List Entry} (h : t.Holds es) (hp : es.Perm es') :
    t.Holds es' where
  lt e he := h.lt e (hp.mem_iff.mpr he)
  node e he := h.node e (hp.mem_iff.mpr he)
  nodup := (hp.map Prod.fst).nodup_iff.mp h.nodup

theorem Holds.sublist {t : Tree} {es es' : List Entry} (h : t.Holds es) (hs : es'.Sublist es) :
    t.Holds es' where
  lt e he := h.lt e (hs.mem he)
  node e he := h.node e (hs.mem he)
  nodup := h.nodup.sublist (hs.map Prod.fst)

theorem Holds.length_le {t : Tree} {es : List Entry} (h : t.Holds es) : es.length ≤ t.size := by
  have hsub : es.map Prod.fst ⊆ List.range t.size := by
    intro i hi
    obtain ⟨e, he, rfl⟩ := List.mem_map.mp hi
    exact List.mem_range.mpr (h.lt e he)
  simpa using (h.nodup.subperm hsub).length_le

/-- where the arena has the nodes of an outline, it has the outline -/
theorem outlineFrom_eq (t : Tree) {o : Outline} (hl : o.Linked)
    (hn : ∀ e ∈ o.entries, t.node e.1 = e.2) {fuel : Nat} (hf : o.entries.length ≤ fuel) :
    t.outlineFrom fuel o.id? = o := by
  induction o generalizing fuel with
  | empty => exact t.outlineFrom_none fuel
  | node id n l r ihl ihr =>
    obtain ⟨el, er, hll, hlr⟩ := hl
    simp only [Outline.entries, List.length_cons, List.length_append] at hf
    obtain ⟨fuel, rfl⟩ : ∃ k, fuel = k + 1 := ⟨fuel - 1, by omega⟩
    have h0 : t.node id = n := hn (id, n) (by simp [Outline.entries])
    have h1 : t.outlineFrom fuel l.id? = l :=
      ihl hll (fun e he => hn e (by simp [Outline.entries, he])) (by omega)
    have h2 : t.outlineFrom fuel r.id? = r :=
      ihr hlr (fun e he => hn e (by simp [Outline.entries, he])) (by omega)
    show t.outlineFrom (fuel + 1) (some id) = _
    rw [outlineFrom, h0, el, er, h1, h2]

end Tree

/-! ## parts -/

namespace Node

def ofAtom (up : Option NodeId) (f : Flags) (a : Atom) : Node :=
  { parent := up, symbol := some a.symbol, minus := f.minus, complement := f.complement }

def ofGroup (up left : Option NodeId) (f : Flags) : Node :=
  { parent := up, left, minus := f.minus, complement := f.complement }

def ofOperator (up left right : Option NodeId) (op : Operator) : Node :=
  { parent := up, left, right, symbol := some (.operator op) }

end Node

inductive Part where
  | missing
  | leaf (id : NodeId) (f : Flags) (a : Atom)
  | group (id : NodeId) (f : Flags) (inner : Part)
  | binary (id : NodeId) (op : Operator) (l r : Part)
deriving DecidableEq, Repr

namespace Part

def id? : Part → Option NodeId
  | missing => none
  | leaf id _ _ => some id
  | group id _ _ => some id
  | binary id _ _ _ => some id

/-- the part as it stands below `up` -/
def outline (up : Option NodeId) : Part → Outline
  | missing => .empty
  | leaf id f a => .node id (.ofAtom up f a) .empty .empty
  | group id f p => .node id (.ofGroup up p.id? f) (p.outline (some id)) .empty
  | binary id op l r =>
    .node id (.ofOperator up l.id? r.id? op) (l.outline (some id)) (r.outline (some id))

def entries (up : Option NodeId) (p : Part) : List Entry := (p.outline up).entries

/-- nothing where an operand is missing -/
def formula? : Part → Option Formula
  | missing => none
  | leaf _ f a => some (.leaf f a)
  | group _ f p => p.formula?.map (.group f)
  | binary _ op l r =>
    match l.formula?, r.formula? with
    | some a, some b => some (.binary {} op a b)
    | _, _ => none

/-- how many nodes there are -/
def size : Part → Nat
  | missing => 0
  | leaf _ _ _ => 1
  | group _ _ p => p.size + 1
  | binary _ _ l r => l.size + r.size + 1

theorem entries_missing (up : Option NodeId) : missing.entries up = [] := rfl

theorem entries_leaf (up : Option NodeId) (id : NodeId) (f : Flags) (a : Atom) :
    (leaf id f a).entries up = [(id, .ofAtom up f a)] := rfl

theorem entries_group (up : Option NodeId) (id : NodeId) (f : Flags) (p : Part) :
    (group id f p).entries up = (id, .ofGroup up p.id? f) :: p.entries (some id) := by
  simp [entries, outline, Outline.entries]

theorem entries_binary (up : Option NodeId) (id : NodeId) (op : Operator) (l r : Part) :
    (binary id op l r).entries up =
      (id, .ofOperator up l.id? r.id? op) :: (l.entries (some id) ++ r.entries (some id)) := rfl

theorem length_entries (up : Option NodeId) (p : Part) : (p.entries up).length = p.size := by
  induction p generalizing up with
  | missing => rfl
  | leaf id f a => rfl
  | group id f p ih => rw [entries_group, List.length_cons, ih, size]
  | binary id op l r ihl ihr =>
    rw [entries_binary, List.length_cons, List.length_append, ihl, ihr, size]

theorem id?_outline (up : Option NodeId) (p : Part) : (p.outline up).id? = p.id? := by
  cases p <;> rfl

theorem linked_outline (up : Option NodeId) (p : Part) : (p.outline up).Linked := by
  induction p generalizing up with
  | missing => exact trivial
  | leaf id f a => exact ⟨rfl, rfl, trivial, trivial⟩
  | group id f p ih => exact ⟨(id?_outline _ p).symm, rfl, ih _, trivial⟩
  | binary id op l r ihl ihr =>
    exact ⟨(id?_outline _ l).symm, (id?_outline _ r).symm, ihl _, ihr _⟩

/-- hung up elsewhere, a part changes at its own node only, and there only the parent -/
theorem exists_entries_eq_cons {p : Part} {a : NodeId} (h : p.id? = some a) :
    ∃ (n : Node) (es : List Entry),
      ∀ up, p.entries up = (a, { n with parent := up }) :: es := by
  cases p with
  | missing => cases h
  | leaf id f x => cases h; exact ⟨.ofAtom none f x, [], fun up => rfl⟩
  | group id f p =>
    cases h
    exact ⟨.ofGroup none p.id? f, p.entries (some a), fun up => entries_group ..⟩
  | binary id op l r =>
    cases h
    exact ⟨.ofOperator none l.id? r.id? op, l.entries (some a) ++ r.entries (some a),
      fun up => rfl⟩

theorem formula?_outline (up : Option NodeId) (p : Part) :
    (p.outline up).formula? = p.formula? := by
  induction p generalizing up with
  | missing => rfl
  | leaf id f a => cases a <;> rfl
  | group id f p ih =>
    show ((p.outline (some id)).formula?.map _ : Option Formula) = _
    rw [ih]
    rfl
  | binary id op l r ihl ihr =>
    unfold outline Outline.formula?
    rw [ihl, ihr]
    rfl

end Part

/-! ## frames -/

inductive Frame where
  | group (id : NodeId) (f : Flags)
  | operator (id : NodeId) (op : Operator) (l : Part)
deriving DecidableEq, Repr

namespace Frame

def id : Frame → NodeId
  | group id _ => id
  | operator id _ _ => id

def isGroup : Frame → Bool
  | group _ _ => true
  | operator _ _ _ => false

/-- the frame with an operand in its free place -/
def fill : Frame → Part → Part
  | group id f, p => .group id f p
  | operator id op l, p => .binary id op l p

/-- the node of the frame, with `child` in its free place -/
def node (up child : Option NodeId) : Frame → Node
  | group _ f => .ofGroup up child f
  | operator _ op l => .ofOperator up l.id? child op

def size : Frame → Nat
  | group _ _ => 1
  | operator _ _ l => l.size + 1

/-- the entries on its left -/
def side : Frame → List Entry
  | group _ _ => []
  | operator id _ l => l.entries (some id)

theorem id?_fill (f : Frame) (p : Part) : (f.fill p).id? = some f.id := by
  cases f <;> rfl

theorem entries_fill (up : Option NodeId) (f : Frame) (p : Part) :
    (f.fill p).entries up = (f.id, f.node up p.id?) :: (f.side ++ p.entries (some f.id)) := by
  cases f with
  | group id fl => exact Part.entries_group up id fl p
  | operator id op l => exact Part.entries_binary up id op l p

end Frame

/-- the part below the frames, the innermost one first -/
def plug (p : Part) : List Frame → Part
  | [] => p
  | f :: fs => plug (f.fill p) fs

/-- the node that a cursor below the frames stands at -/
def top (fs : List Frame) : Option NodeId := fs.head?.map Frame.id

/-- the entries of the frames, with `child` in the free place of the innermost one -/
def context (child : Option NodeId) : List Frame → List Entry
  | [] => []
  | f :: fs => (f.id, f.node (top fs) child) :: (f.side ++ context (some f.id) fs)

theorem plug_append (p : Part) (fs gs : List Frame) : plug p (fs ++ gs) = plug (plug p fs) gs := by
  induction fs generalizing p with
  | nil => rfl
  | cons f fs ih => exact ih (f.fill p)

theorem size_plug (p : Part) (fs : List Frame) :
    (plug p fs).size = p.size + (fs.map Frame.size).sum := by
  induction fs generalizing p with
  | nil => rfl
  | cons f fs ih =>
    show (plug (f.fill p) fs).size = _
    have hf : (f.fill p).size = p.size + f.size := by
      cases f with
      | group id fl => rfl
      | operator id op l =>
        show l.size + p.size + 1 = p.size + (l.size + 1)
        omega
    rw [ih, hf, List.map_cons, List.sum_cons, Nat.add_assoc]

theorem entries_plug (p : Part) (fs : List Frame) :
    ((plug p fs).entries none).Perm (p.entries (top fs) ++ context p.id? fs) := by
  induction fs generalizing p with
  | nil => simp [plug, top, context]
  | cons f fs ih =>
    refine (ih (f.fill p)).trans ?_
    rw [Frame.entries_fill, Frame.id?_fill, context]
    -- the node of the frame stands in front of what it holds, the part behind
    show ((f.id, f.node (top fs) p.id?) :: (f.side ++ p.entries (some f.id)) ++
      context (some f.id) fs).Perm _
    refine List.Perm.trans ?_ List.perm_middle.symm
    refine List.Perm.cons _ ?_
    rw [← List.append_assoc]
    exact List.perm_append_comm.append_right _

/-- **A change of the arena below the innermost frame.** The arena holds the part `p'` instead of
`p`, the frame points to it, and all other nodes are as they were. -/
theorem Tree.Holds.graft {t t' : Tree} {p p' : Part} {f : Frame} {fs : List Frame}
    (h : t.Holds ((plug p (f :: fs)).entries none)) (hsize : t.size ≤ t'.size)
    (hp' : t'.Holds (p'.entries (some f.id))) (hf : t'.node f.id = f.node (top fs) p'.id?)
    (hids : ∀ e' ∈ p'.entries (some f.id),
      (∃ e ∈ p.entries (some f.id), e.1 = e'.1) ∨ t.size ≤ e'.1)
    (hkeep : ∀ i < t.size, i ≠ f.id → (∀ e ∈ p.entries (some f.id), e.1 ≠ i) →
      t'.node i = t.node i) :
    t'.Holds ((plug p' (f :: fs)).entries none) := by
  have h : t.Holds (p.entries (some f.id) ++
      (f.id, f.node (top fs) p.id?) :: (f.side ++ context (some f.id) fs)) :=
    h.perm (entries_plug p (f :: fs))
  suffices h' : t'.Holds (p'.entries (some f.id) ++
      (f.id, f.node (top fs) p'.id?) :: (f.side ++ context (some f.id) fs)) from
    h'.perm (entries_plug p' (f :: fs)).symm
  generalize f.side ++ context (some f.id) fs = rest at h ⊢
  have hnd := h.nodup
  rw [List.map_append, List.map_cons, List.nodup_append, List.nodup_cons] at hnd
  obtain ⟨-, ⟨hfn, hrn⟩, hdisj⟩ := hnd
  have hflt : f.id < t.size := h.lt (f.id, f.node (top fs) p.id?) (by simp)
  have hrlt : ∀ e ∈ rest, e.1 < t.size := fun e he => h.lt e (by simp [he])
  have hrest : ∀ e ∈ rest, t'.node e.1 = e.2 := by
    intro e he
    have hmem : e.1 ∈ rest.map Prod.fst := List.mem_map_of_mem he
    rw [hkeep e.1 (hrlt e he) (fun heq => hfn (heq ▸ hmem)) (fun e' he' =>
      hdisj e'.1 (List.mem_map_of_mem he') e.1 (List.mem_cons_of_mem _ hmem))]
    exact h.node e (by simp [he])
  constructor
  · intro e he
    rcases List.mem_append.mp he with he | he
    · exact hp'.lt e he
    rcases List.mem_cons.mp he with rfl | he
    · exact Nat.lt_of_lt_of_le hflt hsize
    · exact Nat.lt_of_lt_of_le (hrlt e he) hsize
  · intro e he
    rcases List.mem_append.mp he with he | he
    · exact hp'.node e he
    rcases List.mem_cons.mp he with rfl | he
    · exact hf
    · exact hrest e he
  · rw [List.map_append, List.map_cons, List.nodup_append, List.nodup_cons]
    refine ⟨hp'.nodup, ⟨hfn, hrn⟩, ?_⟩
    intro i hi j hj hij
    subst hij
    obtain ⟨e', he', rfl⟩ := List.mem_map.mp hi
    have hlt : e'.1 < t.size := by
      rcases List.mem_cons.mp hj with hj | hj
      · exact hj ▸ hflt
      · obtain ⟨e, he, heq⟩ := List.mem_map.mp hj
        exact heq ▸ hrlt e he
    rcases hids e' he' with ⟨e, he, heq⟩ | hge
    · exact hdisj e.1 (List.mem_map_of_mem he) e'.1 hj heq
    · exact absurd hlt (Nat.not_lt.mpr hge)

end WordExpr
