import WordExpr.Tree.Basic

/-!
# Walks through a tree

* `Outline`        the part of a tree below a node, as an inductive binary tree of nodes;
* `Tree.outline`   the outline of the whole tree; what prints a tree recurses on it;
* `Tree.preorder`  the reachable nodes, every node before its left subtree and that before its
                   right one, found with a stack of nodes still to be visited;
* `Tree.leaves`    the leaves among them, which are in the order of the text.

`Tree.preorder_eq_toList` says that the stack walk lists the outline.

No way down a tree that meets no node twice has more nodes than the arena. So all walks carry
the number of links that may still be followed, starting with the size of the arena; in an
arena whose links form a cycle this is where they stop.
-/

namespace WordExpr

/-! ## outlines -/

inductive Outline where
  | empty
  | node (id : NodeId) (content : Node) (left right : Outline)
deriving DecidableEq, Repr

namespace Outline

def isEmpty : Outline → Bool
  | empty => true
  | node .. => false

/-- a node, then its left subtree, then its right one -/
def toList : Outline → List NodeId
  | empty => []
  | node id _ l r => id :: (l.toList ++ r.toList)

end Outline

namespace Tree

def outlineFrom (t : Tree) (fuel : Nat) (place : Option NodeId) : Outline :=
  match fuel, place with
  | 0, _ | _, none => .empty
  | fuel + 1, some id =>
    let n := t.node id
    .node id n (t.outlineFrom fuel n.left) (t.outlineFrom fuel n.right)

/-- the part of the tree below a node -/
def outlineAt (t : Tree) (id : NodeId) : Outline := t.outlineFrom t.size (some id)

def outline (t : Tree) : Outline := t.outlineAt t.root

/-! ## the stack walk -/

/-- a node to be visited and how many links may be followed below it -/
abbrev Visit := NodeId × Nat

def below (t : Tree) : Visit → List Visit
  | (_, 0) => []
  | (id, n + 1) => (t.node id).left.toList.map (·, n) ++ (t.node id).right.toList.map (·, n)

/-- an upper bound for the visits that one entry leads to, by the links that may be followed -/
def visits : Nat → Nat
  | 0 => 1
  | n + 1 => 2 * visits n + 1

def pending : List Visit → Nat
  | [] => 0
  | v :: stack => visits v.2 + pending stack

theorem pending_append (a b : List Visit) : pending (a ++ b) = pending a + pending b := by
  induction a with
  | nil => exact (Nat.zero_add _).symm
  | cons v a ih => rw [List.cons_append, pending, pending, ih, Nat.add_assoc]

theorem pending_toList_le (place : Option NodeId) (n : Nat) :
    pending (place.toList.map (·, n)) ≤ visits n := by
  cases place with
  | none => exact Nat.zero_le _
  | some id => exact Nat.le_refl _

theorem pending_below (t : Tree) (v : Visit) (stack : List Visit) :
    pending (t.below v ++ stack) < pending (v :: stack) := by
  rw [pending_append, pending]
  obtain ⟨id, n⟩ := v
  cases n with
  | zero => simp [below, pending, visits]
  | succ n =>
    have hl := pending_toList_le (t.node id).left n
    have hr := pending_toList_le (t.node id).right n
    rw [below, pending_append, visits]
    omega

def visitAll (t : Tree) : List Visit → List NodeId
  | [] => []
  | v :: stack => v.1 :: t.visitAll (t.below v ++ stack)
termination_by stack => pending stack
decreasing_by exact t.pending_below v stack

def preorder (t : Tree) : List NodeId := t.visitAll [(t.root, t.size - 1)]

def leaves (t : Tree) : List NodeId := t.preorder.filter (fun id => (t.node id).isLeaf)

/-! ## the stack walk follows the outline -/

theorem outlineFrom_none (t : Tree) (fuel : Nat) : t.outlineFrom fuel none = .empty := by
  cases fuel <;> rfl

theorem visitAll_nil (t : Tree) : t.visitAll [] = [] := by rw [visitAll]

theorem visitAll_cons (t : Tree) (v : Visit) (stack : List Visit) :
    t.visitAll (v :: stack) = v.1 :: t.visitAll (t.below v ++ stack) := by rw [visitAll]

theorem visitAll_visit (t : Tree) (n : Nat) (id : NodeId) (stack : List Visit) :
    t.visitAll ((id, n) :: stack) =
      (t.outlineFrom (n + 1) (some id)).toList ++ t.visitAll stack := by
  induction n generalizing id stack with
  | zero => simp [visitAll_cons, below, outlineFrom, Outline.toList]
  | succ n ih =>
    have step : ∀ (place : Option NodeId) (stack : List Visit),
        t.visitAll (place.toList.map (·, n) ++ stack) =
          (t.outlineFrom (n + 1) place).toList ++ t.visitAll stack := by
      intro place stack
      cases place with
      | none => rw [outlineFrom_none]; rfl
      | some id => exact ih id stack
    rw [visitAll_cons, below, List.append_assoc, step, step, outlineFrom]
    simp [Outline.toList]

theorem preorder_eq_toList (t : Tree) (h : 0 < t.size) : t.preorder = t.outline.toList := by
  have e : t.size - 1 + 1 = t.size := by omega
  unfold preorder outline outlineAt
  rw [visitAll_visit, visitAll_nil, List.append_nil, e]

end Tree

end WordExpr
