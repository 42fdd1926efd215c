import WordExpr.Expression
import WordExpr.Settings
import WordExpr.Text.Basic

/-!
# Batches

A batch is a text with one expression in a line; blank lines and lines that start with `#` are
left out, lines are counted from 1. Each expression is summarized on its own, and the order is
that of the lines.

* `Batch.entries`      the summary, or the error, of every expression;
* `Batch.grouping`     the successes that share a digest as `Batch.groups`, in the order of their
                       first members, with an index from digests to places in that list;
* `Batch.firstError?`  the first failure with its line.
-/

namespace WordExpr

structure Summary where
  canonical : String
  arity : Nat
  slots : Nat
  fingerprint : Fingerprint
deriving DecidableEq, Repr

/-- The table itself is thrown away. -/
def summarize (raw : String) (w : Width) : Except Error Summary := do
  let e ← Expression.parse raw
  let fingerprint ← (e.fingerprint w .unlimited).result
  pure ⟨e.render, e.registry.size, e.registry.slots, fingerprint⟩

namespace Batch

structure Entry where
  line : Nat
  raw : String
  result : Except Error Summary

structure Group where
  fingerprint : Fingerprint
  /-- places in the list of entries -/
  members : List Nat
deriving DecidableEq, Repr

/-! ## reading -/

def isComment (line : String) : Bool := line.toList.head? == some '#'

def numbered (input : String) : List (Nat × String) :=
  ((Text.lines input).zipIdx 1).map (fun (line, n) => (n, Text.trim line))

def expressions (input : String) : List (Nat × String) :=
  (numbered input).filter (fun (_, line) => line ≠ "" && !isComment line)

def entry (w : Width) : Nat × String → Entry
  | (line, raw) => ⟨line, raw, summarize raw w⟩

def entries (input : String) (w : Width) : List Entry := (expressions input).map (entry w)

/-! ## groups -/

/-- the groups so far, and the place of each of them by its digest -/
structure Grouping where
  index : List (Digest × Nat) := []
  groups : List Group := []
deriving DecidableEq, Repr

def Group.joined (g : Group) (i : Nat) : Group := { g with members := g.members ++ [i] }

namespace Grouping

/-- into the group that the index knows for the digest, or into a new one behind all others -/
def place (s : Grouping) (f : Fingerprint) (i : Nat) : Grouping :=
  match s.index.lookup f.digest with
  | some k => { s with groups := s.groups.modify k (·.joined i) }
  | none =>
    { index := (f.digest, s.groups.length) :: s.index
      groups := s.groups ++ [⟨f, [i]⟩] }

/-- a failure is left out -/
def add (s : Grouping) : Entry × Nat → Grouping
  | (e, i) =>
    match e.result with
    | .ok summary => s.place summary.fingerprint i
    | .error _ => s

end Grouping

def grouping (es : List Entry) : Grouping := es.zipIdx.foldl Grouping.add {}

def groups (es : List Entry) : List Group := (grouping es).groups

/-! ## failures -/

def failure? (e : Entry) : Option (Nat × Error) :=
  match e.result with
  | .ok _ => none
  | .error why => some (e.line, why)

def firstError? (es : List Entry) : Option (Nat × Error) := es.findSome? failure?

end Batch

end WordExpr
