import WordExpr.Error
import WordExpr.Table.Fingerprint
import WordExpr.Table.Odometer

/-!
# Tables of an expression

The table of a tree is its outcome for every assignment of words to the variables of a
registry. The cells run like an odometer from all zeros, the variable seen last fastest, and
the outcomes are written as one line of items with a line feed behind it.

* `combinations`   how many assignments there are, if that fits 64 bits;
* `tabulate`       writes the table and takes its fingerprint. The number of assignments is looked
                   at before anything else is done. A tree without variables has a single outcome,
                   which is not hashed: all constant expressions have the digest of no bytes.

A `Tabulation` also holds the registry and the sink as they are afterwards, a failure included.
-/

namespace WordExpr

def combinations (w : Width) (arity : Nat) : Except Error Nat :=
  match powBelow? UInt64.size w.radix.toNat arity with
  | some n => .ok n
  | none => .error (.tooManyCombinations w.bits arity)

/-- the cells of the next assignment, and whether there is one -/
def Registry.advance (r : Registry) (w : Width) : Bool × Registry :=
  match WordExpr.advance w.radix r.cells with
  | (more, cells) => (more, { r with cells })

structure Tabulation where
  result : Except Error Fingerprint
  registry : Registry
  sink : Sink

namespace Tabulation

/-- the line feed behind the last item -/
def finishLine (c : Collector) (r : Registry) (s : Sink) : Tabulation :=
  match s.write "\n".toUTF8 with
  | (s, true) => ⟨.ok c.finish, r, s⟩
  | (s, false) => ⟨.error .sinkFull, r, s⟩

/-- the outcomes from the assignment in the cells on, `rows` of them at most -/
def rowsFrom (t : Tree) (w : Width) (rows : Nat) (c : Collector) (r : Registry) (s : Sink) :
    Tabulation :=
  match rows with
  | 0 => finishLine c r s
  | rows + 1 =>
    match t.evaluate r w with
    | .error e => ⟨.error (.eval e), r, s⟩
    | .ok outcome =>
      match c.add outcome s with
      | (_, s, false) => ⟨.error .sinkFull, r, s⟩
      | (c, s, true) =>
        match r.advance w with
        | (true, r) => rowsFrom t w rows c r s
        | (false, r) => finishLine c r s

def constant (t : Tree) (w : Width) (r : Registry) (s : Sink) : Tabulation :=
  match t.evaluate r w with
  | .error e => ⟨.error (.eval e), r, s⟩
  | .ok outcome =>
    match Collector.addUnhashed {} outcome s with
    | (_, s, false) => ⟨.error .sinkFull, r, s⟩
    | (c, s, true) => finishLine c r s

end Tabulation

def tabulate (t : Tree) (r : Registry) (w : Width) (s : Sink) : Tabulation :=
  match combinations w r.size with
  | .error e => ⟨.error e, r, s⟩
  | .ok rows =>
    let r := r.reset
    if r.isEmpty then Tabulation.constant t w r s
    else Tabulation.rowsFrom t w rows {} r s

end WordExpr
