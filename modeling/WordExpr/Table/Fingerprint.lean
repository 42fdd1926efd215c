import WordExpr.Evaluation
import WordExpr.Table.Md5

/-!
# Fingerprints

A `Sink` receives bytes and takes `room` of them in all, or any number where it has no limit. A
write that does not fit leaves what fits behind and fails.

A `Fingerprint` is the digest of a sequence of outcomes with the number of outcomes and of
undefined ones among them. A `Collector` takes the outcomes one after the other: each gives an
item, its decimal value or `n` where it is undefined, with a comma behind it.

* `Collector.add`          counts an outcome, hashes its item and writes it to a sink;
* `Collector.addUnhashed`  does the same without hashing;
* `Collector.finish`       the fingerprint, whose digest is that of all hashed items one after the
                           other.

An outcome counts, and is hashed, even where the write of its item fails.
-/

namespace WordExpr

/-! ## sinks -/

structure Sink where
  received : ByteArray := .empty
  room : Option Nat := none

namespace Sink

def unlimited : Sink := {}

/-- what may still be taken -/
def left (s : Sink) : Option Nat := s.room.map (· - s.received.size)

/-- the sink afterwards and whether all bytes went in -/
def write (s : Sink) (bytes : ByteArray) : Sink × Bool :=
  match s.left with
  | none => ({ s with received := s.received ++ bytes }, true)
  | some n => ({ s with received := s.received ++ bytes.extract 0 n }, bytes.size ≤ n)

end Sink

/-! ## fingerprints -/

structure Fingerprint where
  digest : Digest
  combinations : Nat
  undefined : Nat
deriving DecidableEq, Repr

def Outcome.item (o : Outcome) : String := o.text ++ ","

structure Collector where
  hashed : ByteArray := .empty
  combinations : Nat := 0
  undefined : Nat := 0

namespace Collector

def count (c : Collector) (o : Outcome) : Collector :=
  { c with
    combinations := c.combinations + 1
    undefined := if o = .undefined then c.undefined + 1 else c.undefined }

def hash (c : Collector) (bytes : ByteArray) : Collector := { c with hashed := c.hashed ++ bytes }

/-- also tells whether the item was written in full -/
def add (c : Collector) (o : Outcome) (s : Sink) : Collector × Sink × Bool :=
  let item := o.item.toUTF8
  ((c.count o).hash item, s.write item)

def addUnhashed (c : Collector) (o : Outcome) (s : Sink) : Collector × Sink × Bool :=
  (c.count o, s.write o.item.toUTF8)

def finish (c : Collector) : Fingerprint := ⟨Md5.digest c.hashed, c.combinations, c.undefined⟩

end Collector

end WordExpr
