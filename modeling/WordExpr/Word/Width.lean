/-!
# Word widths

A `Width` is the number of bits, 1 to `Width.maxBits`, of every variable and of every intermediate
value. `Width.radix` is the number of values of one word, `Width.mask` its largest value and
`Width.reduce` brings a 64-bit value down to the width.
-/

namespace WordExpr

def Width.maxBits : Nat := 32

structure Width where
  bits : Nat
  pos : 0 < bits
  le_max : bits ≤ Width.maxBits
deriving DecidableEq

namespace Width

def ofBits? (bits : Nat) : Option Width :=
  if h : 0 < bits ∧ bits ≤ maxBits then some ⟨bits, h.1, h.2⟩ else none

/-- one bit: truth tables -/
def single : Width := ⟨1, by decide, by decide⟩

instance : Inhabited Width := ⟨single⟩

def radix (w : Width) : UInt64 := 1 <<< UInt64.ofNat w.bits
def mask (w : Width) : UInt64 := w.radix - 1
def reduce (w : Width) (v : UInt64) : UInt64 := v &&& w.mask

end Width

end WordExpr
