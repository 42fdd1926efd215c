/-!
# The odometer

`advance radix` steps a list of digits to the next one, the last digit fastest, and tells
whether there was a next one; after the last all digits are zero again. A digit that is not
below the radix counts as the largest digit.
-/

namespace WordExpr

def advance (radix : UInt64) : List UInt64 → Bool × List UInt64
  | [] => (false, [])
  | d :: ds =>
    match advance radix ds with
    | (true, ds) => (true, d :: ds)
    | (false, ds) => if d + 1 < radix then (true, (d + 1) :: ds) else (false, 0 :: ds)

theorem length_advance (radix : UInt64) (ds : List UInt64) :
    (advance radix ds).2.length = ds.length := by
  induction ds with
  | nil => rfl
  | cons d ds ih =>
    unfold advance
    split
    · simp_all
    · split <;> simp_all

/-! ## the number of assignments -/

/-- `base ^ n` if it is below `bound`, by repeated squaring -/
def powBelow? (bound base n : Nat) : Option Nat :=
  if n = 0 then some 1
  else do
    let half ← powBelow? bound base (n / 2)
    let p := if n % 2 = 0 then half * half else half * half * base
    if p < bound then some p else none
termination_by n
decreasing_by omega

end WordExpr
