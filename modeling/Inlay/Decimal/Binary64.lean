/-!
Finite binary64 magnitudes as exact numbers `m * 2 ^ e`, with rounding to
nearest, ties to even. Signs are kept elsewhere.
-/

namespace Inlay.Decimal

/-- The magnitude `m * 2 ^ e`, with `m < 2 ^ 53` and `-1074 ≤ e`; when
`m < 2 ^ 52` the exponent is the least one. -/
structure Binary64 where
  m : Nat
  e : Int
  deriving DecidableEq, Repr

namespace Binary64

/-- The quotient nearest to `num / den`, an even one when two are. -/
def roundDiv (num den : Nat) : Nat :=
  let q := num / den
  let twice := 2 * (num % den)
  if twice > den ∨ (twice = den ∧ q % 2 = 1) then q + 1 else q

def scaleDown (num den : Nat) (e : Int) : Nat × Nat :=
  if e < 0 then (num * Nat.pow 2 (-e).toNat, den) else (num, den * Nat.pow 2 e.toNat)

/-- The magnitude nearest to `num / den`, or none past the finite range. -/
def ofRatio? (num den : Nat) : Option Binary64 :=
  let low := max ((num.log2 : Int) - den.log2 - 53) (-1074)
  let (n, d) := scaleDown num den low
  let e := if n / d ≥ Nat.pow 2 53 then low + 1 else low
  let (n, d) := scaleDown num den e
  let m := roundDiv n d
  let (m, e) := if m = Nat.pow 2 53 then (Nat.pow 2 52, e + 1) else (m, e)
  if e > 971 then none else some ⟨m, e⟩

def ratio (x : Binary64) : Nat × Nat :=
  if x.e < 0 then (x.m, Nat.pow 2 (-x.e).toNat) else (x.m * Nat.pow 2 x.e.toNat, 1)

def mul? (x y : Binary64) : Option Binary64 :=
  ofRatio? (x.ratio.1 * y.ratio.1) (x.ratio.2 * y.ratio.2)

def div? (x y : Binary64) : Option Binary64 :=
  ofRatio? (x.ratio.1 * y.ratio.2) (x.ratio.2 * y.ratio.1)

end Binary64

end Inlay.Decimal
