import Inlay.Text
import Inlay.Decimal.Binary64

/-!
The shortest decimal that reads back as a given binary64 magnitude, and its
notation: positional within a range of exponents, with an exponent outside.
-/

namespace Inlay.Decimal

structure Digits where
  digits : Nat
  exponent : Int
  deriving DecidableEq, Repr

namespace Binary64

def leadingExponent (num den : Nat) : Int :=
  if num ≥ den then (Nat.toDigits 10 (num / den)).length - 1
  else
    let shift := (List.range 400).find? fun s => num * Nat.pow 10 (s + 1) ≥ den
    Int.negSucc (shift.getD 0)

/-- The decimal with at most `n` digits nearest to `x` among those that round
to `x`. Such decimals lie in the interval from half a unit below to half a
unit above, whose ends count when `x.m` is even. The interval is measured in
quarters of a unit, since the unit below a power of two is half as long. -/
def withDigits? (x : Binary64) (n : Nat) : Option Digits :=
  let exponent := leadingExponent x.ratio.1 x.ratio.2 - n + 1
  let quarter := x.e - 2
  let grid := Nat.pow 10 exponent.toNat * Nat.pow 2 (-quarter).toNat
  let unit := Nat.pow 2 quarter.toNat * Nat.pow 10 (-exponent).toNat
  let value := 4 * x.m * unit
  let low := (4 * x.m - (if x.m = Nat.pow 2 52 ∧ x.e > -1074 then 1 else 2)) * unit
  let high := (4 * x.m + 2) * unit
  let inside := fun (g : Nat) => if x.m % 2 = 0
    then low ≤ g * grid ∧ g * grid ≤ high
    else low < g * grid ∧ g * grid < high
  let below := value / grid
  let above := below + 1
  let choice := if inside below ∧ inside above then
      let down := value - below * grid
      let up := above * grid - value
      if down < up ∨ (down = up ∧ below % 2 = 0) then some below else some above
    else if inside below then some below
    else if inside above then some above else none
  choice.map (⟨·, exponent⟩)

/-- The fewest digits that read back as `x`, of these the nearest. Seventeen
are always enough. -/
def shortest (x : Binary64) : Digits :=
  if x.m = 0 then ⟨0, 0⟩
  else ((List.range 17).findSome? fun n => x.withDigits? (n + 1)).getD ⟨0, 0⟩

end Binary64

/-- How a number is written: the exponents of the leading digit that are
written positionally. -/
structure Notation where
  leastPositional : Int
  greatestPositional : Int

def zeros (n : Nat) : Text := List.replicate n '0'

/-- A whole number keeps `.0`, a fraction its leading zero, and an exponent
its sign, but no zero in front. -/
def Notation.write (f : Notation) (d : Digits) : Text :=
  let kept := ((Text.decimal d.digits).reverse.dropWhile (· == '0')).reverse
  let leading := d.exponent + (Text.decimal d.digits).length - 1
  match kept with
  | [] => ['0', '.', '0']
  | first :: more =>
    if f.leastPositional ≤ leading ∧ leading ≤ f.greatestPositional then
      if leading < 0 then
        ['0', '.'] ++ zeros (-leading - 1).toNat ++ kept
      else
        let whole := leading.toNat + 1
        let left := kept.take whole ++ zeros (whole - kept.length)
        let right := kept.drop whole
        left ++ '.' :: (if right = [] then ['0'] else right)
    else
      let power := Text.decimal leading.natAbs
      let mantissa := if more = [] then [first] else first :: '.' :: more
      mantissa ++ ['e', if leading < 0 then '-' else '+'] ++ power

end Inlay.Decimal
