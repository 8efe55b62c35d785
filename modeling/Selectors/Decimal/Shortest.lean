/-!
# Shortest decimals

A double stands for all the reals that round to it.  Its shortest decimal is the one with the
fewest digits among them and, of those, the nearest to the double.

A double is given by its 64 bits.  All arithmetic is exact: on a grid of powers of ten only the
two neighbours of the double need to be tried, and the first grid with a hit has the fewest
digits.
-/

namespace Selectors

/-- The number `digits · 10 ^ exponent`. -/
structure Decimal where
  digits : Nat
  exponent : Int
  deriving DecidableEq, Repr

namespace Decimal

/-- The same number without zeros at the end of its digits; at most `fuel` are dropped. -/
def strip : Nat → Decimal → Decimal
  | 0, d => d
  | fuel + 1, d =>
    if d.digits % 10 = 0 ∧ d.digits ≠ 0 then strip fuel ⟨d.digits / 10, d.exponent + 1⟩ else d

end Decimal

/-- A positive number `mantissa · 2 ^ exponent` with the mantissa of a double. -/
structure Dyadic where
  mantissa : Nat
  exponent : Int
  deriving DecidableEq, Repr

namespace Dyadic

/-- The least mantissa of full precision, `2 ^ 52`. -/
def leastFull : Nat := 1 <<< 52

/-- The absolute value of the double with the given bits, if that is finite. -/
def ofBits (bits : UInt64) : Dyadic :=
  let fraction := bits.toNat % leastFull
  let biased : Nat := bits.toNat / leastFull % 2048
  if biased = 0 then ⟨fraction, -1074⟩ else ⟨leastFull + fraction, (biased : Int) - 1075⟩

/-- The numerator of the number over `denominator`, in quarters of a unit of the mantissa. -/
def scale (v : Dyadic) (quarters : Nat) : Nat :=
  if 2 ≤ v.exponent then quarters <<< (v.exponent - 2).toNat else quarters

/-- The common denominator of the number and of the ends of its interval. -/
def denominator (v : Dyadic) : Nat :=
  if 2 ≤ v.exponent then 1 else 1 <<< (2 - v.exponent).toNat

/-- The lower end of the interval of reals that round to the number, in quarters.  Below a power
of two the doubles lie twice as close. -/
def lower (v : Dyadic) : Nat :=
  if v.mantissa = leastFull ∧ -1074 < v.exponent then 4 * v.mantissa - 1
  else 4 * v.mantissa - 2

/-- The upper end of that interval, in quarters. -/
def upper (v : Dyadic) : Nat := 4 * v.mantissa + 2

/-- Whether `c · 10 ^ k` rounds to the number.  The ends of the interval do so iff the mantissa is
even. -/
def holds (v : Dyadic) (k : Int) (c : Nat) : Bool :=
  let up := Nat.pow 10 k.toNat
  let down := Nat.pow 10 (-k).toNat
  let x := c * v.denominator * up
  let lo := v.scale v.lower * down
  let hi := v.scale v.upper * down
  if v.mantissa % 2 = 0 then lo ≤ x && x ≤ hi else lo < x && x < hi

/-- The neighbour of the number on the grid of `10 ^ k` that rounds to it, the nearer one if both
do. -/
def onGrid? (v : Dyadic) (k : Int) : Option Decimal :=
  let up := v.denominator * Nat.pow 10 k.toNat
  let n := v.scale (4 * v.mantissa) * Nat.pow 10 (-k).toNat
  let c := n / up
  let below := v.holds k c && c != 0
  let above := v.holds k (c + 1)
  if below && above then
    let r := n % up
    some ⟨if 2 * r < up ∨ (2 * r = up ∧ c % 2 = 0) then c else c + 1, k⟩
  else if below then some ⟨c, k⟩
  else if above then some ⟨c + 1, k⟩
  else none

/-- The least `e` with the number below `10 ^ e`, from `-330` upwards. -/
def magnitude (v : Dyadic) : Int :=
  let n := v.scale (4 * v.mantissa)
  let below (i : Nat) : Bool :=
    let e : Int := i - 330
    n * Nat.pow 10 (-e).toNat < v.denominator * Nat.pow 10 e.toNat
  (((List.range 660).find? below).getD 660 : Nat) - 330

/-- The shortest decimal of a positive double. -/
def shortest (v : Dyadic) : Decimal :=
  let e := v.magnitude
  let found := (List.range 17).findSome? fun n => v.onGrid? (e - (n + 1 : Nat))
  (found.getD ⟨v.mantissa, v.exponent⟩).strip 20

end Dyadic

end Selectors
