/-!
# Shortest decimals

The decimal with the fewest digits that reads back as a given binary value. A positive value
`m * 2 ^ q` owns the interval of reals that round to it; its ends belong to it when `m` is even.
Grids of powers of ten are tried from coarse to fine, and on each the two neighbours of the value
are tested in exact arithmetic. The first grid with a hit wins; of two hits the nearer is taken,
and of two equally near ones the greater.

Main definitions: `Decimal.shortest`, and `Decimal.text`, which writes a decimal positionally.
-/

namespace MotionControl

/-- The number `digits / 10 ^ places`; negative `places` stand for trailing zeros. -/
structure Decimal where
  /-- the digits, read as a whole number -/
  digits : Nat
  /-- how many of the digits follow the point -/
  places : Int
  deriving DecidableEq, Repr

namespace Decimal

/-- The reals that round to one binary value, as fractions over `den`. -/
structure Interval where
  /-- numerator of the value -/
  value : Nat
  /-- numerator of the lower end -/
  lower : Nat
  /-- numerator of the upper end -/
  upper : Nat
  /-- the common denominator -/
  den : Nat
  /-- whether the ends belong to the interval -/
  closed : Bool

namespace Interval

/-- The interval of `m * 2 ^ q`. Below a power of two (`narrow`) the next smaller float is only
half as far away. -/
def ofBinary (m : Nat) (q : Int) (narrow : Bool) : Interval :=
  let num := 1 <<< q.toNat
  { value := 4 * m * num
    lower := (if narrow then 4 * m - 1 else 4 * m - 2) * num
    upper := (4 * m + 2) * num
    den := 4 <<< (-q).toNat
    closed := m % 2 == 0 }

/-- The ends after scaling by a power of ten. -/
def scale (i : Interval) (places : Int) : Interval :=
  let up := Nat.pow 10 places.toNat
  let down := Nat.pow 10 (-places).toNat
  { i with value := i.value * up, lower := i.lower * up, upper := i.upper * up,
           den := i.den * down }

/-- Whether a whole number lies in the interval. -/
def contains (i : Interval) (n : Nat) : Bool :=
  let x := n * i.den
  if i.closed then i.lower ≤ x && x ≤ i.upper else i.lower < x && x < i.upper

/-- The neighbour of the value among the whole numbers that lies in the interval. -/
def hit? (i : Interval) : Option Nat :=
  let below := i.value / i.den
  let rest := i.value % i.den
  let above := below + 1
  match i.contains below, i.contains above with
  | true, true => some (if 2 * rest < i.den then below else above)
  | true, false => some below
  | false, true => some above
  | false, false => none

theorem contains_of_hit? {i : Interval} {n : Nat} (h : i.hit? = some n) : i.contains n = true := by
  unfold hit? at h
  dsimp only at h
  split at h
  · split at h <;> simp_all
  · simp_all
  · simp_all
  · simp at h

end Interval

/-- The first grid of powers of ten with a hit, starting at `places`. -/
def search (i : Interval) : Nat → Int → Decimal
  | 0, places => ⟨(i.scale places).value / (i.scale places).den, places⟩
  | fuel + 1, places =>
    match (i.scale places).hit? with
    | some n => ⟨n, places⟩
    | none => search i fuel (places + 1)

/-- The shortest decimal of a positive finite single precision value, from its bits. The coarsest
grid lies above every such value and the finest is finer than nine digits of the smallest. -/
def shortest (bits : UInt32) : Decimal :=
  let exponent := ((bits >>> 23) &&& 0xff).toNat
  let fraction := (bits &&& 0x7fffff).toNat
  let m := if exponent = 0 then fraction else fraction + 0x800000
  let q : Int := (if exponent = 0 then 1 else exponent : Nat) - 150
  search (.ofBinary m q (fraction = 0 && exponent > 1)) 100 (-40)

/-- Positional text: no exponent, a zero before a leading point, no trailing point. -/
def text (d : Decimal) : String :=
  let ds := (Nat.toDigits 10 d.digits)
  if d.places ≤ 0 then
    String.ofList (ds ++ List.replicate (-d.places).toNat '0')
  else
    let places := d.places.toNat
    let padded := List.replicate (places + 1 - ds.length) '0' ++ ds
    let cut := padded.length - places
    String.ofList (padded.take cut ++ '.' :: padded.drop cut)

/-- The text of a finite single precision value that is not negative. -/
def textOfBits (bits : UInt32) : String :=
  if bits = 0 then "0" else (shortest bits).text

end Decimal

end MotionControl
