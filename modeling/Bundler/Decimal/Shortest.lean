/-!
# Shortest decimals of binary fractions

A double is `m * 2 ^ q`. Among the decimals that round to it, `shortest` takes one with the fewest
digits, and of several such the nearest. For each number of digits only two candidates matter: the
neighbours of the value on the grid of decimals with that many digits.
-/

namespace Bundler.Decimal

/-- A finite double without its sign: `mantissa * 2 ^ exponent`. -/
structure Double where
  negative : Bool
  mantissa : Nat
  exponent : Int
deriving DecidableEq, Repr

/-- The value of the 64 bits of a double that is finite. -/
def Double.ofBits (bits : UInt64) : Double :=
  let n := bits.toNat
  let fraction := n % Nat.pow 2 52
  let power := n / Nat.pow 2 52 % Nat.pow 2 11
  { negative := n / Nat.pow 2 63 == 1
    mantissa := if power = 0 then fraction else fraction + Nat.pow 2 52
    exponent := if power = 0 then -1074 else Int.ofNat power - 1075 }

/-- `digits * 10 ^ exponent`. -/
structure Scaled where
  digits : Nat
  exponent : Int
deriving DecidableEq, Repr

/-- A quotient with a positive denominator. -/
structure Ratio where
  num : Nat
  den : Nat

/-- `n * b ^ e`. -/
def Ratio.scale (n b : Nat) (e : Int) : Ratio :=
  if 0 ≤ e then ⟨n * Nat.pow b e.toNat, 1⟩ else ⟨n, Nat.pow b (-e).toNat⟩

def Ratio.le (a b : Ratio) : Bool := a.num * b.den ≤ b.num * a.den

/-- The whole part of `a / b`. -/
def Ratio.quotient (a b : Ratio) : Nat := a.num * b.den / (a.den * b.num)

/-- The distance of two ratios. -/
def Ratio.distance (a b : Ratio) : Ratio :=
  let x := a.num * b.den
  let y := b.num * a.den
  ⟨if x ≤ y then y - x else x - y, a.den * b.den⟩

/-- The reals that round to a double, four times as large as they are; the ends belong to it when
the mantissa is even. -/
structure Cell where
  low : Ratio
  high : Ratio
  closed : Bool

def Double.cell (d : Double) : Cell :=
  let below := if d.mantissa = Nat.pow 2 52 ∧ d.exponent ≠ -1074 then 1 else 2
  { low := Ratio.scale (4 * d.mantissa - below) 2 d.exponent
    high := Ratio.scale (4 * d.mantissa + 2) 2 d.exponent
    closed := d.mantissa % 2 == 0 }

def Cell.contains (c : Cell) (r : Ratio) : Bool :=
  if c.closed then c.low.le r && r.le c.high else !r.le c.low && !c.high.le r

/-- The power of ten of the first digit of a positive ratio. -/
def magnitude (r : Ratio) : Int :=
  if r.den ≤ r.num then (Nat.toDigits 10 (r.num / r.den)).length - 1
  else
    match (List.range 400).find? fun j => r.den ≤ r.num * Nat.pow 10 j with
    | some j => -j
    | none => 0

/-- The decimal of `n` digits that rounds to the double, if there is one. -/
def candidate (d : Double) (n : Nat) : Option Scaled :=
  let value := Ratio.scale (4 * d.mantissa) 2 d.exponent
  let e := magnitude (Ratio.scale d.mantissa 2 d.exponent) + 1 - n
  let step := Ratio.scale 4 10 e
  let low := value.quotient step
  let at' (c : Nat) : Ratio := Ratio.scale (4 * c) 10 e
  match d.cell.contains (at' low), d.cell.contains (at' (low + 1)) with
  | false, false => none
  | true, false => some ⟨low, e⟩
  | false, true => some ⟨low + 1, e⟩
  | true, true =>
    let below := value.distance (at' low)
    let above := value.distance (at' (low + 1))
    if below.le above then
      if above.le below && low % 2 = 1 then some ⟨low + 1, e⟩ else some ⟨low, e⟩
    else some ⟨low + 1, e⟩

/-- Moves zeros at the end of the digits into the exponent, at most `n` of them. -/
def Scaled.trim : Nat → Scaled → Scaled
  | 0, s => s
  | n + 1, s =>
    if s.digits % 10 = 0 ∧ s.digits ≠ 0 then Scaled.trim n ⟨s.digits / 10, s.exponent + 1⟩ else s

/-- The fewest digits that round to the double. -/
def shortest (d : Double) : Scaled :=
  if d.mantissa = 0 then ⟨0, 0⟩
  else
    match (List.range 17).findSome? fun n => candidate d (n + 1) with
    | some s => s.trim 20
    | none => ⟨0, 0⟩

end Bundler.Decimal
