/-!
# Shortest decimals

The shortest decimal that reads back as a given binary float. A float is `m * 2 ^ q` for natural `m`,
and the reals that round to it form an interval around it, with its ends if `m` is even. For one
digit, two digits and so on, up to seventeen, the two neighbours of the value on that decimal grid
are compared with the interval in exact arithmetic. The first grid with a hit gives the answer; of
two hits the nearer one counts, and the even one if both are as near.
-/

namespace ShaderEffect

/-- The decimal `digits * 10 ^ exponent`. -/
structure Decimal where
  digits : Nat
  exponent : Int
  deriving Repr, DecidableEq

/-- A positive rational with its interval: all numbers are to be divided by `den`. -/
structure Interval where
  low : Nat
  value : Nat
  high : Nat
  den : Nat
  closed : Bool
  deriving Repr, DecidableEq

namespace Interval

/-- The interval of `m * 2 ^ q`. The neighbour below is nearer where `m` is the least of its
binary order. -/
def ofBinary (m : Nat) (q : Int) (isLeast : Bool) : Interval :=
  let scale := Nat.pow 2 (q - 2).toNat
  { low := (4 * m - if isLeast then 1 else 2) * scale
    value := 4 * m * scale
    high := (4 * m + 2) * scale
    den := Nat.pow 2 (2 - q).toNat
    closed := m % 2 == 0 }

/-- The place of the leading digit of the value: its decimal logarithm, rounded down. It is found
after a shift by 350 places, which makes every float a number of many digits. -/
def leadingPlace (i : Interval) : Int :=
  ((Nat.toDigits 10 (i.value * Nat.pow 10 350 / i.den)).length : Int) - 351

def holds (i : Interval) (up down c : Nat) : Bool :=
  let point := c * up * i.den
  if i.closed then i.low * down ≤ point && point ≤ i.high * down
  else i.low * down < point && point < i.high * down

/-- The decimal with the given last place that is nearest to the value, if one lies in the
interval. -/
def onGrid (i : Interval) (place : Int) : Option Decimal :=
  let up := Nat.pow 10 place.toNat
  let down := Nat.pow 10 (-place).toNat
  let below := i.value * down / (up * i.den)
  let past := i.value * down - below * up * i.den
  let missing := (below + 1) * up * i.den - i.value * down
  let isNearer := past < missing || (past == missing && below % 2 == 0)
  match i.holds up down below, i.holds up down (below + 1) with
  | true, true => some { digits := if isNearer then below else below + 1, exponent := place }
  | true, false => some { digits := below, exponent := place }
  | false, true => some { digits := below + 1, exponent := place }
  | false, false => none

def search (i : Interval) : Nat → Int → Decimal
  | 0, place => { digits := i.value * Nat.pow 10 (-place).toNat / i.den, exponent := place }
  | fuel + 1, place =>
    match i.onGrid place with
    | some d => d
    | none => i.search fuel (place - 1)

/-- The shortest decimal of an interval. Seventeen digits are always enough. -/
def shortest (i : Interval) : Decimal :=
  i.search 17 i.leadingPlace

end Interval

namespace Decimal

def intervalOf (x : Float) : Interval :=
  let bits := x.toBits.toNat
  let fraction := bits % Nat.pow 2 52
  let order : Nat := bits / Nat.pow 2 52 % Nat.pow 2 11
  if order == 0 then .ofBinary fraction (-1074) false
  else .ofBinary (fraction + Nat.pow 2 52) ((order : Int) - 1075) (fraction == 0 && 1 < order)

/-- The shortest decimal that reads back as the float, without its sign. -/
def ofFloat (x : Float) : Decimal :=
  if x == 0 then { digits := 0, exponent := 0 } else (intervalOf x).shortest

def significant (d : Decimal) : List Char :=
  ((Nat.toDigits 10 d.digits).reverse.dropWhile (· == '0')).reverse

def leadingPlace (d : Decimal) : Int :=
  d.exponent + (Nat.toDigits 10 d.digits).length - 1

end Decimal

end ShaderEffect
