namespace StepAndRepeat.Binary

inductive Magnitude where
  | nan
  | infinite
  /-- The value `m * 2 ^ q`. -/
  | finite (m : Nat) (q : Int)
  deriving DecidableEq, Repr

def isNegative (x : Float) : Bool := decide (Nat.pow 2 63 ≤ x.toBits.toNat)

/-- A field of zeros in the exponent makes a subnormal number, one of ones no finite number. -/
def magnitude (x : Float) : Magnitude :=
  let exponent : Nat := x.toBits.toNat / Nat.pow 2 52 % Nat.pow 2 11
  let fraction : Nat := x.toBits.toNat % Nat.pow 2 52
  if exponent = 2047 then
    if fraction = 0 then .infinite else .nan
  else if exponent = 0 then .finite fraction (-1074)
  else .finite (Nat.pow 2 52 + fraction) ((exponent : Int) - 1075)

def infinity : Float := 1 / 0

/-- The number nearest to the decimal fraction `m * 10 ^ e`, ties to even. An exponent far out
of range is settled without forming its power. -/
def ofDecimal (m : Nat) (e : Int) : Float :=
  if m = 0 then 0
  else if 310 < e then infinity
  else if e + Nat.log2 m + 400 < 0 then 0
  else Float.ofScientific m (decide (e < 0)) e.natAbs

/-- The number nearest to `m * 2 ^ q`: a negative power of two is a decimal fraction. -/
def ofDyadic (m : Nat) (q : Int) : Float :=
  if q < 0 then ofDecimal (m * Nat.pow 5 q.natAbs) q else ofDecimal (m * Nat.pow 2 q.natAbs) 0

/-- The whole number toward zero; there is none for an infinity or for no number. -/
def trunc? (x : Float) : Option Int :=
  match magnitude x with
  | .finite m q =>
    let n : Nat := if q < 0 then m / Nat.pow 2 q.natAbs else m * Nat.pow 2 q.natAbs
    some (if isNegative x then -(n : Int) else n)
  | _ => none

/-- The number nearest to a whole number, an infinity when it is out of range. -/
def ofInt (n : Int) : Float :=
  if n < 0 then -(ofDecimal n.natAbs 0) else ofDecimal n.natAbs 0

def ofInt? (n : Int) : Option Float :=
  if (ofInt n).isInf then none else some (ofInt n)

/-- What is left after taking a whole number of periods, toward zero, with the sign of the
dividend. It is exact. An infinite dividend leaves no number. -/
def remainder (x period : Float) : Float :=
  match magnitude x, magnitude period with
  | .finite m q, .finite n p =>
    if n = 0 then 0 / 0
    else
      let e := min q p
      let r := m * Nat.pow 2 (q - e).toNat % (n * Nat.pow 2 (p - e).toNat)
      let y := ofDyadic r e
      if isNegative x then -y else y
  | .finite _ _, .infinite => x
  | _, _ => 0 / 0

end StepAndRepeat.Binary
