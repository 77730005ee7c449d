import StepAndRepeat.Number.Fixed

namespace StepAndRepeat.Binary

/-- Digits `d` and a place `k`: the decimal number `0.d * 10 ^ k`. -/
structure Digits where
  digits : Text
  point : Int
  deriving DecidableEq, Repr

/-- The place of the leading digit of `num / den`: the number is below `10 ^ k` and not below
`10 ^ (k - 1)`. -/
def leadingPlace (num den : Nat) : Int :=
  if den ≤ num then (Text.ofNat (num / den)).length
  else 1 - ((Text.ofNat ((den - 1) / num)).length : Int)

/-- The decimal number `c * 10 ^ (k - n)` compared with the ends of an interval whose ends are
`lo / unit` and `hi / unit`; the ends themselves count when `closed`. -/
def inside (lo hi unit : Nat) (closed : Bool) (c : Nat) (e : Int) : Bool :=
  let value := if e < 0 then c * unit else c * unit * Nat.pow 10 e.natAbs
  let lo := if e < 0 then lo * Nat.pow 10 e.natAbs else lo
  let hi := if e < 0 then hi * Nat.pow 10 e.natAbs else hi
  if closed then decide (lo ≤ value ∧ value ≤ hi) else decide (lo < value ∧ value < hi)

/-- The shortest of the decimal numbers with at most `fuel` digits more than `n` that lie in the
interval of numbers read as `m * 2 ^ q`. On each grid only the two neighbours of the value can
be the nearest. -/
def search (m : Nat) (q : Int) (num den : Nat) (k : Int) : Nat → Nat → Nat × Int
  | 0, n => (roundDiv (num * Nat.pow 10 n) den, k - n)
  | fuel + 1, n =>
    let e := k - n
    let a := if e < 0 then num * Nat.pow 10 e.natAbs else num
    let b := if e < 0 then den else den * Nat.pow 10 e.natAbs
    let ulp := num / m
    let narrow := decide (m = Nat.pow 2 52 ∧ q ≠ -1074)
    let lo := 4 * num - (if narrow then ulp else 2 * ulp)
    let hi := 4 * num + 2 * ulp
    let near := roundDiv a b
    let down := a / b
    let other := if near = down then down + 1 else down
    if near ≠ 0 ∧ inside lo hi (4 * den) (m % 2 == 0) near e then (near, e)
    else if other ≠ 0 ∧ inside lo hi (4 * den) (m % 2 == 0) other e then (other, e)
    else search m q num den k fuel (n + 1)

def dropZeros (t : Text) : Text := (t.reverse.dropWhile (· = '0')).reverse

/-- The fewest digits that read back as `m * 2 ^ q`, for `m` not zero. Seventeen always do. -/
def shortest (m : Nat) (q : Int) : Digits :=
  let num := if q < 0 then m else m * Nat.pow 2 q.natAbs
  let den := if q < 0 then Nat.pow 2 q.natAbs else 1
  let (c, e) := search m q num den (leadingPlace num den) 17 1
  let ds := Text.ofNat c
  ⟨dropZeros ds, ds.length + e⟩

structure Layout where
  /-- The places of the point, ends included, that are written without an exponent. -/
  positional : Int × Int
  /-- A whole number ends in a point and a zero. -/
  keepPoint : Bool
  exponentDigits : Nat
  nan : Text
  infinity : Text

namespace Layout

def exponentText (l : Layout) (e : Int) : Text :=
  let ds := Text.ofNat e.natAbs
  'e' :: (if e < 0 then '-' else '+') ::
    List.replicate (l.exponentDigits - ds.length) '0' ++ ds

def lay (l : Layout) (d : Digits) : Text :=
  let n : Int := d.digits.length
  if l.positional.1 ≤ d.point ∧ d.point ≤ l.positional.2 then
    if d.point ≤ 0 then '0' :: '.' :: List.replicate d.point.natAbs '0' ++ d.digits
    else if d.point < n then d.digits.take d.point.toNat ++ '.' :: d.digits.drop d.point.toNat
    else d.digits ++ List.replicate (d.point - n).toNat '0' ++
      (if l.keepPoint then ['.', '0'] else [])
  else
    d.digits.take 1 ++ (if n ≤ 1 then [] else '.' :: d.digits.drop 1) ++
      l.exponentText (d.point - 1)

def render (l : Layout) (x : Float) : Text :=
  match magnitude x with
  | .nan => l.nan
  | .infinite => signed (isNegative x) l.infinity
  | .finite m q =>
    signed (isNegative x) (l.lay (if m = 0 then ⟨['0'], 1⟩ else shortest m q))

/-- Without an exponent from a ten-thousandth to below ten to the sixteenth. -/
def plain : Layout := ⟨(-3, 16), true, 2, nanText, infText⟩

def document : Layout :=
  { plain with nan := "NaN".toList, infinity := "Infinity".toList }

end Layout

end StepAndRepeat.Binary
