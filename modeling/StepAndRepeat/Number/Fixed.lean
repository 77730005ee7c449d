import StepAndRepeat.Text.Basic
import StepAndRepeat.Number.Binary
import StepAndRepeat.Number.Rounding

namespace StepAndRepeat

namespace Text

def ofNat (n : Nat) : Text := Nat.toDigits 10 n

def ofInt (n : Int) : Text := if n < 0 then '-' :: ofNat n.natAbs else ofNat n.natAbs

end Text

/-- The digits of `n` with a point before the last `places` of them; there is always a digit
before the point. -/
def pointed (places n : Nat) : Text :=
  let ds := Text.ofNat n
  let ds := List.replicate (places + 1 - ds.length) '0' ++ ds
  let whole := ds.length - places
  if places = 0 then ds else ds.take whole ++ '.' :: ds.drop whole

namespace Binary

/-- `m * 2 ^ q` in units of the last of the decimal places. -/
def scaled (places m : Nat) (q : Int) : Nat :=
  if q < 0 then roundDiv (m * Nat.pow 10 places) (Nat.pow 2 q.natAbs)
  else m * Nat.pow 2 q.natAbs * Nat.pow 10 places

def signed (negative : Bool) (t : Text) : Text := if negative then '-' :: t else t

def nanText : Text := "nan".toList

def infText : Text := "inf".toList

def fixed (places : Nat) (x : Float) : Text :=
  match magnitude x with
  | .nan => nanText
  | .infinite => signed (isNegative x) infText
  | .finite m q => signed (isNegative x) (pointed places (scaled places m q))

/-- The number nearest to the value rounded to a count of decimal places. -/
def roundTo (places : Nat) (x : Float) : Float :=
  match magnitude x with
  | .finite m q =>
    let y := ofDecimal (scaled places m q) (-(places : Int))
    if isNegative x then -y else y
  | _ => x

end Binary

end StepAndRepeat
