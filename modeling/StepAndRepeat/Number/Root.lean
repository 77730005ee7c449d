import StepAndRepeat.Number.Binary

namespace StepAndRepeat

/-- Newton's iteration for the whole part of a square root, from a guess that is not too small. -/
def sqrtFrom (n : Nat) : Nat → Nat → Nat
  | 0, g => g
  | steps + 1, g =>
    let next := (g + n / g) / 2
    if next < g then sqrtFrom n steps next else g

def floorSqrt (n : Nat) : Nat := sqrtFrom n (n.log2 + 2) (Nat.pow 2 (n.log2 / 2 + 1))

namespace Binary

/-- The number nearest to the root of `n * 4 ^ e`. The root is taken to more digits than a number
holds, and a last digit says whether it is exact. -/
def ofRoot (n : Nat) (e : Int) : Float :=
  let n := n * Nat.pow 4 60
  let r := floorSqrt n
  ofDyadic (if r * r = n then 2 * r else 2 * r + 1) (e - 61)

def distance (x y : Float) : Float :=
  match magnitude x, magnitude y with
  | .infinite, _ | _, .infinite => infinity
  | .finite m q, .finite n p =>
    let e := min q p
    let a := m * Nat.pow 2 (q - e).toNat
    let b := n * Nat.pow 2 (p - e).toNat
    ofRoot (a * a + b * b) e
  | _, _ => 0 / 0

end Binary

end StepAndRepeat
