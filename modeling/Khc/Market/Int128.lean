import Khc.Market.Price

/-! Prices times ratios in numbers of 128 bits: the differences of `boost::rational< int128_t >`, and every number that `operator *`
    computes. -/

namespace Khc.Market

open Lib
open Chain (Price maxShareSupply)

/-- `int128_t`: a number below the limit is kept. Of a greater one something is lost, the high bits or the sign. -/
structure Int128 where
  limit : Int
  store : Int → Int
  limit_ge : 2 ^ 127 ≤ limit
  store_eq : ∀ x, |x| < limit → store x = x

/-! ### Differences -/

/-- `operator -=` of `boost::rational`: the numerator and the denominator -/
def Int128.minus (w : Int128) (x r : ℚ) : Int × Int :=
  let g := Nat.gcd x.den r.den
  let den : Int := x.den / g
  let num := w.store (w.store (x.num * (r.den / g)) - w.store (r.num * den))
  let g := Int.gcd num g
  (num / g, w.store (den * (r.den / g)))

/-- The numbers that a difference is computed through -/
def minusTerms (x r : ℚ) : List Int :=
  let g := Nat.gcd x.den r.den
  let den : Int := x.den / g
  let num := x.num * (r.den / g) - r.num * den
  [x.num * (r.den / g), r.num * den, num, den * (r.den / Int.gcd num g)]

/-- `diff1 < diff2`. Quotients with positive denominators are compared without products in the source. -/
@[reducible]
def Int128.distance (w : Int128) : RationalDistance where
  nearer ncp cp ocp := |(w.minus ncp ocp).1| * (w.minus cp ocp).2 < |(w.minus cp ocp).1| * (w.minus ncp ocp).2

/-- `operator *` of a price and a ratio, in these numbers -/
def Int128.scale (w : Int128) (p : Price) (r : ℚ) : Eval Price := @Market.scale w.distance p r

/-! ### What is computed -/

/-- `num` and `den` of the ratio with a part 1 -/
def wholeNum (ocp : ℚ) : Int := if ocp.num > ocp.den then Min.min (ocp.num / ocp.den) maxShareSupply else 1

def wholeDen (ocp : ℚ) : Int := if ocp.num > ocp.den then 1 else Min.min (ocp.den / ocp.num) maxShareSupply

def whole (ocp : ℚ) : ℚ := wholeNum ocp / wholeDen ocp

/-- "it's on the edge, we know it's accurate enough" -/
def OnEdge (ocp : ℚ) : Prop := wholeNum ocp = maxShareSupply ∨ wholeDen ocp = maxShareSupply

instance (ocp : ℚ) : Decidable (OnEdge ocp) := inferInstanceAs (Decidable (_ ∨ _))

def closestTerms (ocp cp : ℚ) : List Int := if OnEdge ocp then [] else minusTerms (whole ocp) ocp ++ minusTerms cp ocp

end Khc.Market
