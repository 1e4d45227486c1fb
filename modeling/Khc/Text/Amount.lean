import Khc.Chain.Asset
import Khc.Lib.Numeral

/-! Amounts as texts (`khc/util.cpp`, `asset_object.cpp`). A string is the list of its characters. -/

namespace Khc.Text

open Lib
open Chain (InInt64 maxShareSupply AssetId Asset)

/-- What the functions throw -/
inductive Error
  /-- `FC_THROW` at a character that is no digit, or at a second sign or point -/
  | unexpectedCharacter
  /-- `precision < 19` -/
  | precisionTooLarge
  /-- `std::invalid_argument` of `std::stoll` -/
  | invalidArgument
  /-- `std::out_of_range` of `std::stoll` -/
  | outOfRange
  /-- `rhs.size() <= max_rhs_size` -/
  | tooManyDigits
  /-- `satoshis <= GRAPHENE_MAX_SHARE_SUPPLY` -/
  | amountTooLarge
  /-- A result of `safe<int64_t>` that leaves the range -/
  | overflow
  deriving DecidableEq, Repr

abbrev Eval := Except Error

/-- A result of `safe<int64_t>` arithmetic -/
def safe (x : Int) : Eval Int := do
  ensure (InInt64 x) .overflow
  return x

/-- `fc::to_string` of an `int64_t`, and `std::to_string` -/
def toString (x : Int) : List Char := if x < 0 then '-' :: Nat.toDigits 10 x.natAbs else Nat.toDigits 10 x.natAbs

/-- `std::isspace` -/
def isSpace (c : Char) : Bool := c = ' ' ∨ (9 ≤ c.toNat ∧ c.toNat ≤ 13)

/-- The sign that `std::stoll` takes, and what follows it -/
def takeSign : List Char → Bool × List Char
  | '-' :: s => (true, s)
  | '+' :: s => (false, s)
  | s => (false, s)

/-- `std::stoll` reads the digits at the front, after blanks and a sign, and leaves the rest. -/
def stoll (s : List Char) : Eval Int := do
  let (negative, t) := takeSign (s.dropWhile isSpace)
  let digits := t.takeWhile (·.isDigit)
  ensure (digits ≠ []) .invalidArgument
  let x : Int := if negative then -(decimal digits : Int) else decimal digits
  ensure (InInt64 x) .outOfRange
  return x

/-- `asset::scaled_precision`, and `scaled_precision_lut` after the check of its index -/
def scaledPrecision (precision : Nat) : Eval Int := do
  ensure (precision < 19) .precisionTooLarge
  return 10 ^ precision

/-! ### Printing -/

/-- An amount in units of so many satoshis -/
def printAmount (amount scaledPrecision : Int) : List Char :=
  let result := toString (amount.tdiv scaledPrecision)
  let decimals := amount.tmod scaledPrecision
  if decimals ≠ 0 then result ++ '.' :: (toString (scaledPrecision + decimals)).drop 1 else result

/-- `khc::khc_amount_to_string` -/
def khcAmountToString (amount : Int) (precision : Nat) : Eval (List Char) := do
  return printAmount amount (← scaledPrecision precision)

/-- `asset_object::amount_to_string` multiplies by ten as often as the precision says. -/
def amountToString (precision : Nat) (amount : Int) : Eval (List Char) := do
  let scaledPrecision ← (List.range precision).foldlM (fun scaled _ => safe (scaled * 10)) 1
  return printAmount amount scaledPrecision

/-! ### Reading -/

/-- One character of the scan, with the sign and the point that have been found -/
def scanChar (found : Bool × Bool) (c : Char) : Eval (Bool × Bool) :=
  if c.isDigit then .ok found
  else if c = '-' ∧ ¬found.1 then .ok (true, found.2)
  else if c = '.' ∧ ¬found.2 then .ok (found.1, true)
  else .error .unexpectedCharacter

def scan (s : List Char) : Eval (Bool × Bool) := s.foldlM scanChar (false, false)

/-- `s.substr( pos, count )` -/
def substr (s : List Char) (pos count : Nat) : List Char := (s.drop pos).take count

/-- `s.find( c )`; `npos` is the length of the text here, which is as good as any number behind it. -/
def find (s : List Char) (c : Char) : Nat := s.idxOf c

/-- The integer part, in satoshis -/
def readLhs (lhs : List Char) (scaledPrecision : Int) : Eval Int :=
  if lhs ≠ [] then do safe ((← stoll lhs) * scaledPrecision) else .ok 0

/-- The fractional part, in satoshis, with zeros for the digits that it leaves out -/
def readRhs (rhs : List Char) (scaledPrecision : Int) : Eval Int := do
  let maxRhsSize := ((toString scaledPrecision).drop 1).length
  ensure (rhs.length ≤ maxRhsSize) .tooManyDigits
  let rhs := rhs ++ List.replicate (maxRhsSize - rhs.length) '0'
  if rhs ≠ [] then stoll rhs else return 0

/-- An amount of an asset with so many satoshis to the unit -/
def readAmount (s : List Char) (precision : Nat) : Eval Int := do
  let (negativeFound, decimalFound) ← scan s
  let scaledPrecision ← scaledPrecision precision
  let decimalPos := find s '.'
  let lhs := substr s negativeFound.toNat decimalPos
  let satoshis ← readLhs lhs scaledPrecision
  let satoshis ← (if decimalFound then do safe (satoshis + (← readRhs (s.drop (decimalPos + 1)) scaledPrecision)) else .ok satoshis)
  ensure (satoshis ≤ maxShareSupply) .amountTooLarge
  if negativeFound then safe (satoshis * -1) else return satoshis

/-- `khc::khc_amount_from_string` -/
def khcAmountFromString (amountString : List Char) (precision : Nat) : Eval Int := readAmount amountString precision

/-- `asset_object::amount_from_string` -/
def amountFromString (id : AssetId) (precision : Nat) (amountString : List Char) : Eval Asset := do
  return ⟨← readAmount amountString precision, id⟩

end Khc.Text
