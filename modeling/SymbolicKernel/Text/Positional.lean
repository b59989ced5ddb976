/-!
Decimal digits with a point put among them.
-/
namespace SymbolicKernel.Text

/-- `digits * 10 ^ exponent` without an exponent: zeros are appended, or the point is placed among the digits
with at least one digit before it. -/
def positional (digits : List Char) (exponent : Int) : List Char :=
  if 0 ≤ exponent then digits ++ List.replicate exponent.toNat '0'
  else
    let places := (-exponent).toNat
    let padded := List.replicate (places + 1 - digits.length) '0' ++ digits
    padded.take (padded.length - places) ++ '.' :: padded.drop (padded.length - places)

def signed (negative : Bool) (digits : List Char) : List Char :=
  if negative then '-' :: digits else digits

end SymbolicKernel.Text
