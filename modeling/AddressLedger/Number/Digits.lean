/-!
# Digits

Decimal digits of a number and the number that digits denote.
-/
namespace AddressLedger.Number

/-- Digits of a number in base ten, most significant first. -/
def digitsOf (n : Nat) : List Char := Nat.toDigits 10 n

def ofDigits (cs : List Char) : Nat := cs.foldl (fun n c => 10 * n + (c.toNat - 48)) 0

/-- At least `width` digits of a number, with leading zeros. -/
def padded (width n : Nat) : List Char :=
  let ds := digitsOf n
  List.replicate (width - ds.length) '0' ++ ds

end AddressLedger.Number
