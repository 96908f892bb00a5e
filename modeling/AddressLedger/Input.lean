import AddressLedger.Text.Blank
import AddressLedger.Text.Lower
import AddressLedger.Text.Split
import AddressLedger.Number.Binary64

/-!
# Inputs

What callers hand in: addresses, address lists, windows, thresholds and chain names. An address is
`0x` and forty hexadecimal digits, in either case and with blanks around it; its normal form is
trimmed and in lower case.
-/
namespace AddressLedger

inductive InputError
  | missing (name : String)
  | address (text : String)
  | parameter (reason : String)
  deriving DecidableEq, Repr

namespace InputError

def message : InputError → String
  | missing name => "Missing required parameter: " ++ name
  | address text => "Invalid address format: " ++ text
  | parameter reason => "Invalid parameter: " ++ reason

end InputError

/-- The one spelling under which an address is stored and looked up. -/
def normalizeAddress (s : String) : String := Text.lower (Text.trim s)

def isHexDigit (c : Char) : Bool :=
  c.isDigit || ('a' ≤ c && c ≤ 'f') || ('A' ≤ c && c ≤ 'F')

/-- Whether a text is `0x` or `0X` and forty hexadecimal digits. -/
def isAddressForm : List Char → Bool
  | '0' :: x :: digits => (x == 'x' || x == 'X') && digits.length == 40 && digits.all isHexDigit
  | _ => false

def checkAddress (s : String) : Except InputError Unit :=
  let t := Text.trim s
  if t = "" then .error (.missing "address")
  else if isAddressForm t.toList then .ok () else .error (.address t)

/-- The pieces of a comma-separated list that are not blank, in normal form. -/
def addressPieces (raw : String) : List String :=
  ((Text.splitAt ',' raw.toList).map fun piece => Text.trim (String.ofList piece)).filterMap
    fun piece => if piece = "" then none else some (Text.lower piece)

/-- The addresses of a comma-separated list in normal form; the first bad one is reported. -/
def parseAddressList (raw : String) : Except InputError (List String) := do
  let addresses := addressPieces raw
  if addresses.isEmpty then throw (.missing "addresses")
  addresses.forM checkAddress
  return addresses

def maxLimit : Nat := 500

def maxSkip : Nat := 1000000

def checkLimit (limit : Nat) : Except InputError Nat :=
  if limit = 0 ∨ maxLimit < limit then
    .error (.parameter s!"limit must be between 1 and {maxLimit}")
  else .ok limit

def checkSkip (skip : Nat) : Except InputError Nat :=
  if maxSkip < skip then .error (.parameter s!"skip must not exceed {maxSkip}") else .ok skip

def checkMinValue (value : Float) : Except InputError Float :=
  if !Number.isFinite value || value < 0 then
    .error (.parameter "min_value_usd must be a non-negative number")
  else .ok value

def isChainChar (c : Char) : Bool := ('a' ≤ c && c ≤ 'z') || c.isDigit || c == '_'

def checkChain (chain : String) : Except InputError Unit :=
  if chain ≠ "" ∧ chain.toList.all isChainChar then .ok ()
  else .error (.parameter ("Invalid chain id: " ++ chain))

/-- The ends of a long ASCII text with an ellipsis between them; any other text as it is. -/
def shortAddress (address : String) : String :=
  let cs := address.toList
  if 12 < cs.length ∧ cs.all fun c => c.toNat < 128 then
    String.ofList (cs.take 6 ++ '…' :: cs.drop (cs.length - 4))
  else address

end AddressLedger
