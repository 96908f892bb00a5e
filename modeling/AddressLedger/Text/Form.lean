import AddressLedger.Text.Hex
import AddressLedger.Text.Split
import AddressLedger.Text.Utf8

/-!
# Form encoding

Names and values in the query of a URL. A space is written as a plus sign and an octet outside the
plain characters as a percent sign with two digits. Reading accepts any octet in this way and keeps
a percent sign that no two digits follow.
-/
namespace AddressLedger.Text

/-- The octet of two hexadecimal digits. -/
def octetOf? (high low : UInt8) : Option UInt8 := do
  let h ← hexValue? (Char.ofNat high.toNat)
  let l ← hexValue? (Char.ofNat low.toNat)
  return UInt8.ofNat (h * 16 + l)

/-- A sequence of octets with plus signs and percent codes resolved. -/
def resolveCodes : List UInt8 → List UInt8
  | [] => []
  | 0x25 :: high :: low :: rest =>
    match octetOf? high low with
    | some b => b :: resolveCodes rest
    | none => 0x25 :: resolveCodes (high :: low :: rest)
  | 0x2B :: rest => 0x20 :: resolveCodes rest
  | b :: rest => b :: resolveCodes rest

/-- A name or a value as it is meant. -/
def decodeFormPart (cs : List Char) : String := String.ofList (ofUtf8 (resolveCodes (utf8 cs)))

/-- The name and the value of a piece; a piece without an equals sign has an empty value. -/
def decodeFormPair (cs : List Char) : String × String :=
  let (name, value) := cutAt '=' cs
  (decodeFormPart name, decodeFormPart (value.getD []))

/-- The pairs of a query in their order; empty pieces are passed over. -/
def decodeForm (cs : List Char) : List (String × String) :=
  ((splitAt '&' cs).filter (!·.isEmpty)).map decodeFormPair

/-- Whether an octet stands for itself. -/
def isPlainOctet (b : UInt8) : Bool :=
  let c := Char.ofNat b.toNat
  c.isAlphanum || c == '*' || c == '-' || c == '.' || c == '_'

def encodeOctet (b : UInt8) : List Char :=
  if isPlainOctet b then [Char.ofNat b.toNat]
  else if b = 0x20 then ['+']
  else ['%', upperHexDigit (b.toNat / 16), upperHexDigit (b.toNat % 16)]

def encodeFormPart (s : String) : List Char := (utf8 s.toList).flatMap encodeOctet

def encodeFormPair (pair : String × String) : List Char :=
  encodeFormPart pair.1 ++ '=' :: encodeFormPart pair.2

def encodeForm (pairs : List (String × String)) : List Char :=
  ['&'].intercalate (pairs.map encodeFormPair)

end AddressLedger.Text
