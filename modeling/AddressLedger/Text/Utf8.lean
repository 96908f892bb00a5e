/-!
# UTF-8

Texts as octets, and octets as text. Octets that belong to no character become the replacement
character, one for each longest run that begins like a character. The reader takes one octet at a
time; between two octets of a character it knows the range of the next one.
-/
namespace AddressLedger.Text

def utf8 (cs : List Char) : List UInt8 := cs.flatMap String.utf8EncodeChar

def replacement : Char := '\ufffd'

/-- A character whose first octets have been read. -/
structure Partial where
  /-- The number of octets that are missing. -/
  owed : Nat
  /-- The range of the next octet. -/
  low : Nat
  high : Nat
  bits : Nat

/-- What the first octet of a character tells: the character, or what it may continue with. -/
def beginChar (n : Nat) : Char ⊕ Partial :=
  if n < 0x80 then .inl (Char.ofNat n)
  else if n < 0xC2 then .inl replacement
  else if n < 0xE0 then .inr ⟨1, 0x80, 0xBF, n - 0xC0⟩
  else if n = 0xE0 then .inr ⟨2, 0xA0, 0xBF, 0⟩
  else if n = 0xED then .inr ⟨2, 0x80, 0x9F, 0xD⟩
  else if n < 0xF0 then .inr ⟨2, 0x80, 0xBF, n - 0xE0⟩
  else if n = 0xF0 then .inr ⟨3, 0x90, 0xBF, 0⟩
  else if n < 0xF4 then .inr ⟨3, 0x80, 0xBF, n - 0xF0⟩
  else if n = 0xF4 then .inr ⟨3, 0x80, 0x8F, 4⟩
  else .inl replacement

def Partial.admits (p : Partial) (n : Nat) : Bool := p.low ≤ n && n ≤ p.high

/-- A character with its next octet. -/
def Partial.extend (p : Partial) (n : Nat) : Char ⊕ Partial :=
  let bits := p.bits * 64 + (n - 0x80)
  if p.owed ≤ 1 then .inl (Char.ofNat bits) else .inr ⟨p.owed - 1, 0x80, 0xBF, bits⟩

/-- Reads octets, after those of a character that is not complete or between characters. -/
def decodeFrom : Option Partial → List UInt8 → List Char
  | none, [] => []
  | some _, [] => [replacement]
  | none, b :: bs =>
    match beginChar b.toNat with
    | .inl c => c :: decodeFrom none bs
    | .inr p => decodeFrom (some p) bs
  | some p, b :: bs =>
    if p.admits b.toNat then
      match p.extend b.toNat with
      | .inl c => c :: decodeFrom none bs
      | .inr p => decodeFrom (some p) bs
    else match beginChar b.toNat with
      | .inl c => replacement :: c :: decodeFrom none bs
      | .inr p => replacement :: decodeFrom (some p) bs

def ofUtf8 (bs : List UInt8) : List Char := decodeFrom none bs

end AddressLedger.Text
