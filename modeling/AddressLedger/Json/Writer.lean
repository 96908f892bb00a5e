import AddressLedger.Json.Raw

/-!
# Writing JSON

A value as JSON text without blanks. Control characters, quotes and backslashes are escaped. A
double is written with the fewest digits that read back as it, and never like a whole number.
-/
namespace AddressLedger.Json

open Number Text

def ofOption {α : Type} (toJson : α → Json) : Option α → Json
  | some a => toJson a
  | none => .null

/-- A double, or `null` if JSON has no number for it. -/
def ofFloat (x : Float) : Json := if isFinite x then .float x else .null

def optionalMember (name : String) : Option Json → List (String × Json)
  | some value => [(name, value)]
  | none => []

def escapeChar (c : Char) : List Char :=
  if c = '"' then ['\\', '"']
  else if c = '\\' then ['\\', '\\']
  else if c = '\n' then ['\\', 'n']
  else if c = '\r' then ['\\', 'r']
  else if c = '\t' then ['\\', 't']
  else if c = '\x08' then ['\\', 'b']
  else if c = '\x0c' then ['\\', 'f']
  else if c.toNat < 0x20 then
    ['\\', 'u', '0', '0', hexDigit (c.toNat / 16), hexDigit (c.toNat % 16)]
  else [c]

def renderText (s : String) : List Char :=
  '"' :: (s.toList.flatMap escapeChar ++ ['"'])

def renderInt (n : Int) : List Char :=
  if n < 0 then '-' :: digitsOf n.natAbs else digitsOf n.natAbs

/-- Digits and a power of ten, with at least one place after the point where it is written out. -/
def renderDecimal (d : Decimal) : List Char :=
  let sign := if d.negative then ['-'] else []
  let places := (-d.exponent).toNat
  if 0 ≤ d.exponent ∧ d.exponent < 16 then
    sign ++ digitsOf (d.digits * Nat.pow 10 d.exponent.toNat) ++ ['.', '0']
  else if d.exponent < 0 ∧ places < 24 then
    let unit := Nat.pow 10 places
    sign ++ digitsOf (d.digits / unit) ++ '.' :: padded places (d.digits % unit)
  else sign ++ digitsOf d.digits ++ 'e' :: renderInt d.exponent

/-- Whether a text is one number with the given double as its value. -/
def readsBackAs (x : Float) (cs : List Char) : Bool :=
  match scanNumber cs with
  | some (n, []) => !n.isWhole && n.decimal.toFloat.toBits == x.toBits
  | _ => false

/-- The exact value of a dyadic number as digits and a power of ten. -/
def renderExact (d : BinaryNumber) : List Char :=
  let e := d.toDecimal
  (if e.negative then ['-'] else []) ++ digitsOf e.digits ++ 'e' :: renderInt e.exponent

/-- A finite double; other doubles are not numbers of JSON. -/
def renderFloat (x : Float) : List Char :=
  match binary? x with
  | none => ['n', 'u', 'l', 'l']
  | some d => ((d.candidates.map renderDecimal).find? (readsBackAs x)).getD (renderExact d)

mutual

def render : Json → List Char
  | .null => ['n', 'u', 'l', 'l']
  | .bool true => ['t', 'r', 'u', 'e']
  | .bool false => ['f', 'a', 'l', 's', 'e']
  | .integer n => renderInt n
  | .float x => renderFloat x
  | .text s => renderText s
  | .array [] => ['[', ']']
  | .array (item :: items) => '[' :: (render item ++ renderItems items)
  | .object [] => ['\x7b', '\x7d']
  | .object ((name, value) :: members) =>
    '\x7b' :: (renderText name ++ ':' :: (render value ++ renderMembers members))

/-- The items after the first, and the closing bracket. -/
def renderItems : List Json → List Char
  | [] => [']']
  | item :: items => ',' :: (render item ++ renderItems items)

/-- The members after the first, and the closing brace. -/
def renderMembers : List (String × Json) → List Char
  | [] => ['\x7d']
  | (name, value) :: members =>
    ',' :: (renderText name ++ ':' :: (render value ++ renderMembers members))

end

def encode (j : Json) : String := String.ofList j.render

end AddressLedger.Json
