import AddressLedger.Json.Number
import AddressLedger.Text.Hex

/-!
# JSON text as a tree

The tree of a JSON text before its meaning is fixed: members in their order with repetitions,
numbers as written, and texts whose escapes may fail to make a text. Where a text goes wrong the
tree ends: a value that cannot be read is a `fault`, and the containers around it stay open. A
consumer that walks the tree in order therefore meets a fault where a reader of the text would.
-/
namespace AddressLedger.Json

open Text

inductive Raw
  | null
  | bool (b : Bool)
  | number (n : Numeral)
  /-- A text, or nothing if a surrogate in it is unpaired. -/
  | text (s : Option String)
  | array (items : List Raw) (closed : Bool)
  | object (members : List (Option String × Raw)) (closed : Bool)
  | fault
  deriving Inhabited

mutual

/-- Whether the text of a tree went wrong nowhere. -/
def Raw.isComplete : Raw → Bool
  | .array items closed => closed && itemsComplete items
  | .object members closed => closed && membersComplete members
  | .fault => false
  | _ => true

def itemsComplete : List Raw → Bool
  | [] => true
  | item :: items => item.isComplete && itemsComplete items

def membersComplete : List (Option String × Raw) → Bool
  | [] => true
  | (_, value) :: members => value.isComplete && membersComplete members

end

def isJsonBlank (c : Char) : Bool := c == ' ' || c == '\t' || c == '\n' || c == '\r'

def skipBlank (cs : List Char) : List Char := cs.dropWhile isJsonBlank

/-- The code unit of an escape with four hexadecimal digits. -/
def hexUnit? (a b c d : Char) : Option Nat := do
  return ((← hexValue? a) * 16 + (← hexValue? b)) * 256 + (← hexValue? c) * 16 + (← hexValue? d)

/-- The character that a backslash and a letter stand for. -/
def escaped? : Char → Option Char
  | '"' => some '"'
  | '\\' => some '\\'
  | '/' => some '/'
  | 'b' => some '\x08'
  | 'f' => some '\x0c'
  | 'n' => some '\n'
  | 'r' => some '\r'
  | 't' => some '\t'
  | _ => none

/-- Reads the rest of a text after its opening quote; surrogates come from escapes only. -/
def scanUnits : List Char → Option (List Nat × List Char)
  | [] => none
  | '"' :: rest => some ([], rest)
  | '\\' :: 'u' :: a :: b :: c :: d :: rest => do
    let unit ← hexUnit? a b c d
    let (units, after) ← scanUnits rest
    return (unit :: units, after)
  | '\\' :: c :: rest => do
    let char ← escaped? c
    let (units, after) ← scanUnits rest
    return (char.toNat :: units, after)
  | c :: rest =>
    if c.toNat < 0x20 ∨ c = '\\' then none
    else do
      let (units, after) ← scanUnits rest
      return (c.toNat :: units, after)

/-- The characters of a sequence of code points in which surrogates come in pairs. -/
def joinUnits : List Nat → Option (List Char)
  | [] => some []
  | unit :: units =>
    if 0xD800 ≤ unit ∧ unit < 0xDC00 then
      match units with
      | low :: units =>
        if 0xDC00 ≤ low ∧ low < 0xE000 then
          (joinUnits units).map
            (Char.ofNat (0x10000 + (unit - 0xD800) * 0x400 + (low - 0xDC00)) :: ·)
        else none
      | [] => none
    else if 0xDC00 ≤ unit ∧ unit < 0xE000 then none
    else (joinUnits units).map (Char.ofNat unit :: ·)

def scanText (cs : List Char) : Option (Option String × List Char) :=
  (scanUnits cs).map fun (units, rest) => ((joinUnits units).map String.ofList, rest)

mutual

/-- Reads a value, and what follows it unless the text goes wrong within it. -/
def readValue : Nat → List Char → Raw × Option (List Char)
  | 0, _ => (.fault, none)
  | n + 1, cs =>
    match skipBlank cs with
    | '"' :: cs =>
      match scanText cs with
      | some (s, rest) => (.text s, some rest)
      | none => (.fault, none)
    | '[' :: cs =>
      match skipBlank cs with
      | ']' :: rest => (.array [] true, some rest)
      | cs =>
        let (items, rest) := readItems n cs
        (.array items rest.isSome, rest)
    | '\x7b' :: cs =>
      match skipBlank cs with
      | '\x7d' :: rest => (.object [] true, some rest)
      | cs =>
        let (members, rest) := readMembers n cs
        (.object members rest.isSome, rest)
    | 'n' :: 'u' :: 'l' :: 'l' :: rest => (.null, some rest)
    | 't' :: 'r' :: 'u' :: 'e' :: rest => (.bool true, some rest)
    | 'f' :: 'a' :: 'l' :: 's' :: 'e' :: rest => (.bool false, some rest)
    | cs =>
      match scanNumber cs with
      | some (numeral, rest) => (.number numeral, some rest)
      | none => (.fault, none)

/-- Reads one item or more, up to the closing bracket. -/
def readItems : Nat → List Char → List Raw × Option (List Char)
  | 0, _ => ([], none)
  | n + 1, cs =>
    match readValue n cs with
    | (value, none) => ([value], none)
    | (value, some rest) =>
      match skipBlank rest with
      | ',' :: rest =>
        let (items, rest) := readItems n rest
        (value :: items, rest)
      | ']' :: rest => ([value], some rest)
      | _ => ([value], none)

/-- Reads one member or more, up to the closing brace. -/
def readMembers : Nat → List Char → List (Option String × Raw) × Option (List Char)
  | 0, _ => ([], none)
  | n + 1, cs =>
    match skipBlank cs with
    | '"' :: cs =>
      match scanText cs with
      | none => ([], none)
      | some (name, rest) =>
        match skipBlank rest with
        | ':' :: rest =>
          match readValue n rest with
          | (value, none) => ([(name, value)], none)
          | (value, some rest) =>
            match skipBlank rest with
            | ',' :: rest =>
              let (members, rest) := readMembers n rest
              ((name, value) :: members, rest)
            | '\x7d' :: rest => ([(name, value)], some rest)
            | _ => ([(name, value)], none)
        | _ => ([(name, .fault)], none)
    | _ => ([], none)

end

/--
The tree of a text, and whether the text ends after its value. Each level of the readers takes a
character of the text, so the bound on their depth is never met.
-/
def readTree (s : String) : Raw × Bool :=
  let cs := s.toList
  match readValue (2 * cs.length + 2) cs with
  | (tree, some rest) => (tree, (skipBlank rest).isEmpty)
  | (tree, none) => (tree, false)

def readTree? (s : String) : Option Raw :=
  match readTree s with
  | (tree, true) => some tree
  | (_, false) => none

end AddressLedger.Json
