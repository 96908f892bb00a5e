import AddressLedger.Json.Raw

/-!
# Decoding trees

Values of fixed types taken from a JSON tree without any conversion between kinds of values. A tree
is refused either because its text is malformed or because its shape is not the expected one. A
free-form value may have at most `maxNesting` containers open around it and in it.
-/
namespace AddressLedger.Json

inductive Fault
  | malformed
  | mismatched
  deriving DecidableEq, Repr

abbrev Decoded (α : Type) := Except Fault α

/-- How many containers may be open at once. -/
def maxNesting : Nat := 127

def malformed {α : Type} : Decoded α := .error .malformed

def mismatched {α : Type} : Decoded α := .error .mismatched

/-- What a number of any type decodes to: a number beyond the doubles is malformed everywhere. -/
def Numeral.decode {α : Type} (n : Numeral) (value : Option α) : Decoded α :=
  match n.value?, value with
  | none, _ => malformed
  | some _, some a => .ok a
  | some _, none => mismatched

namespace Raw

/-- The refusal of a value whose kind is not the expected one. -/
def refuse {α : Type} : Raw → Decoded α
  | number n => n.decode none
  | text none => malformed
  | fault => malformed
  | _ => mismatched

def toText : Raw → Decoded String
  | text (some s) => .ok s
  | r => r.refuse

def toBool : Raw → Decoded Bool
  | bool b => .ok b
  | r => r.refuse

def toFloat : Raw → Decoded Float
  | number n => n.decode n.float?
  | r => r.refuse

/-- A whole number that fits 64 bits with a sign. -/
def toInt64 : Raw → Decoded Int64
  | number n => n.decode ((n.integer?.filter (· ≤ Int64.maxValue.toInt)).map Int64.ofInt)
  | r => r.refuse

def toOption {α : Type} (decode : Raw → Decoded α) : Raw → Decoded (Option α)
  | null => .ok none
  | r => some <$> decode r

def toList {α : Type} (decode : Raw → Decoded α) : Raw → Decoded (List α)
  | array items closed => do
    let values ← items.mapM decode
    if closed then return values else malformed
  | r => r.refuse

mutual

/-- A free-form value with `depth` containers open around it. -/
def toJson (depth : Nat) : Raw → Decoded Json
  | null => .ok .null
  | bool b => .ok (.bool b)
  | number n => n.decode n.value?
  | text s => match s with
    | some s => .ok (.text s)
    | none => malformed
  | array items closed =>
    if maxNesting ≤ depth then malformed
    else do
      let values ← itemsToJson (depth + 1) items
      if closed then return .array values else malformed
  | object members closed =>
    if maxNesting ≤ depth then malformed
    else do
      let values ← membersToJson (depth + 1) members
      if closed then return .object (Keyed.ofList values) else malformed
  | fault => malformed

def itemsToJson (depth : Nat) : List Raw → Decoded (List Json)
  | [] => .ok []
  | item :: rest => do
    let value ← toJson depth item
    let values ← itemsToJson depth rest
    return value :: values

def membersToJson (depth : Nat) : List (Option String × Raw) → Decoded (List (String × Json))
  | [] => .ok []
  | (none, _) :: _ => malformed
  | (some name, member) :: rest => do
    let value ← toJson depth member
    let values ← membersToJson depth rest
    return (name, value) :: values

end

def toMembers : Raw → Decoded (List (String × Raw))
  | object members true => members.mapM fun member =>
      match member.1 with
      | some name => .ok (name, member.2)
      | none => malformed
  | object _ false => malformed
  | r => r.refuse

/-- Whether some name of the list comes twice among the members. -/
def repeats (names : List String) (members : List (String × Raw)) : Bool :=
  names.any fun name => 1 < (members.filter fun member => member.1 == name).length

/-- The members of an object, in which each of the given names comes at most once. -/
def toRecord (names : List String) (r : Raw) : Decoded (List (String × Raw)) := do
  let members ← r.toMembers
  if repeats names members then mismatched else return members

/--
The fields of a record written as an object, or as an array that holds them in their order, of
which the first `required` must be there.
-/
def toFields (names : List String) (required : Nat) : Raw → Decoded (List (String × Raw))
  | array items true =>
    if names.length < items.length then malformed
    else if items.length < required then mismatched
    else .ok (names.zip items)
  | array _ false => malformed
  | r => r.toRecord names

/-- A field by its name, or a default if it is missing. -/
def field {α : Type} (fields : List (String × Raw)) (name : String)
    (decode : Raw → Decoded α) (default : α) : Decoded α :=
  match fields.find? fun entry => entry.1 == name with
  | some entry => decode entry.2
  | none => .ok default

/-- A field that may be missing or null, both of which give a default. -/
def fieldOr {α : Type} (fields : List (String × Raw)) (name : String)
    (decode : Raw → Decoded α) (default : α) : Decoded α :=
  field fields name (fun r => (·.getD default) <$> toOption decode r) default

def field? {α : Type} (fields : List (String × Raw)) (name : String)
    (decode : Raw → Decoded α) : Decoded (Option α) :=
  field fields name (toOption decode) none

/-- An object whose members are entries of one type; of several with one key the last counts. -/
def toTable {α : Type} (decode : String → Raw → Decoded α) (r : Raw) :
    Decoded (List (String × α)) := do
  let members ← r.toMembers
  let entries ← members.mapM fun member => do
    let value ← decode member.1 member.2
    return (member.1, value)
  return Keyed.ofList entries

end Raw

end AddressLedger.Json
