import AddressLedger.Text.Split

/-!
# Media types

A media type is `type/subtype`, where the subtype may end in `+suffix`, and parameters after
semicolons, whose values may be quoted. Case does not matter.
-/
namespace AddressLedger.Http

open Text

structure MediaType where
  type : String
  subtype : String
  suffix : Option String
  deriving DecidableEq, Repr

namespace MediaType

def tokenMarks : List Char := "!#$%&'*+-.^_`|~".toList

def isTokenChar (c : Char) : Bool := c.isAlphanum || tokenMarks.contains c

def isQuotedChar (c : Char) : Bool := 31 < c.toNat && c.toNat != 127

/-- Where a reader stands within the parameters. -/
inductive ParameterPlace
  /-- After a semicolon. -/
  | start
  /-- After a semicolon and spaces. -/
  | indented
  | name
  /-- After an equals sign. -/
  | valueStart
  | value
  /-- After an opening quote. -/
  | quoteStart
  | quoted
  /-- After a closing quote. -/
  | quoteEnd
  deriving DecidableEq

namespace ParameterPlace

/-- The place after one more character, if it may stand here. -/
def step (p : ParameterPlace) (c : Char) : Option ParameterPlace :=
  match p with
  | start | indented => if c = ' ' then some indented else if isTokenChar c then some name else none
  | name => if c = '=' then some valueStart else if isTokenChar c then some name else none
  | valueStart =>
    if c = '"' then some quoteStart else if isTokenChar c then some value else none
  | value => if c = ';' then some start else if isTokenChar c then some value else none
  | quoteStart => if isQuotedChar c then some quoted else none
  | quoted => if c = '"' then some quoteEnd else if isQuotedChar c then some quoted else none
  | quoteEnd => if c = ';' then some start else if c = ' ' then some quoteEnd else none

def mayEnd : ParameterPlace → Bool
  | start | valueStart | value | quoteEnd => true
  | _ => false

end ParameterPlace

/-- Whether what follows the first semicolon is a list of parameters. -/
def areParameters (cs : List Char) : Bool :=
  (cs.foldlM ParameterPlace.step .start).any ParameterPlace.mayEnd

/-- A subtype and the suffix after its last plus sign, if that is not its first character. -/
def splitSuffix (cs : List Char) : List Char × Option (List Char) :=
  match cutAt '+' cs.reverse with
  | (suffix, some (c :: base)) => ((c :: base).reverse, some suffix.reverse)
  | _ => (cs, none)

def lowerText (cs : List Char) : String := String.ofList (cs.map Char.toLower)

def ofText? (s : String) : Option MediaType :=
  match cutAt '/' s.toList with
  | (type, some rest) =>
    let (sub, parameters) := cutAt ';' rest
    let (subtype, suffix) := splitSuffix sub
    if !type.isEmpty && type.all isTokenChar && sub.all isTokenChar &&
        parameters.all fun cs => !sub.isEmpty && areParameters cs then
      some ⟨lowerText type, lowerText subtype, suffix.map lowerText⟩
    else none
  | _ => none

/-- Whether values of the type are JSON texts. -/
def isJson (m : MediaType) : Bool :=
  m.type == "application" && (m.subtype == "json" || m.suffix == some "json")

end MediaType

end AddressLedger.Http
