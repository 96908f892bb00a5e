import AddressLedger.Catalog.Record
import AddressLedger.Store.Events
import AddressLedger.Store.Table

/-!
# The store

Events and the catalog tables. A closed store answers no request that reaches it. Catalog tables
hold one record for each key; a write replaces all its fields, and zero loses its sign.
-/
namespace AddressLedger

open Catalog Store

structure Store where
  isOpen : Bool
  events : Events
  projects : List Project
  tokens : List Token
  exchanges : List ExchangeAddress

namespace Store

def empty : Store := ⟨true, [], [], [], []⟩

/-- Refuses every request to a closed store. -/
def whenOpen {α : Type} (s : Store) (answer : α) : Except StoreError α :=
  if s.isOpen then .ok answer else .error .unavailable

/-- A number as a table keeps it: zero has no sign, and not-a-number is nothing. -/
def storedNumber (x : Option Float) : Option Float :=
  match x with
  | some x => if x.isNaN then none else if x == 0 then some 0 else some x
  | none => none

def storedToken (t : Token) : Token :=
  { t with
    price := storedNumber t.price
    priceChange := storedNumber t.priceChange
    creditScore := storedNumber t.creditScore
    totalSupply := storedNumber t.totalSupply
    timeAt := storedNumber t.timeAt }

def storedExchange (e : ExchangeAddress) : ExchangeAddress :=
  { e with address := Text.lower e.address }

/-- Writes a record over the one with its key. -/
def putRecord (s : Store) : Record → Store
  | .project p => { s with projects := Table.put Project.id p s.projects }
  | .token t => { s with tokens := Table.put Token.id (storedToken t) s.tokens }
  | .counterparty e =>
    { s with exchanges := Table.put ExchangeAddress.address (storedExchange e) s.exchanges }

def record? (s : Store) (key : Key) : Option Record :=
  match key.kind with
  | .project => (Table.get? Project.id key.id s.projects).map .project
  | .token => (Table.get? Token.id key.id s.tokens).map .token
  | .counterparty => (Table.get? ExchangeAddress.address key.id s.exchanges).map .counterparty

/-- The records of a kind with the given ids, one for each key; unknown ids give none. -/
def recordsOf (s : Store) (kind : Kind) (ids : List String) : List Record :=
  ((ids.map fun id => (Key.of kind id).id).eraseDups).filterMap fun id => s.record? ⟨kind, id⟩

def insertEvent (s : Store) (e : Event) : Except StoreError Bool × Store :=
  let (isNew, events) := s.events.insert e
  (s.whenOpen isNew, if s.isOpen then { s with events := events } else s)

def insertEvents (s : Store) (es : List Event) : Except StoreError Nat × Store :=
  let (count, events) := s.events.insertAll es
  (s.whenOpen count, if s.isOpen then { s with events := events } else s)

def hasEvent (s : Store) (key : EventKey) : Except StoreError Bool :=
  s.whenOpen (s.events.contains key)

/-- A window of the matching events; no owners or no room is answered without a look. -/
def fetchEvents (s : Store) (q : EventQuery) (offset limit : Int) :
    Except StoreError (List Event) := do
  if q.owners.isEmpty ∨ limit ≤ 0 then return []
  let rows ← s.whenOpen (s.events.window q offset limit)
  rows.mapM Row.toEvent

def writeRecord (s : Store) (r : Record) : Except StoreError Unit × Store :=
  (s.whenOpen (), if s.isOpen then s.putRecord r else s)

def readRecords (s : Store) (kind : Kind) (ids : List String) : Except StoreError (List Record) :=
  s.whenOpen (s.recordsOf kind ids)

end Store

end AddressLedger
