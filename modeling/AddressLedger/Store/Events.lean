import AddressLedger.Event

/-!
# The event table

Rows in the order of their insertion, at most one for each key. The item of an event is kept as
text and decoded whenever the row is read. Reading looks at a window of the matching rows, the
latest first, those without a time last, and rows of one time in the order of insertion.
-/
namespace AddressLedger.Store

open Feed

inductive StoreError
  | unavailable
  | badPayload
  deriving DecidableEq, Repr

def StoreError.message : StoreError → String
  | unavailable => "Database error"
  | badPayload => "Payload encoding error"

structure Row where
  id : String
  chain : String
  address : String
  cateId : Option String
  timeAt : Option Int64
  isScam : Bool
  payload : String
  deriving DecidableEq

namespace Row

def key (r : Row) : EventKey := ⟨r.id, r.chain, r.address⟩

def ofEvent (e : Event) : Row :=
  ⟨e.id, e.chain, e.address, e.cateId, e.timeAt, e.isScam, e.payload.encode⟩

def toEvent (r : Row) : Except StoreError Event :=
  match Item.ofText r.payload with
  | .ok item => .ok ⟨r.id, r.chain, r.address, r.cateId, r.timeAt, r.isScam, item⟩
  | .error _ => .error .badPayload

end Row

/-- Which events a reader asks for. -/
structure EventQuery where
  owners : List String
  chain : Option String
  includeScam : Bool

def EventQuery.matches (q : EventQuery) (r : Row) : Bool :=
  (q.owners.map Text.lower).contains r.address && q.chain.all (· == r.chain) &&
    (q.includeScam || !r.isScam)

/-- Later times first, and none at all last. -/
def timeLe : Option Int64 → Option Int64 → Bool
  | _, none => true
  | none, some _ => false
  | some x, some y => y ≤ x

abbrev Events := List Row

namespace Events

def contains (rows : Events) (key : EventKey) : Bool := rows.any fun r => r.key == key

/-- Adds an event unless one with its key is there, and tells whether it did. -/
def insert (rows : Events) (e : Event) : Bool × Events :=
  if rows.contains e.key then (false, rows) else (true, rows ++ [Row.ofEvent e])

/-- Adds events in turn and tells how many were new. -/
def insertAll (rows : Events) : List Event → Nat × Events
  | [] => (0, rows)
  | e :: es =>
    let (isNew, rows) := rows.insert e
    let (count, rows) := insertAll rows es
    (if isNew then count + 1 else count, rows)

/-- The matching rows in the order in which they are read. -/
def ordered (rows : Events) (q : EventQuery) : Events :=
  (rows.filter q.matches).mergeSort fun a b => timeLe a.timeAt b.timeAt

/-- The matching rows from an offset on, at most `limit` of them. -/
def window (rows : Events) (q : EventQuery) (offset limit : Int) : Events :=
  ((rows.ordered q).drop offset.toNat).take limit.toNat

/-- Overwrites the stored item of every row with an id, and tells how many there are. -/
def setPayload (rows : Events) (id payload : String) : Nat × Events :=
  ((rows.filter (·.id == id)).length,
    rows.map fun r => if r.id = id then { r with payload := payload } else r)

end Events

end AddressLedger.Store
