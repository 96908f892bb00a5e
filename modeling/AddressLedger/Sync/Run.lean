import AddressLedger.Catalog.Lookup
import AddressLedger.Input

/-!
# Sync runs

A run pages backwards through the history of one address. It asks for the latest page first and then
for what is strictly older than the last item received, until the history is exhausted, the run has
caught up with what is stored, a page fails or the time does not decrease any more.
-/
namespace AddressLedger.Sync

open Catalog Feed Service Store

/-- How a run treats items that are stored already. -/
inductive Mode
  /-- Everything older is taken to be stored too. -/
  | catchUp
  /-- They are skipped. -/
  | fillGaps
  deriving DecidableEq

inductive SyncError
  | feed (e : FeedError)
  | store (e : StoreError)
  deriving DecidableEq, Repr

def SyncError.message : SyncError → String
  | feed e => e.message
  | store e => e.message

/-- The events of a page that are new, and whether the run has caught up with what is stored. -/
structure Scan where
  batch : List Event
  caughtUp : Bool

/-- Looks for the items of a page in the store; items without an id or a chain are passed over. -/
def scan (address : String) (mode : Mode) : List Item → StoreProcedure Scan
  | [] => return ⟨[], false⟩
  | item :: items =>
    match Event.ofItem? address item with
    | none => scan address mode items
    | some event => do
      let stored ← ask (.call (.hasEvent event.key))
      if stored then
        match mode with
        | .catchUp => return ⟨[], true⟩
        | .fillGaps => scan address mode items
      else
        let found ← scan address mode items
        return ⟨event :: found.batch, found.caughtUp⟩

/-- Inserts a batch, if there is anything in it, and tells how many events were new. -/
def insertBatch (batch : List Event) : StoreProcedure Nat :=
  if batch.isEmpty then return 0 else ask (.call (.insertEvents batch))

/-- What a run does with a page: the number of new events, and whether it has caught up. -/
def processItems (address : String) (mode : Mode) (items : List Item) :
    StoreProcedure (Nat × Bool) := do
  let found ← scan address mode items
  let count ← insertBatch found.batch
  return (count, found.caughtUp)

/-- Writes the reference data of a page, if it has any. -/
def learn (p : Page) : StoreProcedure Unit := do
  if p.hasReferenceData then
    let _ ← upsertPage p

/-- Whether a time lies strictly before the cursor, if there is one. -/
def isBefore (next : Int64) : Option Int64 → Bool
  | none => true
  | some current => next < current

/-- How many times may still come before a cursor. -/
def remaining : Option Int64 → Nat
  | none => Nat.pow 2 64
  | some current => (current.toInt - Int64.minValue.toInt).toNat

theorem remaining_lt {next : Int64} {cursor : Option Int64} (h : isBefore next cursor = true) :
    remaining (some next) < remaining cursor := by
  have low := Int64.le_toInt next
  have high := Int64.toInt_lt next
  have least : Int64.minValue.toInt = -9223372036854775808 := Int64.toInt_minValue
  cases cursor with
  | none =>
    simp only [remaining, Nat.pow_eq]
    omega
  | some current =>
    have lt : next.toInt < current.toInt := Int64.lt_iff_toInt_lt.1 (by simpa [isBefore] using h)
    simp only [remaining]
    omega

/-- What a run reports: how many new events it stored, and why it ended if it failed. -/
structure Outcome where
  count : Nat
  failure : Option SyncError

/-- Pages backwards from a cursor, with `count` new events before. -/
def pageFrom (address : String) (mode : Mode) (cursor : Option Int64) (count : Nat) :
    Procedure Outcome := do
  match ← Procedure.call (.fetchPage address cursor) with
  | .error e => return ⟨count, some (.feed e)⟩
  | .ok page =>
    match ← (learn page).run with
    | .error e => return ⟨count, some (.store e)⟩
    | .ok () =>
      match page.items.getLast? with
      | none => return ⟨count, none⟩
      | some oldest =>
        match ← (processItems address mode page.items).run with
        | .error e => return ⟨count, some (.store e)⟩
        | .ok (new, caughtUp) =>
          if caughtUp then return ⟨count + new, none⟩
          else match oldest.timestamp with
            | none => return ⟨count + new, none⟩
            | some next =>
              if _ : isBefore next cursor = true then
                pageFrom address mode (some next) (count + new)
              else return ⟨count + new, none⟩
termination_by remaining cursor
decreasing_by exact remaining_lt (by assumption)

structure SyncResult where
  address : String
  count : Nat
  failure : Option SyncError

/-- Syncs one address, after any other run for it has ended. -/
def syncAddress (address : String) (mode : Mode) : Procedure SyncResult := do
  let address := normalizeAddress address
  Procedure.call (.lock address)
  let outcome ← pageFrom address mode none 0
  Procedure.call (.unlock address)
  return ⟨address, outcome.count, outcome.failure⟩

/-- The distinct addresses of a list in normal form, in the order of their first appearance. -/
def distinctAddresses (addresses : List String) : List String :=
  ((addresses.map normalizeAddress).filter (· ≠ "")).eraseDups

def syncEach (mode : Mode) : List String → Procedure (List SyncResult)
  | [] => return []
  | address :: addresses => do
    let result ← syncAddress address mode
    return result :: (← syncEach mode addresses)

/-- Syncs each distinct address of a list. -/
def syncAll (addresses : List String) (mode : Mode) : Procedure (List SyncResult) :=
  syncEach mode (distinctAddresses addresses)

namespace SyncResult

def statusName (r : SyncResult) : String :=
  if r.failure.isSome then "partial_error" else "success"

def toJson (r : SyncResult) : Json :=
  .object ([("address", .text r.address)] ++
    Json.optionalMember "error" (r.failure.map fun e => .text e.message) ++
    [("status", .text r.statusName), ("synced_count", .integer r.count)])

end SyncResult

end AddressLedger.Sync
