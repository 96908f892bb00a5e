import AddressLedger.Calendar
import AddressLedger.Catalog.Lookup
import AddressLedger.History.Group

/-!
# Reading the history

A window of the transactions of some owners, latest first. Stored events are read in chunks of twice
the window's length until they give enough groups; what drops out by value, or as an approval, does
not count towards the window.
-/
namespace AddressLedger.History

open Catalog Service Store

structure HistoryRequest where
  owners : List String
  skip : Nat
  limit : Nat
  chain : Option String
  includeScam : Bool
  minValueUsd : Float

namespace HistoryRequest

def defaultLimit : Nat := 50

def defaultMinValue : Float := 0.01

/-- The first transactions of some owners. -/
def ofOwners (owners : List String) : HistoryRequest :=
  ⟨owners, 0, defaultLimit, none, false, defaultMinValue⟩

/-- The owners in normal form, in order and without repetition. -/
def distinctOwners (r : HistoryRequest) : List String :=
  ((r.owners.map normalizeAddress).filter (· ≠ "")).eraseDups.mergeSort fun a b => a ≤ b

def query (r : HistoryRequest) : EventQuery := ⟨r.distinctOwners, r.chain, r.includeScam⟩

def wanted (r : HistoryRequest) : Nat := min (r.skip + r.limit) (Nat.pow 2 64 - 1)

def chunkSize (r : HistoryRequest) : Nat := min (2 * r.limit) (Nat.pow 2 63 - 1)

end HistoryRequest

/-- The reference data that a chunk of events needs. -/
structure Reference where
  tokens : Tokens
  projects : Projects
  exchanges : Exchanges

/-- The direction of an event and its other address. -/
def sides (e : Event) : Direction × Option String :=
  let d := direction e.payload e.address
  (d, otherAddress e.payload d)

/-- The readable form of an event. -/
def enrich (ref : Reference) (e : Event) : Transaction :=
  let i := e.payload
  let (d, other) := sides e
  let t : Transaction :=
    { hash := e.id, chain := e.chain, timestamp := e.timeAt,
      dateTime := Calendar.dateTimeText e.timeAt, cateId := e.cateId, txName := i.tx.name,
      kind := kind i, direction := d,
      counterparty := counterparty ref.projects ref.exchanges i.projectId other,
      otherAddr := other, walletAddr := e.address, changes := tokenChanges ref.tokens i,
      usdGasFee := i.tx.usdGasFee, ethGasFee := i.tx.ethGasFee, isScam := e.isScam,
      description := "" }
  { t with description := describe t }

/-- Whether an event that is no approval is shown: its value does not fall below the threshold. -/
def isShown (minValueUsd : Float) (t : Transaction) : Bool :=
  !(totalValue t.changes < minValueUsd)

/-- The ids of a list that are not empty, each once. -/
def needed (ids : List (Option String)) : List String :=
  ((ids.filterMap id).filter (· ≠ "")).eraseDups

def tokenIds (e : Event) : List (Option String) :=
  (e.payload.sends ++ e.payload.receives).map (·.tokenId)

/-- Looks up what a list of events refers to. -/
def referenceFor (events : List Event) : StoreProcedure Reference := do
  let tokens ← resolveTokens (needed (events.flatMap tokenIds))
  let projects ← resolveProjects (needed (events.map (·.payload.projectId)))
  let exchanges ← resolveExchanges (needed (events.map fun e => (sides e).2))
  return ⟨tokens, projects, exchanges⟩

/-- The readable forms of the events of a chunk that are shown. -/
def candidates (minValueUsd : Float) (chunk : List Event) : StoreProcedure (List Transaction) := do
  let events := chunk.filter fun e => !isApprovalOnly e.payload
  let ref ← referenceFor events
  return (events.map (enrich ref)).filter (isShown minValueUsd)

/-- Rows are numbered below this, and so are offsets into the table. -/
def offsetBound : Nat := Nat.pow 2 63

/-- Reads chunks from an offset on until there are enough groups or no more events. -/
def gather (r : HistoryRequest) (groups : Groups) (offset : Nat) : StoreProcedure Groups :=
  if _ : groups.size < r.wanted ∧ offset < offsetBound then do
    let chunk ← ask (.call (.fetchEvents r.query offset r.chunkSize))
    if _ : chunk.length = 0 then return groups
    else
      let ts ← candidates r.minValueUsd chunk
      gather r (groups.pushAll ts) (offset + chunk.length)
  else return groups
termination_by offsetBound - offset
decreasing_by omega

/-- Later transactions first, and those without a time last. -/
def laterFirst (a b : Transaction) : Bool := timeLe a.timestamp b.timestamp

/-- The window of a request. -/
def readHistory (r : HistoryRequest) : StoreProcedure (List Transaction) := do
  let owners := r.distinctOwners
  if owners.isEmpty ∨ r.limit = 0 then return []
  let groups ← gather r .empty 0
  return (((groups.canonicals owners).mergeSort laterFirst).drop r.skip).take r.limit

end AddressLedger.History
