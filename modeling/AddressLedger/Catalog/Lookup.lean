import AddressLedger.Service.Procedure

/-!
# Catalog calls

Writes go through to the store and drop the cached copy; lookups fill the cache from the store. The
generation counts writes and invalidations. A lookup reads it before the store and again after it
has cached what it read: if it differs, what was just cached may be out of date and is dropped.
-/
namespace AddressLedger.Catalog

open Feed Service Store

/-- How many ids one request to the store may hold. -/
def lookupChunk : Nat := 500

/-- A list in pieces of `lookupChunk` elements, the last one shorter. -/
def chunked {α : Type} (xs : List α) : List (List α) :=
  if _ : xs.length = 0 then []
  else xs.take lookupChunk :: chunked (xs.drop lookupChunk)
termination_by xs.length
decreasing_by simp only [List.length_drop, lookupChunk]; omega

theorem chunked_nil {α : Type} : chunked ([] : List α) = [] := by
  rw [chunked]
  rfl

theorem chunked_of_short {α : Type} {xs : List α} (hne : xs ≠ []) (h : xs.length ≤ lookupChunk) :
    chunked xs = [xs] := by
  rw [chunked, dif_neg (mt List.length_eq_zero_iff.mp hne), List.take_of_length_le h,
    List.drop_of_length_le h, chunked_nil]

theorem flatten_chunked {α : Type} (xs : List α) : (chunked xs).flatten = xs := by
  induction xs using chunked.induct with
  | case1 xs hnil =>
    rw [List.length_eq_zero_iff.mp hnil, chunked_nil]
    rfl
  | case2 xs hne ih =>
    rw [chunked, dif_neg hne, List.flatten_cons, ih, List.take_append_drop]

def upsert (record : Record) : StoreProcedure Unit := do
  ask (.call (.writeRecord record))
  .lift (.call .bumpGeneration)
  .lift (.call (.forget (Key.ofRecord record)))

def upsertAll : List Record → StoreProcedure Unit
  | [] => return
  | record :: records => do
    upsert record
    upsertAll records

/-- Writes all records of a page and tells how many there are. -/
def upsertPage (p : Page) : StoreProcedure Nat := do
  upsertAll p.records
  return p.records.length

abbrev Resolved := List (String × Record)

/-- The cached ones of some ids, and the ids that are not cached. -/
def consult (kind : Kind) : List String → Procedure (Resolved × List String)
  | [] => return ([], [])
  | id :: ids => do
    match ← Procedure.call (.cached ⟨kind, id⟩) with
    | some record =>
      let (hits, misses) ← consult kind ids
      return ((id, record) :: hits, misses)
    | none =>
      let (hits, misses) ← consult kind ids
      return (hits, id :: misses)

def readAll (kind : Kind) : List (List String) → StoreProcedure (List Record)
  | [] => return []
  | ids :: rest => do
    let records ← ask (.call (.readRecords kind ids))
    return records ++ (← readAll kind rest)

/-- A lookup that has read what was not cached, and the generation from before that. -/
structure Pending where
  hits : Resolved
  loaded : List Record
  generation : Nat

/-- The first part of a lookup: either all is cached, or the rest is read from the store. -/
def load (kind : Kind) (ids : List String) : StoreProcedure (Resolved ⊕ Pending) := do
  let (hits, misses) ← .lift (consult kind ((ids.map fun id => (Key.of kind id).id).eraseDups))
  if misses.isEmpty then return .inl hits
  let generation ← .lift (.call .generation)
  let loaded ← readAll kind (chunked misses)
  return .inr ⟨hits, loaded, generation⟩

def keepAll (kind : Kind) : List Record → Procedure Unit
  | [] => return
  | record :: records => do
    Procedure.call (.keep (Key.of kind record.id) record)
    keepAll kind records

def forgetAllOf (kind : Kind) : List String → Procedure Unit
  | [] => return
  | id :: ids => do
    Procedure.call (.forget (Key.of kind id))
    forgetAllOf kind ids

/-- The second part: what was read is cached, and dropped again if the catalog changed meanwhile. -/
def settle (kind : Kind) (p : Pending) : Procedure Resolved := do
  keepAll kind p.loaded
  let generation ← Procedure.call .generation
  if generation ≠ p.generation then forgetAllOf kind (p.loaded.map Record.id)
  return Keyed.ofList (p.hits ++ p.loaded.map fun r => ((Key.of kind r.id).id, r))

/-- The records of some ids by their keys; ids without a record are left out. -/
def resolve (kind : Kind) (ids : List String) : StoreProcedure Resolved := do
  match ← load kind ids with
  | .inl hits => return Keyed.ofList hits
  | .inr pending => .lift (settle kind pending)

/-- Drops the cached records of some ids and reads them anew. -/
def refresh (kind : Kind) (ids : List String) : StoreProcedure Resolved := do
  .lift (forgetAllOf kind ids)
  resolve kind ids

def invalidateAll : Procedure Unit := do
  Procedure.call .bumpGeneration
  Procedure.call .forgetAll

/-- What the records of a lookup hold. -/
def partsOf {α : Type} (pick : Record → Option α) (resolved : Resolved) : List (String × α) :=
  resolved.filterMap fun entry => (pick entry.2).map (entry.1, ·)

def resolveTokens (ids : List String) : StoreProcedure (List (String × Token)) :=
  partsOf Record.token? <$> resolve .token ids

def resolveProjects (ids : List String) : StoreProcedure (List (String × Project)) :=
  partsOf Record.project? <$> resolve .project ids

def resolveExchanges (addresses : List String) : StoreProcedure (List (String × ExchangeAddress)) :=
  partsOf Record.counterparty? <$> resolve .counterparty addresses

end AddressLedger.Catalog
