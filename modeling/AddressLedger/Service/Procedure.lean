import AddressLedger.Feed.Error
import AddressLedger.Feed.Page
import AddressLedger.Store.Basic

/-!
# Procedures

What the service does is written as a tree of accesses to what its calls share: the store, the
cache of catalog records with its generation, the feed, and a lock for each address. An access is
indivisible; between two accesses of one call any other call may make its own. Running a procedure
alone is one way of making its accesses; an interleaving makes those of several calls in turn.
-/
namespace AddressLedger.Service

open Catalog Feed Store

/-- One access to what calls share. -/
inductive Access
  | fetchPage (address : String) (cursor : Option Int64)
  | hasEvent (key : EventKey)
  | insertEvents (events : List Event)
  | fetchEvents (query : EventQuery) (offset limit : Int)
  | writeRecord (record : Record)
  | readRecords (kind : Kind) (ids : List String)
  | generation
  | bumpGeneration
  | cached (key : Key)
  | keep (key : Key) (record : Record)
  | forget (key : Key)
  | forgetAll
  | lock (address : String)
  | unlock (address : String)

/-- What an access answers. -/
abbrev Access.Answer : Access → Type
  | fetchPage _ _ => Except FeedError Page
  | hasEvent _ => Except StoreError Bool
  | insertEvents _ => Except StoreError Nat
  | fetchEvents _ _ _ => Except StoreError (List Event)
  | writeRecord _ => Except StoreError Unit
  | readRecords _ _ => Except StoreError (List Record)
  | generation => Nat
  | cached _ => Option Record
  | _ => Unit

/-- A finished call with its result, or an access and what is done with its answer. -/
inductive Procedure (α : Type)
  | done (result : α)
  | access (a : Access) (next : a.Answer → Procedure α)

namespace Procedure

variable {α β γ σ : Type}

protected def bind : Procedure α → (α → Procedure β) → Procedure β
  | done result, k => k result
  | access a next, k => access a fun answer => (next answer).bind k

instance : Monad Procedure where
  pure := done
  bind := Procedure.bind

def call (a : Access) : Procedure a.Answer := access a done

/-- Makes the accesses of a procedure one after the other. -/
def run (perform : (a : Access) → σ → a.Answer × σ) : Procedure α → σ → α × σ
  | done result, s => (result, s)
  | access a next, s =>
    let (answer, s) := perform a s
    (next answer).run perform s

@[simp] theorem pure_eq (result : α) : (pure result : Procedure α) = done result := rfl

@[simp] theorem done_bind (result : α) (k : α → Procedure β) : done result >>= k = k result := rfl

@[simp] theorem access_bind (a : Access) (next : a.Answer → Procedure α) (k : α → Procedure β) :
    access a next >>= k = access a fun answer => next answer >>= k := rfl

theorem bind_done (p : Procedure α) : p >>= done = p := by
  induction p with
  | done => rfl
  | access a next ih =>
    rw [access_bind]
    exact congrArg (access a) (funext ih)

theorem bind_bind (p : Procedure α) (k : α → Procedure β) (l : β → Procedure γ) :
    p >>= k >>= l = p >>= fun result => k result >>= l := by
  induction p with
  | done => rfl
  | access a next ih =>
    simp only [access_bind]
    exact congrArg (access a) (funext ih)

theorem run_bind (perform : (a : Access) → σ → a.Answer × σ) (p : Procedure α)
    (k : α → Procedure β) (s : σ) :
    (p >>= k).run perform s = (k (p.run perform s).1).run perform (p.run perform s).2 := by
  induction p generalizing s with
  | done => rfl
  | access a next ih =>
    rw [access_bind, run, run]
    exact ih _ _

end Procedure

/-- A procedure that the store may end. -/
abbrev StoreProcedure (α : Type) := ExceptT StoreError Procedure α

/-- The procedure of an access that the store answers. -/
def ask {α : Type} (p : Procedure (Except StoreError α)) : StoreProcedure α := ExceptT.mk p

/-- What happens to a request for a page. -/
inductive Reply
  /-- It is answered; shutdown may be asked for on the way. -/
  | answered (stopping : Bool) (result : Except FeedError Page)
  /-- Shutdown is asked for before any answer. -/
  | abandoned

/-- A source of pages, with a state that its past requests leave behind. -/
structure PageSource (φ : Type) where
  request : String → Option Int64 → φ → Reply × φ

structure Shared (φ : Type) where
  store : Store
  cache : List (Key × Record)
  /-- The number of changes of the catalog. A counter of 64 bits tells it modulo `2 ^ 64`. -/
  generation : Nat
  locked : List String
  stopped : Bool
  feed : φ

namespace Shared

variable {φ : Type}

def cached? (s : Shared φ) (key : Key) : Option Record :=
  (s.cache.find? fun entry => entry.1 == key).map Prod.snd

def forget (s : Shared φ) (key : Key) : Shared φ :=
  { s with cache := s.cache.filter fun entry => entry.1 != key }

def keep (s : Shared φ) (key : Key) (record : Record) : Shared φ :=
  { s with cache := (key, record) :: (s.forget key).cache }

/-- Asks for a page, unless shutdown was asked for before. -/
def fetchPage (source : PageSource φ) (s : Shared φ) (address : String) (cursor : Option Int64) :
    Except FeedError Page × Shared φ :=
  if s.stopped then (.error .cancelled, s)
  else match source.request address cursor s.feed with
    | (.answered stopping result, feed) => (result, { s with feed := feed, stopped := stopping })
    | (.abandoned, feed) => (.error .cancelled, { s with feed := feed, stopped := true })

def perform (source : PageSource φ) : (a : Access) → Shared φ → a.Answer × Shared φ
  | .fetchPage address cursor, s => s.fetchPage source address cursor
  | .hasEvent key, s => (s.store.hasEvent key, s)
  | .insertEvents events, s =>
    let (answer, store) := s.store.insertEvents events
    (answer, { s with store := store })
  | .fetchEvents query offset limit, s => (s.store.fetchEvents query offset limit, s)
  | .writeRecord record, s =>
    let (answer, store) := s.store.writeRecord record
    (answer, { s with store := store })
  | .readRecords kind ids, s => (s.store.readRecords kind ids, s)
  | .generation, s => (s.generation, s)
  | .bumpGeneration, s => ((), { s with generation := s.generation + 1 })
  | .cached key, s => (s.cached? key, s)
  | .keep key record, s => ((), s.keep key record)
  | .forget key, s => ((), s.forget key)
  | .forgetAll, s => ((), { s with cache := [] })
  | .lock address, s => ((), { s with locked := address :: s.locked })
  | .unlock address, s => ((), { s with locked := s.locked.erase address })

/-- Runs a procedure alone. -/
def exec {α : Type} (source : PageSource φ) (p : Procedure α) (s : Shared φ) : α × Shared φ :=
  p.run (perform source) s

end Shared

end AddressLedger.Service
