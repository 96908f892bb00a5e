import AddressLedger.Catalog.Lookup
import AddressLedger.Proofs.Service.Trace
import AddressLedger.Proofs.Store.Records
import Mathlib.Data.List.Induction

/-!
# Catalog writes alone

What a write of one record, of many, or of the reference data of a page leaves behind when nothing
else is under way and the store is open: the records in the store, none of them in the cache, and
the generation advanced. The events are left alone and no page is asked for.
-/
namespace AddressLedger.Catalog
open Feed Service Store

variable {φ : Type} {source : PageSource φ}

def lastUnder? (key : Key) (records : List Record) : Option Record :=
  records.reverse.find? fun r => Key.ofRecord r = key

/-- What a write of a record leaves behind. -/
def upserted (s : Shared φ) (record : Record) : Shared φ :=
  { s with store := s.store.putRecord record, generation := s.generation + 1 }.forget
    (Key.ofRecord record)

@[simp] theorem putRecord_isOpen (s : Store) (record : Record) :
    (s.putRecord record).isOpen = s.isOpen := by
  cases record <;> rfl

@[simp] theorem putRecord_events (s : Store) (record : Record) :
    (s.putRecord record).events = s.events := by
  cases record <;> rfl

theorem record?_foldl_putRecord (records : List Record) (st : Store) (key : Key) :
    (records.foldl putRecord st).record? key =
      ((lastUnder? key records).map storedRecord).or (st.record? key) := by
  induction records using List.reverseRecOn with
  | nil => rfl
  | append_singleton records record ih =>
    rw [List.foldl_append, List.foldl_cons, List.foldl_nil, lastUnder?, List.reverse_concat,
      List.find?_cons]
    by_cases h : Key.ofRecord record = key
    · simp only [h, decide_true]
      rw [← h, record?_putRecord_self]
      rfl
    · simp only [h, decide_false]
      rw [record?_putRecord_of_ne h, ih]
      rfl

theorem foldl_putRecord_isOpen (records : List Record) (st : Store) :
    (records.foldl putRecord st).isOpen = st.isOpen := by
  induction records generalizing st with
  | nil => rfl
  | cons record records ih => rw [List.foldl_cons, ih, putRecord_isOpen]

theorem upserted_isOpen (s : Shared φ) (record : Record) :
    (upserted s record).store.isOpen = s.store.isOpen :=
  putRecord_isOpen s.store record

theorem upserted_events (s : Shared φ) (record : Record) :
    (upserted s record).store.events = s.store.events :=
  putRecord_events s.store record

theorem foldl_upserted_store (records : List Record) (s : Shared φ) :
    (records.foldl upserted s).store = records.foldl putRecord s.store := by
  induction records generalizing s with
  | nil => rfl
  | cons record records ih =>
    rw [List.foldl_cons, ih]
    rfl

theorem foldl_upserted_isOpen (records : List Record) (s : Shared φ) :
    (records.foldl upserted s).store.isOpen = s.store.isOpen := by
  rw [foldl_upserted_store, foldl_putRecord_isOpen]

theorem foldl_upserted_events (records : List Record) (s : Shared φ) :
    (records.foldl upserted s).store.events = s.store.events := by
  induction records generalizing s with
  | nil => rfl
  | cons record records ih => rw [List.foldl_cons, ih, upserted_events]

theorem foldl_upserted_stopped (records : List Record) (s : Shared φ) :
    (records.foldl upserted s).stopped = s.stopped := by
  induction records generalizing s with
  | nil => rfl
  | cons record records ih =>
    rw [List.foldl_cons, ih]
    rfl

theorem exec_upsert (record : Record) {s : Shared φ} (hs : s.store.isOpen = true) :
    s.exec source (upsert record).run = (.ok (), upserted s record) := by
  have write : s.exec source (ask (.call (.writeRecord record))).run =
      (.ok (), { s with store := s.store.putRecord record }) := by
    change Shared.perform source (.writeRecord record) s = _
    simp [Shared.perform, Store.writeRecord, Store.whenOpen, hs]
  rw [upsert, Shared.exec_run_bind, write]
  simp only [Shared.exec_run_bind, Shared.exec_run_lift]
  rfl

theorem exec_upsertAll (records : List Record) {s : Shared φ} (hs : s.store.isOpen = true) :
    s.exec source (upsertAll records).run = (.ok (), records.foldl upserted s) := by
  induction records generalizing s with
  | nil => rfl
  | cons record records ih =>
    rw [upsertAll, Shared.exec_run_bind, exec_upsert record hs, List.foldl_cons]
    exact ih (by rw [upserted_isOpen, hs])

theorem exec_upsertPage (p : Page) {s : Shared φ} (hs : s.store.isOpen = true) :
    s.exec source (upsertPage p).run = (.ok p.records.length, p.records.foldl upserted s) := by
  rw [upsertPage, Shared.exec_run_bind, exec_upsertAll p.records hs]
  rfl

def WritesCatalog : Access → Prop
  | .writeRecord _ | .bumpGeneration | .forget _ => True
  | _ => False

theorem upsert_within (record : Record) : (upsert record).run.Within WritesCatalog := by
  refine Procedure.Within.run_bind ⟨trivial, fun _ => trivial⟩ fun _ => ?_
  refine Procedure.Within.run_bind ⟨trivial, fun _ => trivial⟩ fun _ => ?_
  exact ⟨trivial, fun _ => trivial⟩

theorem upsertAll_within (records : List Record) :
    (upsertAll records).run.Within WritesCatalog := by
  induction records with
  | nil => trivial
  | cons record records ih => exact Procedure.Within.run_bind (upsert_within record) fun _ => ih

theorem upsertPage_within (p : Page) : (upsertPage p).run.Within WritesCatalog :=
  Procedure.Within.run_bind (upsertAll_within p.records) fun _ => trivial

end AddressLedger.Catalog
