import AddressLedger.Proofs.Text.LowerCase
import AddressLedger.Store.Basic

/-!
# Catalog tables

A stored record has the kind and the id of the key under which it is found. A write changes what is
found under its own key only, and a read finds each of its records under the key that callers ask
with.
-/
namespace AddressLedger.Store
open Catalog

variable {s : Store} {key : Key} {r record : Record}

theorem record?_key (h : s.record? key = some r) : r.kind = key.kind ∧ r.id = key.id := by
  rcases key with ⟨kind, id⟩
  cases kind with
  | project =>
    rcases Option.map_eq_some_iff.mp h with ⟨row, hrow, rfl⟩
    have hid : row.id = id := Table.keyOf_of_get? hrow
    exact ⟨rfl, hid⟩
  | token =>
    obtain ⟨row, hrow, rfl⟩ := Option.map_eq_some_iff.mp h
    have hid : row.id = id := Table.keyOf_of_get? hrow
    exact ⟨rfl, hid⟩
  | counterparty =>
    rcases Option.map_eq_some_iff.mp h with ⟨row, hrow, rfl⟩
    have hid : row.address = id := Table.keyOf_of_get? hrow
    exact ⟨rfl, hid⟩

theorem record?_putRecord_of_ne (h : Key.ofRecord record ≠ key) :
    (s.putRecord record).record? key = s.record? key := by
  rcases key with ⟨kind, id⟩
  cases record with
  | project p => cases kind <;> simp_all [putRecord, record?, Key.ofRecord, Key.of, Record.kind,
      Record.id, Table.get?_put]
  | token t => cases kind <;> simp_all [putRecord, record?, Key.ofRecord, Key.of, Record.kind,
      Record.id, Table.get?_put, storedToken]
  | counterparty e => cases kind <;> simp_all [putRecord, record?, Key.ofRecord, Key.of,
      Record.kind, Record.id, Table.get?_put, storedExchange]

def storedRecord : Record → Record
  | .project p => .project p
  | .token t => .token (storedToken t)
  | .counterparty e => .counterparty (storedExchange e)

theorem record?_putRecord_self (s : Store) (record : Record) :
    (s.putRecord record).record? (Key.ofRecord record) = some (storedRecord record) := by
  cases record with
  | project p => simp [putRecord, record?, Key.ofRecord, Key.of, Record.kind, Record.id,
      Table.get?_put, storedRecord]
  | token t => simp [putRecord, record?, Key.ofRecord, Key.of, Record.kind, Record.id,
      Table.get?_put, storedRecord, storedToken]
  | counterparty e => simp [putRecord, record?, Key.ofRecord, Key.of, Record.kind, Record.id,
      Table.get?_put, storedRecord, storedExchange]

/-- A key that was made from what a caller gives stays as it is when it is made again. -/
@[simp] theorem of_id_of (kind : Kind) (id : String) :
    Key.of kind (Key.of kind id).id = Key.of kind id := by
  cases kind <;> simp [Key.of]

theorem of_eq (kind : Kind) (id : String) : Key.of kind id = ⟨kind, (Key.of kind id).id⟩ := by
  cases kind <;> rfl

theorem mem_recordsOf {kind : Kind} {ids : List String} :
    r ∈ s.recordsOf kind ids ↔ ∃ id ∈ ids, s.record? (Key.of kind id) = some r := by
  simp only [recordsOf, List.mem_filterMap, List.mem_eraseDups, List.mem_map]
  constructor
  · rintro ⟨_, ⟨id, hid, rfl⟩, hr⟩
    exact ⟨id, hid, by rw [of_eq]; exact hr⟩
  · rintro ⟨id, hid, hr⟩
    exact ⟨_, ⟨id, hid, rfl⟩, by rw [← of_eq]; exact hr⟩

theorem record?_of_id {kind : Kind} {id : String} (h : s.record? (Key.of kind id) = some r) :
    Key.of kind r.id = Key.of kind id := by
  rw [(record?_key h).2, of_id_of]

theorem record?_of_mem_recordsOf {kind : Kind} {ids : List String} (h : r ∈ s.recordsOf kind ids) :
    s.record? (Key.of kind r.id) = some r := by
  rcases mem_recordsOf.mp h with ⟨id, -, hr⟩
  rw [record?_of_id hr, hr]

end AddressLedger.Store
