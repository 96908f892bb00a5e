import AddressLedger.Feed.Item
import AddressLedger.Text.Lower

/-!
# Events

A ledger item as seen from one owned address. An event has a key of id, chain and address, and is
never changed once it is stored.
-/
namespace AddressLedger

open Feed

structure EventKey where
  id : String
  chain : String
  address : String
  deriving DecidableEq

structure Event where
  id : String
  chain : String
  address : String
  cateId : Option String
  timeAt : Option Int64
  isScam : Bool
  payload : Item

namespace Event

def key (e : Event) : EventKey := ⟨e.id, e.chain, e.address⟩

/-- The event of an item for an owner; none if the item has no id or no chain. -/
def ofItem? (owner : String) (i : Item) : Option Event := do
  let id ← i.id.filter (· ≠ "")
  let chain ← i.chain.filter (· ≠ "")
  return ⟨id, chain, Text.lower owner, i.cateId, i.timestamp, i.isScam, i⟩

/-- An event has all that it says from its item and its owner. -/
theorem ofItem?_eq_some {owner : String} {i : Item} {e : Event} (h : ofItem? owner i = some e) :
    i.id = some e.id ∧ e.id ≠ "" ∧ i.chain = some e.chain ∧ e.chain ≠ "" ∧
      e = ⟨e.id, e.chain, Text.lower owner, i.cateId, i.timestamp, i.isScam, i⟩ := by
  simp only [ofItem?, Option.bind_eq_bind, Option.bind_eq_some_iff, Option.pure_def,
    Option.filter_eq_some_iff, Option.some.injEq] at h
  rcases h with ⟨id, ⟨hid, hne⟩, chain, ⟨hchain, hne'⟩, rfl⟩
  exact ⟨hid, by simpa using hne, hchain, by simpa using hne', rfl⟩

theorem payload_of_ofItem? {owner : String} {i : Item} {e : Event} (h : ofItem? owner i = some e) :
    e.payload = i := by
  rw [(ofItem?_eq_some h).2.2.2.2]

theorem address_of_ofItem? {owner : String} {i : Item} {e : Event}
    (h : ofItem? owner i = some e) : e.address = Text.lower owner := by
  rw [(ofItem?_eq_some h).2.2.2.2]

end Event

end AddressLedger
