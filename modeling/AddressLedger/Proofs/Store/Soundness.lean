import AddressLedger.Proofs.Store.Insertion
import AddressLedger.Proofs.Text.LowerCase

/-!
# Sound event tables

A table is sound if its keys are all different and each of its rows is what some item gives for the
owner that the row is kept under. Adding events of items keeps it so.
-/
namespace AddressLedger.Store
open Feed

variable {owner : String} {i : Item} {e : Event} {r : Row} {rows : Events} {kind : Item → Prop}

/-- The row is the one that the item gives for the owner under which the row is kept. -/
def Row.IsOf (r : Row) (i : Item) : Prop := (Event.ofItem? r.address i).map Row.ofEvent = some r

/-- An owner in lower case has the same events. -/
theorem ofItem?_lower (owner : String) (i : Item) :
    Event.ofItem? (Text.lower owner) i = Event.ofItem? owner i := by
  simp [Event.ofItem?]

theorem isOf_of_ofItem? (h : Event.ofItem? owner i = some e) : (Row.ofEvent e).IsOf i := by
  have haddress : (Row.ofEvent e).address = Text.lower owner := Event.address_of_ofItem? h
  rw [Row.IsOf, haddress, ofItem?_lower, h]
  rfl

theorem Row.IsOf.named (h : r.IsOf i) :
    r.id ≠ "" ∧ r.chain ≠ "" ∧ Text.lower r.address = r.address := by
  rcases Option.map_eq_some_iff.1 h with ⟨e, he, hrow⟩
  rcases Event.ofItem?_eq_some he with ⟨-, hid, -, hchain, -⟩
  have haddress : Text.lower r.address = r.address := by
    rw [← Event.address_of_ofItem? he, ← hrow]
    rfl
  exact ⟨hrow ▸ hid, hrow ▸ hchain, haddress⟩

theorem Row.IsOf.payload (h : r.IsOf i) : r.payload = i.encode := by
  rcases Option.map_eq_some_iff.1 h with ⟨e, he, rfl⟩
  rw [Row.ofEvent, Event.payload_of_ofItem? he]

/-- The keys are all different, and the rows are of items of a kind. -/
structure IsSound (kind : Item → Prop) (rows : Events) : Prop where
  nodup : rows.keys.Nodup
  derived : ∀ r ∈ rows, ∃ i, kind i ∧ r.IsOf i

theorem isSound_nil (kind : Item → Prop) : IsSound kind [] := ⟨.nil, by simp⟩

theorem IsSound.append_novel (h : IsSound kind rows) {es : List Event}
    (hes : ∀ e ∈ es, ∃ i, kind i ∧ ∃ owner, Event.ofItem? owner i = some e) :
    IsSound kind (rows ++ (novel rows.keys es).map Row.ofEvent) := by
  constructor
  · rw [Events.keys_append]
    exact nodup_append_novel h.nodup es
  · intro r hr
    rcases List.mem_append.1 hr with hr | hr
    · exact h.derived r hr
    · obtain ⟨e, he, rfl⟩ := List.mem_map.1 hr
      obtain ⟨i, hkind, owner, hevent⟩ := hes e ((novel_sublist _ _).mem he)
      exact ⟨i, hkind, isOf_of_ofItem? hevent⟩

end AddressLedger.Store
