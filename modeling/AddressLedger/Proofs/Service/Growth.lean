import AddressLedger.Proofs.Catalog.Writes
import AddressLedger.Proofs.Service.Monitor
import AddressLedger.Proofs.Store.Insertion

/-!
# The event table grows

Of all accesses only the insertion of events touches the event table, and it adds rows at the end.
So whatever calls do, alone or in turns, the rows that were there stay in their places.
-/
namespace AddressLedger.Service
open Catalog Feed Store

variable {φ α : Type} {source : PageSource φ}

theorem events_insertEvents (s : Store) (es : List Event) :
    (s.insertEvents es).2.events =
      if s.isOpen then s.events ++ (novel s.events.keys es).map Row.ofEvent else s.events := by
  rw [Store.insertEvents, Events.insertAll_eq]
  cases s.isOpen <;> rfl

/-- What an access makes of the event table. -/
theorem events_perform (source : PageSource φ) (a : Access) (s : Shared φ) :
    (s.perform source a).2.store.events =
      match a with
      | .insertEvents es => (s.store.insertEvents es).2.events
      | _ => s.store.events := by
  cases a with
  | fetchPage address cursor => rw [Shared.perform, fetchPage_store]
  | writeRecord record =>
    simp only [Shared.perform, Store.writeRecord]
    split
    · exact putRecord_events s.store record
    · rfl
  | _ => rfl

theorem prefix_insertEvents (s : Store) (es : List Event) :
    s.events <+: (s.insertEvents es).2.events := by
  rw [events_insertEvents]
  split
  · exact List.prefix_append _ _
  · exact List.prefix_rfl

theorem prefix_perform (source : PageSource φ) (a : Access) (s : Shared φ) :
    s.store.events <+: (s.perform source a).2.store.events := by
  rw [events_perform]
  cases a with
  | insertEvents es => exact prefix_insertEvents s.store es
  | _ => exact List.prefix_rfl

def LeavesEvents : Access → Prop
  | .fetchPage _ _ | .insertEvents _ => False
  | _ => True

/-- A call that runs alone keeps the rows that it finds. -/
theorem Shared.prefix_exec (source : PageSource φ) (p : Procedure α) (s : Shared φ) :
    s.store.events <+: (s.exec source p).2.store.events := by
  induction p generalizing s with
  | done result => exact List.prefix_rfl
  | access a next ih => exact (prefix_perform source a s).trans (ih _ _)

theorem Pool.prefix_turn (source : PageSource φ) (p : Pool φ α) (t : Turn) :
    p.shared.store.events <+: (p.turn source t).shared.store.events := by
  rcases turn_cases source p t with ⟨-, -, hdrift⟩ | ⟨i, a, next, -, -, -, hshared⟩
  · exact hdrift.store_eq ▸ List.prefix_rfl
  · rw [hshared]
    exact prefix_perform source a p.shared

/-- Calls that run in turns keep the rows that they find. -/
theorem Pool.prefix_run (source : PageSource φ) (p : Pool φ α) (turns : List Turn) :
    p.shared.store.events <+: (p.run source turns).shared.store.events := by
  induction turns generalizing p with
  | nil => exact List.prefix_rfl
  | cons t turns ih => exact (prefix_turn source p t).trans (ih _)

end AddressLedger.Service
