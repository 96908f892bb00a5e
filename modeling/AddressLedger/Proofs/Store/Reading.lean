import AddressLedger.Proofs.Feed.Payload
import AddressLedger.Proofs.Store.Insertion
import AddressLedger.Store.Basic

/-!
# Reading events

If the stored items of all rows can be read back, a reader is given the events themselves: those of
its window, and no failure.
-/
namespace AddressLedger.Store
open Feed

variable {es : List Event} {e : Event} {s : Store}

/-- The row of an event gives the event again. -/
def ReadsBack (e : Event) : Prop := (Row.ofEvent e).toEvent = .ok e

theorem readsBack_iff : ReadsBack e ↔ Item.ofText e.payload.encode = .ok e.payload := by
  rw [ReadsBack, Row.toEvent, Row.ofEvent]
  cases Item.ofText e.payload.encode with
  | error fault => simp
  | ok item =>
    obtain ⟨id, chain, address, cateId, timeAt, isScam, payload⟩ := e
    simp

/-- An item that was decoded anywhere reads back from the row of its event. -/
theorem readsBack_of_decode {depth : Nat} {tree : Json.Raw}
    (h : Item.decode depth tree = .ok e.payload) : ReadsBack e :=
  readsBack_iff.mpr (Item.ofText_encode h)

/-- The matching events from an offset on, at most `limit` of them, in the order of reading. -/
def eventWindow (es : List Event) (q : EventQuery) (offset limit : Int) : List Event :=
  (((es.filter fun e => q.matches (Row.ofEvent e)).mergeSort
    fun a b => timeLe a.timeAt b.timeAt).drop offset.toNat).take limit.toNat

theorem window_map_ofEvent (es : List Event) (q : EventQuery) (offset limit : Int) :
    Events.window (es.map Row.ofEvent) q offset limit =
      (eventWindow es q offset limit).map Row.ofEvent := by
  rw [Events.window, Events.ordered, eventWindow, List.map_take, List.map_drop, List.filter_map,
    List.map_mergeSort]
  · rfl
  · intro a _ b _
    rfl

theorem mem_of_mem_eventWindow {q : EventQuery} {offset limit : Int}
    (h : e ∈ eventWindow es q offset limit) : e ∈ es := by
  have hsorted := List.mem_of_mem_drop (List.mem_of_mem_take h)
  exact (List.mem_filter.1 (List.mem_mergeSort.1 hsorted)).1

theorem mapM_toEvent (h : ∀ e ∈ es, ReadsBack e) :
    (es.map Row.ofEvent).mapM Row.toEvent = .ok es := by
  induction es with
  | nil => rfl
  | cons e es ih =>
    have he : (Row.ofEvent e).toEvent = .ok e := h e List.mem_cons_self
    rw [List.map_cons, List.mapM_cons, he, ih fun f hf => h f (List.mem_cons_of_mem _ hf)]
    rfl

/-- A reader of a table whose rows can all be read back. -/
theorem fetchEvents_eq (hrows : s.events = es.map Row.ofEvent) (h : ∀ e ∈ es, ReadsBack e)
    (q : EventQuery) (offset limit : Int) :
    s.fetchEvents q offset limit =
      if q.owners.isEmpty ∨ limit ≤ 0 then .ok []
      else s.whenOpen (eventWindow es q offset limit) := by
  rw [fetchEvents, hrows, window_map_ofEvent]
  split
  · rfl
  · rw [whenOpen, whenOpen]
    cases s.isOpen with
    | false => rfl
    | true => exact mapM_toEvent fun e he => h e (mem_of_mem_eventWindow he)

end AddressLedger.Store
