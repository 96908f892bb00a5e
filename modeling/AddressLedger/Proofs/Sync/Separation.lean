import AddressLedger.Proofs.Service.Agreement
import AddressLedger.Proofs.Service.Growth
import AddressLedger.Proofs.Service.Serial
import AddressLedger.Proofs.Sync.Accesses

/-!
# States that agree on one owner

Paging for an owner depends on the rows of this owner alone and adds rows of this owner alone. So it
goes on alike over any two states that agree on them, and pages of other owners between its accesses
do not disturb it.
-/
namespace AddressLedger.Sync
open Catalog Feed Service Store

variable {φ : Type} {source : PageSource φ} {owner : String} {t s : Shared φ} {a : Access}

def rowsOf (owner : String) (rows : Events) : Events := rows.filter fun r => r.address = owner

theorem mem_rowsOf {r : Row} {rows : Events} :
    r ∈ rowsOf owner rows ↔ r ∈ rows ∧ r.address = owner := by
  simp [rowsOf]

theorem mem_keys_rowsOf {rows : Events} {key : EventKey} (h : key.address = owner) :
    key ∈ (rowsOf owner rows).keys ↔ key ∈ rows.keys := by
  simp only [Events.keys, List.mem_map, mem_rowsOf]
  constructor
  · rintro ⟨r, ⟨hr, -⟩, rfl⟩
    exact ⟨r, hr, rfl⟩
  · rintro ⟨r, hr, rfl⟩
    exact ⟨r, ⟨hr, h⟩, rfl⟩

theorem rowsOf_append (rows more : Events) :
    rowsOf owner (rows ++ more) = rowsOf owner rows ++ rowsOf owner more :=
  List.filter_append ..

theorem rowsOf_foreign {es : List Event} (h : ∀ e ∈ es, e.address ≠ owner) :
    rowsOf owner (es.map Row.ofEvent) = [] := by
  rw [rowsOf, List.filter_eq_nil_iff]
  intro r hr
  obtain ⟨e, he, rfl⟩ := List.mem_map.1 hr
  exact fun howner => h e he (of_decide_eq_true howner)

theorem rowsOf_own {es : List Event} (h : ∀ e ∈ es, e.address = owner) :
    rowsOf owner (es.map Row.ofEvent) = es.map Row.ofEvent := by
  rw [rowsOf, List.filter_eq_self]
  intro r hr
  obtain ⟨e, he, rfl⟩ := List.mem_map.1 hr
  exact decide_eq_true (h e he)

/-- Two states with the same rows of an owner, stores both open or both closed, and shutdown asked
for in both or in neither. -/
structure AgreesOn (owner : String) (t s : Shared φ) : Prop where
  rows : rowsOf owner t.store.events = rowsOf owner s.store.events
  isOpen : t.store.isOpen = s.store.isOpen
  stopped : t.stopped = s.stopped

theorem AgreesOn.refl (owner : String) (s : Shared φ) : AgreesOn owner s s := ⟨rfl, rfl, rfl⟩

theorem AgreesOn.mem_iff {row : Row} (h : AgreesOn row.address t s) :
    row ∈ t.store.events ↔ row ∈ s.store.events := by
  have hrows := congrArg (row ∈ ·) h.rows
  simpa [mem_rowsOf] using hrows

theorem AgreesOn.mem_keys_iff (h : AgreesOn owner t s) {key : EventKey}
    (hkey : key.address = owner) : key ∈ t.store.events.keys ↔ key ∈ s.store.events.keys := by
  rw [← mem_keys_rowsOf hkey, h.rows, mem_keys_rowsOf hkey]

theorem AgreesOn.novel_eq (h : AgreesOn owner t s) {es : List Event}
    (hes : ∀ e ∈ es, e.address = owner) :
    novel t.store.events.keys es = novel s.store.events.keys es :=
  novel_congr_on fun e he => h.mem_keys_iff (hes e he)

def IsQuiet (source : PageSource φ) : Prop :=
  ∀ address cursor feed, ∃ result,
    (source.request address cursor feed).1 = .answered false result

theorem fetchPage_stopped (hquiet : IsQuiet source) (s : Shared φ) (address : String)
    (cursor : Option Int64) : (s.fetchPage source address cursor).2.stopped = s.stopped := by
  rw [Shared.fetchPage]
  split
  · rfl
  · rename_i hrunning
    obtain ⟨result, hreply⟩ := hquiet address cursor s.feed
    generalize source.request address cursor s.feed = answer at hreply ⊢
    obtain ⟨reply, feed⟩ := answer
    obtain rfl : reply = .answered false result := hreply
    simpa using hrunning

/-- What pages for an owner come to, if the owner is in lower case. -/
def OwnPages (owner : String) (a : Access) : Prop := Text.lower owner = owner ∧ PagesFor owner a

theorem AgreesOn.own_of_isLocal (h : AgreesOn owner t s) (ha : OwnPages owner a)
    (hlocal : Shared.IsLocal a) :
    (t.perform source a).1 = (s.perform source a).1 ∧
      AgreesOn owner (t.perform source a).2 (s.perform source a).2 := by
  rcases ha with ⟨howner, ha⟩
  have hopen : (t.perform source a).2.store.isOpen = (s.perform source a).2.store.isOpen := by
    rw [Shared.perform_isOpen, Shared.perform_isOpen, h.isOpen]
  cases a with
  | fetchPage address cursor => exact hlocal.elim
  | hasEvent key =>
    refine ⟨?_, h⟩
    have hkey : t.store.events.contains key = s.store.events.contains key := by
      rw [Bool.eq_iff_iff, Events.contains_iff, Events.contains_iff,
        h.mem_keys_iff (ha.trans howner)]
    simp only [Shared.perform, Store.hasEvent, Store.whenOpen, hkey, h.isOpen]
  | insertEvents es =>
    have hes : ∀ e ∈ es, e.address = owner := fun e he => (ha e he).trans howner
    have hnovel := h.novel_eq hes
    refine ⟨?_, ?_, hopen, h.stopped⟩
    · simp only [Shared.perform, Store.insertEvents, Events.insertAll_eq, Store.whenOpen, hnovel,
        h.isOpen]
    · rw [events_perform, events_perform]
      dsimp only
      rw [events_insertEvents, events_insertEvents, hnovel, h.isOpen]
      split
      · rw [rowsOf_append, rowsOf_append, h.rows]
      · exact h.rows
  | writeRecord record =>
    refine ⟨?_, ?_, hopen, h.stopped⟩
    · simp only [Shared.perform, Store.writeRecord, Store.whenOpen, h.isOpen]
    · rw [events_perform, events_perform]
      exact h.rows
  | bumpGeneration => exact ⟨rfl, h.rows, h.isOpen, h.stopped⟩
  | forget key => exact ⟨rfl, h.rows, h.isOpen, h.stopped⟩
  | _ => exact ha.elim

theorem AgreesOn.own (hfixed : source.IsFixed) (h : AgreesOn owner t s) (ha : OwnPages owner a) :
    (t.perform source a).1 = (s.perform source a).1 ∧
      AgreesOn owner (t.perform source a).2 (s.perform source a).2 := by
  cases a with
  | fetchPage address cursor =>
    obtain ⟨hanswer, hstopped⟩ := Shared.fetchPage_congr hfixed h.stopped address cursor
    refine ⟨hanswer, ?_, ?_, hstopped⟩
    · rw [events_perform, events_perform]
      exact h.rows
    · rw [Shared.perform_isOpen, Shared.perform_isOpen, h.isOpen]
  | _ => exact h.own_of_isLocal ha trivial

def IsOfOther (owner : String) (a : Access) : Prop := ∃ other ≠ owner, OwnPages other a

/-- Pages of another owner add no rows of this one. -/
theorem AgreesOn.spare (hquiet : IsQuiet source) (h : AgreesOn owner t s)
    (ha : IsOfOther owner a) : AgreesOn owner t (s.perform source a).2 := by
  obtain ⟨other, hne, hlower, ha⟩ := ha
  have hopen : t.store.isOpen = (s.perform source a).2.store.isOpen := by
    rw [Shared.perform_isOpen, h.isOpen]
  cases a with
  | fetchPage address cursor =>
    refine ⟨?_, hopen, ?_⟩
    · rw [events_perform]
      exact h.rows
    · exact h.stopped.trans (fetchPage_stopped hquiet s address cursor).symm
  | insertEvents es =>
    have hes : ∀ e ∈ novel s.store.events.keys es, e.address ≠ owner := by
      intro e he
      rw [ha e ((novel_sublist _ _).mem he), hlower]
      exact hne
    refine ⟨?_, hopen, h.stopped⟩
    rw [events_perform]
    dsimp only
    rw [events_insertEvents]
    split
    · rw [rowsOf_append, rowsOf_foreign hes, List.append_nil, h.rows]
    · exact h.rows
  | writeRecord record =>
    refine ⟨?_, hopen, h.stopped⟩
    rw [events_perform]
    exact h.rows
  | hasEvent key => exact h
  | bumpGeneration => exact ⟨h.rows, h.isOpen, h.stopped⟩
  | forget key => exact ⟨h.rows, h.isOpen, h.stopped⟩
  | _ => exact ha.elim

/-- Agreement on an owner is kept by pages for it and not disturbed by pages for others. -/
theorem agreesOn_mirror (hfixed : source.IsFixed) (hquiet : IsQuiet source) (owner : String) :
    Mirror source (OwnPages owner) (IsOfOther owner) (AgreesOn owner) where
  own h ha := h.own hfixed ha
  spare h ha := h.spare hquiet ha
  expire h _ := ⟨h.rows, h.isOpen, h.stopped⟩
  locks h _ _ := ⟨h.rows, h.isOpen, h.stopped⟩

end AddressLedger.Sync
