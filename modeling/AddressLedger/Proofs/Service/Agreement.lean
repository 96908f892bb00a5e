import AddressLedger.Proofs.Service.Trace

/-!
# States that agree on the events

A call that never looks at the catalog depends on the events, on whether the store is open and on
whether shutdown was asked for. If the feed is a function of the request, such a call does the same
over any two states that agree on these, and leaves states that agree again.
-/
namespace AddressLedger.Service
open Feed Store

variable {φ α : Type} {source : PageSource φ} {s s' : Shared φ}

/-- Whether what a source makes of a request does not depend on the requests before it. -/
def PageSource.IsFixed (source : PageSource φ) : Prop :=
  ∀ address cursor feed feed',
    (source.request address cursor feed).1 = (source.request address cursor feed').1

namespace Shared

/-- Two states with the same events, stores both open or both closed, and shutdown asked for in
both or in neither. -/
structure Agrees (s s' : Shared φ) : Prop where
  events : s.store.events = s'.store.events
  isOpen : s.store.isOpen = s'.store.isOpen
  stopped : s.stopped = s'.stopped

def IgnoresCatalog : Access → Prop
  | .readRecords _ _ | .cached _ | .generation => False
  | _ => True

/-- A fixed source answers alike in two states, unless shutdown was asked for in one of them
only. -/
theorem fetchPage_congr (hfixed : source.IsFixed) (h : s.stopped = s'.stopped) (address : String)
    (cursor : Option Int64) :
    (s.fetchPage source address cursor).1 = (s'.fetchPage source address cursor).1 ∧
      (s.fetchPage source address cursor).2.stopped =
        (s'.fetchPage source address cursor).2.stopped := by
  have hreply := hfixed address cursor s.feed s'.feed
  rw [Shared.fetchPage, Shared.fetchPage, h]
  cases hstopped : s'.stopped with
  | true => exact ⟨rfl, h⟩
  | false =>
    generalize source.request address cursor s.feed = answer at hreply
    generalize source.request address cursor s'.feed = answer' at hreply
    obtain ⟨reply, feed⟩ := answer
    obtain ⟨reply', feed'⟩ := answer'
    obtain rfl : reply = reply' := hreply
    cases reply <;> exact ⟨rfl, rfl⟩

theorem Agrees.fetchPage (hfixed : source.IsFixed) (h : Agrees s s') (address : String)
    (cursor : Option Int64) :
    (s.fetchPage source address cursor).1 = (s'.fetchPage source address cursor).1 ∧
      Agrees (s.fetchPage source address cursor).2 (s'.fetchPage source address cursor).2 := by
  obtain ⟨hanswer, hstopped⟩ := fetchPage_congr hfixed h.stopped address cursor
  refine ⟨hanswer, ?_, ?_, hstopped⟩
  · rw [fetchPage_store, fetchPage_store, h.events]
  · rw [fetchPage_store, fetchPage_store, h.isOpen]

theorem Agrees.perform (hfixed : source.IsFixed) (h : Agrees s s') {a : Access}
    (ha : IgnoresCatalog a) :
    (s.perform source a).1 = (s'.perform source a).1 ∧
      Agrees (s.perform source a).2 (s'.perform source a).2 := by
  cases a with
  | fetchPage address cursor => exact h.fetchPage hfixed address cursor
  | hasEvent key =>
    refine ⟨?_, h⟩
    simp only [Shared.perform, Store.hasEvent, Store.whenOpen, h.events, h.isOpen]
  | fetchEvents query offset limit =>
    refine ⟨?_, h⟩
    simp only [Shared.perform, Store.fetchEvents, Store.whenOpen, h.events, h.isOpen]
  | insertEvents es =>
    simp only [Shared.perform, Store.insertEvents, Store.whenOpen, h.events, h.isOpen]
    refine ⟨trivial, ?_, ?_, h.stopped⟩
    · cases hopen : s'.store.isOpen <;> simp [h.events]
    · cases hopen : s'.store.isOpen <;> simp [h.isOpen, hopen]
  | writeRecord record =>
    simp only [Shared.perform, Store.writeRecord, Store.whenOpen, h.isOpen]
    refine ⟨trivial, ?_, ?_, h.stopped⟩
    · cases hopen : s'.store.isOpen <;> cases record <;> simp [Store.putRecord, h.events]
    · cases hopen : s'.store.isOpen <;> cases record <;> simp [Store.putRecord, h.isOpen, hopen]
  | readRecords kind ids => exact ha.elim
  | cached key => exact ha.elim
  | generation => exact ha.elim
  | _ => exact ⟨rfl, h.events, h.isOpen, h.stopped⟩

/-- Over states that agree a call makes the same accesses with the same answers. -/
theorem Agrees.run (hfixed : source.IsFixed) {p : Procedure α} (hp : p.Within IgnoresCatalog)
    (h : Agrees s s') :
    (s.exec source p).1 = (s'.exec source p).1 ∧
      p.trace (Shared.perform source) s = p.trace (Shared.perform source) s' ∧
        Agrees (s.exec source p).2 (s'.exec source p).2 := by
  induction p generalizing s s' with
  | done result => exact ⟨rfl, rfl, h⟩
  | access a next ih =>
    obtain ⟨hanswer, hstates⟩ := h.perform hfixed hp.1
    have hnext := ih (s.perform source a).1 (hp.2 _) hstates
    change (exec source (next (s.perform source a).1) (s.perform source a).2).1 =
        (exec source (next (s'.perform source a).1) (s'.perform source a).2).1 ∧
      ⟨a, (s.perform source a).1⟩ :: (next (s.perform source a).1).trace _ (s.perform source a).2 =
        ⟨a, (s'.perform source a).1⟩ ::
          (next (s'.perform source a).1).trace _ (s'.perform source a).2 ∧
      Agrees (exec source (next (s.perform source a).1) (s.perform source a).2).2
        (exec source (next (s'.perform source a).1) (s'.perform source a).2).2
    rw [← hanswer]
    exact ⟨hnext.1, congrArg _ hnext.2.1, hnext.2.2⟩

theorem Agrees.pages (hfixed : source.IsFixed) {p : Procedure α} (hp : p.Within IgnoresCatalog)
    (h : Agrees s s') : s.pages source p = s'.pages source p := by
  rw [Shared.pages, Shared.pages, (h.run hfixed hp).2.1]

end Shared

end AddressLedger.Service
