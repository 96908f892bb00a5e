import AddressLedger.Proofs.Catalog.Overlay
import AddressLedger.Proofs.History.Window

/-!
# Histories over any cache

A read of the history looks up what its rows refer to and writes nothing. Whatever is cached, it
gives what it gives over a store in which the cached records stand in the place of the stored ones:
its window in the records of the rows that it reads.
-/
namespace AddressLedger.History
open Catalog Catalog.Ignores Service Store

variable {φ α : Type} {source : PageSource φ} {covered : Key → Prop} {r : HistoryRequest}
  {s : Shared φ}

theorem ignores_partsOf {kind : Kind} (pick : Record → Option α) (ids : List String) :
    Ignores source covered (partsOf pick <$> resolve kind ids).run (Unless fun _ => True) := by
  rw [map_eq_pure_bind]
  exact (ignores_resolve kind ids).run_bind fun _ _ => done trivial

theorem ignores_candidates (minValueUsd : Float) (chunk : List Event) :
    Ignores source covered (candidates minValueUsd chunk).run (Unless fun _ => True) := by
  have hreference : ∀ events : List Event,
      Ignores source covered (referenceFor events).run (Unless fun _ => True) := by
    intro events
    apply (ignores_partsOf _ _).run_bind
    intro tokens _
    apply (ignores_partsOf _ _).run_bind
    intro projects _
    exact (ignores_partsOf _ _).run_bind fun _ _ => done trivial
  exact (hreference _).run_bind fun _ _ => done trivial

theorem ignores_gather (r : HistoryRequest) (groups : Groups) (offset : Nat) :
    Ignores source covered (gather r groups offset).run (Unless fun _ => True) := by
  induction groups, offset using gather.induct r with
  | case1 groups offset h ih =>
    rw [gather, dif_pos h]
    apply (ignores_fetchEvents _ _ _).run_bind
    intro chunk _
    split
    · exact done trivial
    · rename_i hchunk
      exact (ignores_candidates _ _).run_bind fun ts _ => ih chunk hchunk ts
  | case2 groups offset h =>
    rw [gather, dif_neg h]
    exact done trivial

theorem ignores_readHistory (r : HistoryRequest) :
    Ignores source covered (readHistory r).run (Unless fun _ => True) := by
  rw [readHistory]
  split
  · exact done trivial
  · exact (ignores_gather r .empty 0).run_bind fun _ _ => done trivial

/-- A read gives what it gives over the overlaid store. -/
theorem exec_readHistory_overlaid (source : PageSource φ) (r : HistoryRequest)
    (hkeyed : s.IsKeyed) :
    (Shared.exec source (readHistory r).run { s with store := s.overlaid }).1 =
      (s.exec source (readHistory r).run).1 :=
  (ignores_readHistory r _ _ (alike_overlaid hkeyed)).1

theorem isOver_overlaid (hkeyed : s.IsKeyed) :
    IsOver s.overlaid s.generation { s with store := s.overlaid } := by
  refine ⟨rfl, rfl, fun key record hcached => ?_⟩
  have hcached : s.cached? key = some record := hcached
  rw [Shared.record?_overlaid hkeyed, hcached, Option.some_or]

/-- A request returns its window in the records of the rows that it reads, or fails with a row that
cannot be read. -/
theorem readHistory_overlaid (source : PageSource φ) (r : HistoryRequest) (hkeyed : s.IsKeyed)
    (hopen : s.store.isOpen = true) (hbound : s.store.events.length < offsetBound) :
    ∃ rows, r.IsRead s.overlaid rows ∧ (s.exec source (readHistory r).run).1 =
      if r.limit = 0 then .ok [] else (decoded rows).map fun _ => r.window s.overlaid rows := by
  have hread : Reads source s.overlaid s.generation (readHistory r).run _ :=
    reads_readHistory (by simpa using hopen) (by simpa using hbound) r
  rw [← exec_readHistory_overlaid source r hkeyed]
  exact (hread _ (isOver_overlaid hkeyed)).2

/-- A closed store answers a request that does not reach it, and no other. -/
theorem readHistory_closed (source : PageSource φ) (r : HistoryRequest)
    (hclosed : s.store.isOpen = false) : (s.exec source (readHistory r).run).1 =
      if r.distinctOwners = [] ∨ r.limit = 0 then .ok [] else .error .unavailable := by
  rw [readHistory]
  by_cases hnone : r.distinctOwners = [] ∨ r.limit = 0
  · rw [if_pos hnone, if_pos (hnone.imp_left List.isEmpty_iff.mpr)]
    rfl
  · obtain ⟨howners, hlimit⟩ := not_or.mp hnone
    have hfetch : s.exec source (.call (.fetchEvents r.query (0 : Nat) r.chunkSize)) =
        (.error .unavailable, s) := by
      change (s.store.fetchEvents r.query (0 : Nat) r.chunkSize, s) = _
      rw [fetchEvents, if_neg (asks_chunk howners (Nat.pos_of_ne_zero hlimit)), whenOpen, hclosed]
      rfl
    have hfew : Groups.empty.size < r.wanted ∧ 0 < offsetBound := by
      have hsize : Groups.empty.size = 0 := rfl
      simp only [hsize, HistoryRequest.wanted, offsetBound, Nat.pow_eq]
      omega
    have hgather : s.exec source (gather r .empty 0).run = (.error .unavailable, s) := by
      rw [gather, dif_pos hfew, Shared.exec_run_bind, Shared.exec_run_ask, hfetch]
    rw [if_neg hnone, if_neg (mt (Or.imp_left List.isEmpty_iff.mp) hnone), Shared.exec_run_bind,
      hgather]

end AddressLedger.History
