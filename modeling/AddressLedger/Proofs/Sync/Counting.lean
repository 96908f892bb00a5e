import AddressLedger.Proofs.Service.Growth
import AddressLedger.Proofs.Service.Underway
import AddressLedger.Proofs.Sync.Payloads
import Mathlib.Algebra.BigOperators.Group.Finset.Basic

/-!
# Counting new rows

Every insertion answers how many rows it has added, and a run reports the sum of what its own
insertions were answered. So whatever runs go on together, the event table gains as many rows as
they report when all have ended.
-/
namespace AddressLedger.Sync
open Catalog Feed Service Store

variable {φ α : Type} {source : PageSource φ}

def inserted : Made → Nat
  | ⟨.insertEvents _, .ok count⟩ => count
  | _ => 0

theorem length_perform (source : PageSource φ) (a : Access) (s : Shared φ) :
    (s.perform source a).2.store.events.length =
      s.store.events.length + inserted ⟨a, (s.perform source a).1⟩ := by
  rw [events_perform]
  cases a with
  | insertEvents es =>
    simp only [Shared.perform, Store.insertEvents, Events.insertAll_eq, Store.whenOpen]
    cases s.store.isOpen <;> simp [inserted]
  | _ => rfl

/-- Adds up what the insertions of a call were answered. -/
def counted : Monitor Nat := ⟨fun count e => count + inserted e, fun _ _ => True⟩

theorem counted_lasts (owner : String) : Lasts counted owner fun count x => x = count where
  request hgood _ := ⟨trivial, fun _ => hgood⟩
  study _ _ _ a ha := by
    refine ⟨trivial, fun answer => ?_⟩
    cases a with
    | insertEvents es => exact ha.elim
    | _ => rfl
  insertion hgood _ _ es _ := by
    subst hgood
    refine ⟨trivial, fun answer => ?_⟩
    cases answer <;> rfl

/-- A run reports what its insertions were answered. -/
theorem syncAddress_follows_counted (address : String) (mode : Mode) :
    (syncAddress address mode).Follows counted (fun r count => count = r.count) 0 :=
  syncAddress_follows (counted_lasts _) trivial rfl (fun _ _ h => ⟨trivial, h⟩) mode

theorem sum_moved (state : Nat → Nat) (e : Made) {i n : Nat} (hi : i < n) :
    ∑ j ∈ Finset.range n, Pool.moved counted state (i, e) j =
      ∑ j ∈ Finset.range n, state j + inserted e := by
  have hmoved : ∀ j, Pool.moved counted state (i, e) j =
      state j + if j = i then inserted e else 0 := by
    intro j
    by_cases hj : j = i
    · rw [hj, Pool.moved_self, if_pos rfl]
      rfl
    · rw [Pool.moved_other hj, if_neg hj, Nat.add_zero]
  simp only [hmoved, Finset.sum_add_distrib, Finset.sum_ite_eq', Finset.mem_range, hi, if_true]

/-- The event table gains what the insertions of all calls were answered. -/
theorem length_run {p : Pool φ α} {post : α → Nat → Prop} (hp : p.Follows counted post fun _ => 0)
    (turns : List Turn) :
    (p.run source turns).shared.store.events.length = p.shared.store.events.length +
      ∑ i ∈ Finset.range p.calls.length,
        Pool.states counted (fun _ => 0) (p.log source turns) i := by
  refine (hp.run source (fun s state => s.store.events.length = p.shared.store.events.length +
    ∑ i ∈ Finset.range p.calls.length, state i) turns ?_ ?_ (by simp)).1
  · intro s state i a hmem _ h
    rw [length_perform, h, sum_moved state _ (Pool.lt_of_mem_log hmem), Nat.add_assoc]
  · intro s s' state hdrift h
    rw [hdrift.store_eq, h]

/-- When all runs have ended, the event table has gained as many rows as they report. -/
theorem length_eq_sum_count (source : PageSource φ) (runs : List (String × Mode)) (limit : Nat)
    (s : Shared φ) {turns : List Turn} {results : List SyncResult}
    (hresults : ((runsPool runs limit s).run source turns).results? = some results) :
    ((runsPool runs limit s).run source turns).shared.store.events.length =
      s.store.events.length + (results.map SyncResult.count).sum := by
  have hfollows : (runsPool runs limit s).Follows counted (fun r count => count = r.count)
      fun _ => 0 := by
    intro i call hcall
    rw [runsPool, List.getElem?_map] at hcall
    obtain ⟨run, -, rfl⟩ := Option.map_eq_some_iff.1 hcall
    exact syncAddress_follows_counted run.1 run.2
  have hend := (hfollows.run source (fun _ _ => True) turns (fun _ _ _ _ _ _ _ => trivial)
    (fun _ _ _ _ _ => trivial) trivial).2
  have hcalls := Pool.results?_eq_some_iff.1 hresults
  have hlength : (runsPool runs limit s).calls.length = results.length := by
    rw [← Pool.length_run source _ turns, hcalls, List.length_map]
  rw [length_run hfollows turns, hlength]
  congr 1
  have hcount : results.map SyncResult.count = (List.range results.length).map
      (Pool.states counted (fun _ => 0) ((runsPool runs limit s).log source turns)) := by
    apply List.ext_getElem
    · simp
    · intro i hi _
      rw [List.length_map] at hi
      have hdone : ((runsPool runs limit s).run source turns).calls[i]? =
          some (.done results[i]) := by
        simp [hcalls, hi]
      rw [List.getElem_map, List.getElem_map, List.getElem_range]
      exact (hend i _ hdone).symm
  rw [hcount]
  rfl

end AddressLedger.Sync
