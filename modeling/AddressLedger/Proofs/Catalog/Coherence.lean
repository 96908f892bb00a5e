import AddressLedger.Proofs.Catalog.Phase
import AddressLedger.Proofs.Service.Cache
import AddressLedger.Proofs.Store.Records
import Mathlib.Algebra.GroupWithZero.Nat

/-!
# Cached records are the stored ones

Over any interleaving of catalog calls a cached record is the one in the store, or some call under
way is to drop it. A lookup that began with the present generation has read nothing out of date,
but for records that a writer has stored and not yet counted.
-/
namespace AddressLedger.Catalog
open Feed Service Store

variable {φ : Type} {source : PageSource φ} {s s' : Shared φ} {state : Nat → Phase} {i : Nat}
  {a : Access} {key : Key} {r : Record}

namespace Phase

theorem Drops.next {x : Phase} (h : x.Drops s.generation key) (hadmits : x.admits a)
    (hdrop : a ≠ .forget key) :
    (x.next ⟨a, (s.perform source a).1⟩).Drops (s.perform source a).2.generation key := by
  cases x with
  | looking begun loaded kept =>
    cases a with
    | readRecords kind ids =>
      obtain rfl : kept = [] := hadmits
      exact absurd h.2 List.not_mem_nil
    | keep added record => exact ⟨h.1, .tail _ h.2⟩
    | generation =>
      have hne : s.generation ≠ begun := Nat.ne_of_gt h.1
      simp only [Phase.next, Shared.perform, hne, if_false]
      exact h.2
    | _ => exact hadmits.elim
  | dropping keys =>
    cases a with
    | forget forgotten =>
      have hne : key ≠ forgotten := fun e => hdrop (congrArg Access.forget e.symm)
      exact List.mem_filter.mpr ⟨h, by simpa using hne⟩
    | _ => exact hadmits.elim
  | _ => exact h.elim

theorem Owes.next {x : Phase} (h : x.Owes s.generation key) (hadmits : x.admits a)
    (hdrop : a ≠ .forget key) :
    (x.next ⟨a, (s.perform source a).1⟩).Owes (s.perform source a).2.generation key := by
  cases x with
  | idle => exact h.elim
  | written owed =>
    cases a with
    | bumpGeneration => exact h
    | _ => exact hadmits.elim
  | counted owed =>
    cases a with
    | forget forgotten =>
      obtain rfl : forgotten = owed := hadmits
      exact absurd (congrArg Access.forget h) hdrop
    | _ => exact hadmits.elim
  | looking begun loaded kept =>
    exact (Drops.next (x := .looking begun loaded kept) h hadmits hdrop).owes
  | dropping keys => exact (Drops.next (x := .dropping keys) h hadmits hdrop).owes

theorem Drops.of_le {x : Phase} {generation generation' : Nat} (h : x.Drops generation key)
    (hle : generation ≤ generation') : x.Drops generation' key := by
  cases x with
  | looking begun loaded kept => exact ⟨Nat.lt_of_lt_of_le h.1 hle, h.2⟩
  | _ => exact h

theorem Owes.of_le {x : Phase} {generation generation' : Nat} (h : x.Owes generation key)
    (hle : generation ≤ generation') : x.Owes generation' key := by
  cases x with
  | looking begun loaded kept =>
    exact (Drops.of_le (x := .looking begun loaded kept) h hle).owes
  | _ => exact h

/-- Whether what a lookup has read is stored or just being written, unless the generation tells. -/
def IsSound (s : Shared φ) (isWritten : Key → Prop) : Phase → Prop
  | looking begun loaded _ => begun ≤ s.generation ∧ (begun = s.generation →
      ∀ key r, (key, r) ∈ loaded → s.store.record? key = some r ∨ isWritten key)
  | _ => True

variable {isWritten isWritten' : Key → Prop} {x : Phase}

theorem IsSound.of_same (h : x.IsSound s isWritten) (hgen : s'.generation = s.generation)
    (hread : ∀ key r, s.store.record? key = some r ∨ isWritten key →
      s'.store.record? key = some r ∨ isWritten' key) : x.IsSound s' isWritten' := by
  cases x with
  | looking begun loaded kept =>
    refine ⟨hgen ▸ h.1, fun hbegun key r hmem => hread key r ?_⟩
    exact h.2 (hbegun.trans hgen) key r hmem
  | _ => trivial

theorem IsSound.of_later (h : x.IsSound s isWritten) (hgen : s.generation < s'.generation) :
    x.IsSound s' isWritten' := by
  cases x with
  | looking begun loaded kept =>
    have hlt := Nat.lt_of_le_of_lt h.1 hgen
    exact ⟨Nat.le_of_lt hlt, fun hbegun => absurd hbegun (Nat.ne_of_lt hlt)⟩
  | _ => trivial

end Phase

/-- What holds of the calls of a catalog and what they share between any two accesses. -/
structure Coherent (s : Shared φ) (state : Nat → Phase) : Prop where
  lookups : ∀ i, (state i).IsSound s fun key => ∃ j, state j = .written key
  cached : ∀ key r, s.cached? key = some r →
    s.store.record? key = some r ∨ ∃ j, (state j).Owes s.generation key

abbrev movedBy (source : PageSource φ) (s : Shared φ) (state : Nat → Phase) (i : Nat) (a : Access) :
    Nat → Phase :=
  Pool.moved phases state (i, ⟨a, (s.perform source a).1⟩)

theorem movedBy_self :
    movedBy source s state i a i = (state i).next ⟨a, (s.perform source a).1⟩ :=
  Pool.moved_self state i _

theorem movedBy_other {j : Nat} (h : j ≠ i) : movedBy source s state i a j = state j :=
  Pool.moved_other h state _

theorem written_movedBy {j : Nat} (h : state j = .written key) (hadmits : (state i).admits a)
    (hne : a ≠ .bumpGeneration) : movedBy source s state i a j = .written key := by
  by_cases hj : j = i
  · subst hj
    rw [h] at hadmits
    cases a with
    | bumpGeneration => exact absurd rfl hne
    | _ => exact hadmits.elim
  · rw [movedBy_other hj, h]

/-- How many changes of the catalog an access counts. -/
def changes : Access → Nat
  | .bumpGeneration => 1
  | _ => 0

theorem generation_perform (source : PageSource φ) (s : Shared φ) (a : Access) :
    (s.perform source a).2.generation = s.generation + changes a := by
  cases a with
  | fetchPage address cursor =>
    simp only [Shared.perform, Shared.fetchPage]
    split
    · rfl
    · split <;> rfl
  | _ => rfl

theorem generation_le_perform (source : PageSource φ) (s : Shared φ) (a : Access) :
    s.generation ≤ (s.perform source a).2.generation := by
  rw [generation_perform]
  exact Nat.le_add_right _ _

theorem generation_drift (h : Pool.Drift s s') : s'.generation = s.generation := by
  cases h <;> rfl

theorem generation_run (source : PageSource φ) {α : Type} (p : Pool φ α) (turns : List Turn) :
    (p.run source turns).shared.generation =
      p.shared.generation + ((p.log source turns).map fun entry => changes entry.2.access).sum := by
  induction turns generalizing p with
  | nil => rfl
  | cons t turns ih =>
    rw [Pool.run, List.foldl_cons, ← Pool.run, ih, Pool.log, List.map_append, List.sum_append,
      ← Nat.add_assoc]
    rcases Pool.turn_cases source p t with ⟨hmade, -, hdrift⟩ | ⟨i, a, next, -, hmade, -, hshared⟩
    · rw [hmade, generation_drift hdrift]
      rfl
    · rw [hmade, hshared, generation_perform]
      rfl

/-- A counter of 64 bits tells the generation before some turns from the one after them as this one
does, unless they make `2 ^ 64` changes or more. -/
theorem ofNat_generation_run {α : Type} {p : Pool φ α} {turns : List Turn}
    (h : ((p.log source turns).map fun entry => changes entry.2.access).sum < 2 ^ 64) :
    UInt64.ofNat (p.run source turns).shared.generation = UInt64.ofNat p.shared.generation ↔
      (p.run source turns).shared.generation = p.shared.generation := by
  rw [← UInt64.toNat_inj, UInt64.toNat_ofNat', UInt64.toNat_ofNat', generation_run]
  omega

theorem owes_movedBy {j : Nat} (h : (state j).Owes s.generation key)
    (hadmits : (state i).admits a) (hdrop : a ≠ .forget key) :
    (movedBy source s state i a j).Owes (s.perform source a).2.generation key := by
  by_cases hj : j = i
  · subst hj
    rw [movedBy_self]
    exact h.next hadmits hdrop
  · rw [movedBy_other hj]
    exact h.of_le (generation_le_perform source s a)

namespace Coherent

variable (h : Coherent s state)

include h

theorem cached_before (hadmits : (state i).admits a) (hdrop : a ≠ .forget key)
    (hstore : (s.perform source a).2.store.record? key = s.store.record? key)
    (hr : s.cached? key = some r) :
    (s.perform source a).2.store.record? key = some r ∨
      ∃ j, (movedBy source s state i a j).Owes (s.perform source a).2.generation key := by
  rcases h.cached key r hr with hstored | ⟨j, hj⟩
  · exact .inl (hstore.trans hstored)
  · exact .inr ⟨j, owes_movedBy hj hadmits hdrop⟩

theorem lookups_of_same (hadmits : (state i).admits a) (hne : a ≠ .bumpGeneration)
    (hgen : (s.perform source a).2.generation = s.generation)
    (hstore : (s.perform source a).2.store = s.store)
    (hmover : ∀ isWritten : Key → Prop, (∀ key, (∃ j, state j = .written key) → isWritten key) →
      ((state i).next ⟨a, (s.perform source a).1⟩).IsSound (s.perform source a).2 isWritten)
    (j : Nat) :
    (movedBy source s state i a j).IsSound (s.perform source a).2
      fun key => ∃ j, movedBy source s state i a j = .written key := by
  have hwritten : ∀ key, (∃ j, state j = .written key) →
      ∃ j, movedBy source s state i a j = .written key :=
    fun key ⟨k, hk⟩ => ⟨k, written_movedBy hk hadmits hne⟩
  by_cases hj : j = i
  · subst hj
    rw [movedBy_self]
    exact hmover _ hwritten
  · rw [movedBy_other hj]
    apply (h.lookups j).of_same hgen
    intro key r hread
    rw [hstore]
    exact hread.imp_right (hwritten key)

theorem step_cached (hadmits : (state i).admits (.cached key)) :
    Coherent s (movedBy source s state i (.cached key)) := by
  constructor
  · apply h.lookups_of_same hadmits (by simp) rfl rfl
    intro isWritten _
    cases hphase : state i with
    | idle => trivial
    | _ => rw [hphase] at hadmits; exact hadmits.elim
  · intro asked r hr
    exact h.cached_before hadmits (by simp) rfl hr

theorem step_generation (hadmits : (state i).admits .generation) :
    Coherent s (movedBy source s state i .generation) := by
  constructor
  · apply h.lookups_of_same hadmits (by simp) rfl rfl
    intro isWritten _
    cases hphase : state i with
    | idle => exact ⟨Nat.le_refl _, fun _ key r hmem => absurd hmem List.not_mem_nil⟩
    | looking begun loaded kept =>
      simp only [Phase.next]
      split <;> trivial
    | _ => rw [hphase] at hadmits; exact hadmits.elim
  · intro asked r hr
    exact h.cached_before hadmits (by simp) rfl hr

theorem step_readRecords {kind : Kind} {ids : List String}
    (hadmits : (state i).admits (.readRecords kind ids)) :
    Coherent s (movedBy source s state i (.readRecords kind ids)) := by
  constructor
  · apply h.lookups_of_same hadmits (by simp) rfl rfl
    intro isWritten hkeep
    cases hphase : state i with
    | looking begun loaded kept =>
      have hbefore := h.lookups i
      rw [hphase] at hbefore
      simp only [Shared.perform, readRecords, whenOpen]
      cases hopen : s.store.isOpen with
      | false => trivial
      | true =>
        refine ⟨hbefore.1, fun hbegun key r hmem => ?_⟩
        rcases List.mem_append.mp hmem with hmem | hmem
        · exact (hbefore.2 hbegun key r hmem).imp_right (hkeep key)
        · rcases List.mem_map.mp hmem with ⟨read, hread, heq⟩
          rcases Prod.mk.inj heq with ⟨rfl, rfl⟩
          exact .inl (record?_of_mem_recordsOf hread)
    | _ => rw [hphase] at hadmits; exact hadmits.elim
  · intro asked r hr
    exact h.cached_before hadmits (by simp) rfl hr

theorem kept_covered (hadmits : (state i).admits (.keep key r)) :
    s.store.record? key = some r ∨
      ∃ j, (movedBy source s state i (.keep key r) j).Owes s.generation key := by
  cases hphase : state i with
  | looking begun loaded kept =>
    have hbefore := h.lookups i
    rw [hphase] at hbefore hadmits
    rcases Nat.lt_or_eq_of_le hbefore.1 with hlt | hbegun
    · refine .inr ⟨i, ?_⟩
      rw [movedBy_self, hphase]
      exact ⟨hlt, .head _⟩
    · rcases hbefore.2 hbegun key r hadmits with hstored | ⟨j, hj⟩
      · exact .inl hstored
      · refine .inr ⟨j, ?_⟩
        have hji : j ≠ i := by
          intro e
          rw [e, hphase] at hj
          cases hj
        rw [movedBy_other hji, hj]
        rfl
  | _ => rw [hphase] at hadmits; exact hadmits.elim

/-- What a lookup caches is stored, or is about to be dropped by its writer or by the lookup. -/
theorem step_keep (hadmits : (state i).admits (.keep key r)) :
    Coherent (s.keep key r) (movedBy source s state i (.keep key r)) := by
  constructor
  · apply h.lookups_of_same (a := .keep key r) hadmits (by simp) rfl rfl
    intro isWritten hkeep
    cases hphase : state i with
    | looking begun loaded kept =>
      have hbefore := h.lookups i
      rw [hphase] at hbefore
      exact hbefore.of_same rfl fun key r hread => hread.imp_right (hkeep key)
    | _ => rw [hphase] at hadmits; exact hadmits.elim
  · intro asked found hfound
    by_cases hasked : asked = key
    · subst hasked
      rw [Shared.cached?_keep, if_pos rfl, Option.some.injEq] at hfound
      subst hfound
      exact h.kept_covered hadmits
    · rw [Shared.cached?_keep, if_neg hasked] at hfound
      exact h.cached_before (a := .keep key r) hadmits (by simp) rfl hfound

theorem step_forget (hadmits : (state i).admits (.forget key)) :
    Coherent (s.forget key) (movedBy source s state i (.forget key)) := by
  constructor
  · apply h.lookups_of_same (a := .forget key) hadmits (by simp) rfl rfl
    intro isWritten _
    cases hphase : state i with
    | idle => trivial
    | counted owed => trivial
    | dropping keys => trivial
    | _ => rw [hphase] at hadmits; exact hadmits.elim
  · intro asked r hr
    by_cases hasked : asked = key
    · rw [Shared.cached?_forget, if_pos hasked] at hr
      cases hr
    · rw [Shared.cached?_forget, if_neg hasked] at hr
      exact h.cached_before (a := .forget key) hadmits
        (fun e => hasked (Access.forget.inj e).symm) rfl hr

theorem step_forgetAll (hadmits : (state i).admits .forgetAll) :
    Coherent { s with cache := [] } (movedBy source s state i .forgetAll) := by
  constructor
  · apply h.lookups_of_same (a := .forgetAll) hadmits (by simp) rfl rfl
    intro isWritten _
    cases hphase : state i with
    | idle => trivial
    | _ => rw [hphase] at hadmits; exact hadmits.elim
  · intro asked r hr
    cases hr

/-- A new generation puts all that lookups have read in doubt. -/
theorem step_bumpGeneration (hadmits : (state i).admits .bumpGeneration) :
    Coherent { s with generation := s.generation + 1 }
      (movedBy source s state i .bumpGeneration) := by
  constructor
  · intro j
    by_cases hj : j = i
    · subst hj
      rw [movedBy_self]
      cases hphase : state j with
      | idle => trivial
      | written owed => trivial
      | _ => rw [hphase] at hadmits; exact hadmits.elim
    · rw [movedBy_other hj]
      exact (h.lookups j).of_later (Nat.lt_succ_self s.generation)
  · intro asked r hr
    exact h.cached_before (a := .bumpGeneration) hadmits (by simp) rfl hr

theorem step_writeRecord {record : Record} (hadmits : (state i).admits (.writeRecord record)) :
    Coherent (s.perform source (.writeRecord record)).2
      (movedBy source s state i (.writeRecord record)) := by
  have hidle : state i = .idle := by
    cases hphase : state i with
    | idle => rfl
    | _ => rw [hphase] at hadmits; exact hadmits.elim
  have hread : ∀ key r, (s.store.record? key = some r ∨ ∃ j, state j = .written key) →
      (s.perform source (.writeRecord record)).2.store.record? key = some r ∨
        ∃ j, movedBy source s state i (.writeRecord record) j = .written key := by
    intro key r hread
    rcases hread with hstored | ⟨j, hj⟩
    · by_cases hopen : s.store.isOpen = true
      · by_cases hkey : Key.ofRecord record = key
        · refine .inr ⟨i, ?_⟩
          rw [movedBy_self, hidle, ← hkey]
          simp [Shared.perform, Store.writeRecord, whenOpen, hopen, Phase.next]
        · left
          simp only [Shared.perform, Store.writeRecord, hopen, if_true]
          rw [record?_putRecord_of_ne hkey, hstored]
      · left
        simp only [Shared.perform, Store.writeRecord, hopen]
        exact hstored
    · exact .inr ⟨j, written_movedBy hj hadmits (by simp)⟩
  constructor
  · intro j
    by_cases hj : j = i
    · subst hj
      rw [movedBy_self, hidle]
      simp only [Shared.perform, Store.writeRecord, whenOpen]
      cases s.store.isOpen <;> trivial
    · rw [movedBy_other hj]
      exact (h.lookups j).of_same rfl hread
  · intro key r hr
    rcases h.cached key r hr with hstored | ⟨j, hj⟩
    · rcases hread key r (.inl hstored) with hkept | ⟨j, hj⟩
      · exact .inl hkept
      · refine .inr ⟨j, ?_⟩
        rw [hj]
        rfl
    · exact .inr ⟨j, owes_movedBy hj hadmits (by simp)⟩

/-- Each access of a call in its phase keeps the catalog coherent. -/
theorem step (hadmits : (state i).admits a) :
    Coherent (s.perform source a).2 (movedBy source s state i a) := by
  cases a with
  | writeRecord record => exact h.step_writeRecord hadmits
  | readRecords kind ids => exact h.step_readRecords hadmits
  | generation => exact h.step_generation hadmits
  | bumpGeneration => exact h.step_bumpGeneration hadmits
  | cached key => exact h.step_cached hadmits
  | keep key record => exact h.step_keep hadmits
  | forget key => exact h.step_forget hadmits
  | forgetAll => exact h.step_forgetAll hadmits
  | _ =>
    -- No phase admits an access to the events, the feed or the locks.
    cases hphase : state i <;> rw [hphase] at hadmits <;> exact hadmits.elim

/-- What happens between accesses drops cached records at most. -/
theorem drift (hdrift : Pool.Drift s s') : Coherent s' state := by
  have hstore : s'.store = s.store := by cases hdrift <;> rfl
  have hgen : s'.generation = s.generation := generation_drift hdrift
  constructor
  · intro j
    exact (h.lookups j).of_same hgen fun key r hread => by rwa [hstore]
  · intro key r hr
    rw [hstore, hgen]
    cases hdrift with
    | none => exact h.cached key r hr
    | stop => exact h.cached key r hr
    | expire dropped =>
      rw [Shared.cached?_forget] at hr
      split at hr
      · cases hr
      · exact h.cached key r hr

end Coherent

end AddressLedger.Catalog
