import AddressLedger.History.Reader
import AddressLedger.Proofs.Service.Monitor

/-!
# Reads leave the data alone

A lookup asks the cache and the store, and changes at most what is cached. A read of the history
asks for chunks of events and looks up what they refer to. So neither writes to the store, and the
feed is not asked for anything.
-/
namespace AddressLedger.Service

variable {φ α : Type} {source : PageSource φ}

/-- An access that asks for no page and writes nothing to the store. -/
def LeavesData : Access → Prop
  | .fetchPage _ _ | .insertEvents _ | .writeRecord _ => False
  | _ => True

theorem perform_of_leavesData (source : PageSource φ) {a : Access} (h : LeavesData a)
    (s : Shared φ) :
    (s.perform source a).2.store = s.store ∧ (s.perform source a).2.feed = s.feed := by
  cases a with
  | fetchPage address cursor => exact h.elim
  | insertEvents events => exact h.elim
  | writeRecord record => exact h.elim
  | _ => exact ⟨rfl, rfl⟩

/-- A procedure of such accesses leaves the store and the feed as they are. -/
theorem Shared.exec_of_leavesData (source : PageSource φ) {p : Procedure α}
    (h : p.Within LeavesData) (s : Shared φ) :
    (s.exec source p).2.store = s.store ∧ (s.exec source p).2.feed = s.feed := by
  induction p generalizing s with
  | done result => simp
  | access a next ih =>
    have hfirst := perform_of_leavesData source h.1 s
    have hrest := ih _ (h.2 (s.perform source a).1) (s.perform source a).2
    simp [Shared.exec_access, hfirst, hrest]

end AddressLedger.Service

namespace AddressLedger.Catalog
open Service

variable {kind : Kind}

theorem consult_leavesData (ids : List String) : (consult kind ids).Within LeavesData := by
  induction ids with
  | nil => trivial
  | cons id ids ih =>
    rw [consult]
    refine Procedure.Within.bind ⟨trivial, fun _ => trivial⟩ fun cached => ?_
    cases cached with
    | some record => exact ih.bind fun _ => trivial
    | none => exact ih.bind fun _ => trivial

theorem readAll_leavesData (pieces : List (List String)) :
    (readAll kind pieces).run.Within LeavesData := by
  induction pieces with
  | nil => trivial
  | cons ids pieces ih =>
    rw [readAll]
    refine Procedure.Within.run_bind ⟨trivial, fun _ => trivial⟩ fun records => ?_
    exact ih.run_bind fun _ => trivial

theorem keepAll_leavesData (records : List Record) :
    (keepAll kind records).Within LeavesData := by
  induction records with
  | nil => trivial
  | cons record records ih => exact ⟨trivial, fun _ => ih⟩

theorem forgetAllOf_leavesData (ids : List String) :
    (forgetAllOf kind ids).Within LeavesData := by
  induction ids with
  | nil => trivial
  | cons id ids ih => exact ⟨trivial, fun _ => ih⟩

theorem load_leavesData (ids : List String) : (load kind ids).run.Within LeavesData := by
  rw [load]
  apply Procedure.Within.run_bind ((consult_leavesData _).run_lift)
  rintro ⟨hits, misses⟩
  dsimp only
  split
  · trivial
  · refine Procedure.Within.run_bind ⟨trivial, fun _ => trivial⟩ fun generation => ?_
    exact (readAll_leavesData _).run_bind fun _ => trivial

theorem settle_leavesData (p : Pending) : (settle kind p).Within LeavesData := by
  rw [settle]
  apply (keepAll_leavesData p.loaded).bind
  intro _
  refine Procedure.Within.bind ⟨trivial, fun _ => trivial⟩ fun generation => ?_
  split
  · exact (forgetAllOf_leavesData _).bind fun _ => trivial
  · trivial

theorem resolve_leavesData (kind : Kind) (ids : List String) :
    (resolve kind ids).run.Within LeavesData := by
  rw [resolve]
  apply (load_leavesData ids).run_bind
  intro found
  cases found with
  | inl hits => trivial
  | inr pending => exact (settle_leavesData pending).run_lift

end AddressLedger.Catalog

namespace AddressLedger.History
open Catalog Service Store

variable {μ : Type} {m : Monitor μ}

section
variable (hresolve : ∀ kind ids, (resolve kind ids).run.FollowsAlways m)
include hresolve

theorem candidates_followsAlways (minValueUsd : Float) (chunk : List Event) :
    (candidates minValueUsd chunk).run.FollowsAlways m := by
  have hreference : ∀ events, (referenceFor events).run.FollowsAlways m := by
    intro events
    rw [referenceFor]
    apply ((hresolve .token _).run_map _).run_bind
    intro tokens
    apply ((hresolve .project _).run_map _).run_bind
    intro projects
    apply ((hresolve .counterparty _).run_map _).run_bind
    exact fun exchanges => .done _
  exact (hreference _).run_bind fun _ => .done _

variable (hfetch : ∀ x q offset limit, m.admits x (.fetchEvents q offset limit))
include hfetch

theorem gather_followsAlways (r : HistoryRequest) (groups : Groups) (offset : Nat) :
    (gather r groups offset).run.FollowsAlways m := by
  induction groups, offset using gather.induct r with
  | case1 groups offset h ih =>
    rw [gather, dif_pos h]
    refine .run_bind (.of_call fun x => hfetch x _ _ _) fun chunk => ?_
    split
    · exact .done _
    · rename_i hchunk
      exact (candidates_followsAlways hresolve _ chunk).run_bind fun ts => ih chunk hchunk ts
  | case2 groups offset h =>
    rw [gather, dif_neg h]
    exact .done _

/-- What admits lookups and fetches of events, whatever was before, admits a read of the history. -/
theorem readHistory_followsAlways (r : HistoryRequest) : (readHistory r).run.FollowsAlways m := by
  rw [readHistory]
  split
  · exact .done _
  · exact (gather_followsAlways hresolve hfetch r .empty 0).run_bind fun _ => .done _

end

/-- A read of the history writes nothing to the store and asks the feed for nothing, whatever it is
answered. -/
theorem readHistory_leavesData (r : HistoryRequest) : (readHistory r).run.Within LeavesData := by
  have hfollows : (readHistory r).run.FollowsAlways (steady LeavesData) :=
    readHistory_followsAlways (fun kind ids => .of_within (resolve_leavesData kind ids)
      fun _ _ h => h) (fun _ _ _ _ => trivial) r
  exact (hfollows ()).within fun _ _ h => h

end AddressLedger.History
