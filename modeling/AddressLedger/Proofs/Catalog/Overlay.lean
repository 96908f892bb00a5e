import AddressLedger.Catalog.Lookup
import AddressLedger.Proofs.Service.Cache
import AddressLedger.Proofs.Service.Trace
import AddressLedger.Proofs.Store.Records
import Mathlib.Data.List.Basic

/-!
# Lookups over any cache

A cache may hold other records than the store. A lookup that runs alone reads only what is not
cached, and drops nothing else. So it does not depend on what is stored under the keys that are
cached, and does what it would do if the cached records were the stored ones.
-/
namespace AddressLedger.Store
open Catalog

/-- A store with a record, as it is, in the place of the one with its kind and id. -/
def override (s : Store) : Record → Store
  | .project p => { s with projects := Table.put Project.id p s.projects }
  | .token t => { s with tokens := Table.put Token.id t s.tokens }
  | .counterparty e => { s with exchanges := Table.put ExchangeAddress.address e s.exchanges }

theorem record?_override (s : Store) (r : Record) (key : Key) :
    (s.override r).record? key = if Key.mk r.kind r.id = key then some r else s.record? key := by
  rcases key with ⟨kind, id⟩
  cases r <;> cases kind <;>
    simp only [override, record?, Table.get?_put, Record.kind, Record.id, Key.mk.injEq, true_and,
      reduceCtorEq, false_and, if_false] <;>
    split <;> rfl

@[simp] theorem override_events (s : Store) (r : Record) : (s.override r).events = s.events := by
  cases r <;> rfl

@[simp] theorem override_isOpen (s : Store) (r : Record) : (s.override r).isOpen = s.isOpen := by
  cases r <;> rfl

end AddressLedger.Store

namespace AddressLedger.Service.Shared
open Catalog

variable {φ : Type} {s : Shared φ}

/-- Whether records are cached under their own keys. -/
def IsKeyed (s : Shared φ) : Prop :=
  ∀ key r, s.cached? key = some r → r.kind = key.kind ∧ r.id = key.id

/-- The store with the cached records in the place of the stored ones. -/
def overlaid (s : Shared φ) : Store :=
  (s.cache.filter fun entry => Key.mk entry.2.kind entry.2.id = entry.1).foldr
    (fun entry st => st.override entry.2) s.store

@[simp] theorem overlaid_events (s : Shared φ) : s.overlaid.events = s.store.events := by
  rw [overlaid]
  induction s.cache.filter _ with
  | nil => rfl
  | cons entry entries ih => rw [List.foldr_cons, Store.override_events, ih]

@[simp] theorem overlaid_isOpen (s : Shared φ) : s.overlaid.isOpen = s.store.isOpen := by
  rw [overlaid]
  induction s.cache.filter _ with
  | nil => rfl
  | cons entry entries ih => rw [List.foldr_cons, Store.override_isOpen, ih]

theorem record?_overlaid (h : s.IsKeyed) (key : Key) :
    s.overlaid.record? key = (s.cached? key).or (s.store.record? key) := by
  have hown := h key
  rw [overlaid]
  rw [cached?] at hown ⊢
  -- The first entry under a key counts, and `foldr` puts it last.
  generalize s.cache = entries at hown
  induction entries with
  | nil => rfl
  | cons entry entries ih =>
    rw [List.find?_cons] at hown ⊢
    rw [List.filter_cons]
    by_cases hkey : entry.1 = key
    · obtain ⟨hkind, hid⟩ := hown entry.2 (by simp [hkey])
      simp [hkey, hkind, hid, Store.record?_override]
    · rw [beq_false_of_ne hkey] at hown ⊢
      rw [← ih hown]
      split
      · rename_i hself
        have hother : Key.mk entry.2.kind entry.2.id ≠ key := by
          rwa [of_decide_eq_true hself]
        rw [List.foldr_cons, Store.record?_override, if_neg hother]
      · rfl

end AddressLedger.Service.Shared

namespace AddressLedger.Catalog
open Service Store

variable {φ α β : Type} {source : PageSource φ} {covered : Key → Prop} {kind : Kind}

/-- Two states that differ at most in what is stored under some keys, all of which are cached. -/
structure Alike (covered : Key → Prop) (s s' : Shared φ) : Prop where
  cache : s'.cache = s.cache
  generation : s'.generation = s.generation
  events : s'.store.events = s.store.events
  isOpen : s'.store.isOpen = s.store.isOpen
  stored : ∀ key, ¬ covered key → s'.store.record? key = s.store.record? key
  cached : ∀ key, covered key → s.cached? key ≠ none

theorem alike_overlaid {s : Shared φ} (h : s.IsKeyed) :
    Alike (fun key => s.cached? key ≠ none) s { s with store := s.overlaid } := by
  refine ⟨rfl, rfl, s.overlaid_events, s.overlaid_isOpen, fun key hkey => ?_, fun key h => h⟩
  rw [Shared.record?_overlaid h, not_not.1 hkey, Option.none_or]

/-- Whether a procedure, run alone over two such states, gives the same result, of some kind, and
leaves two such states. -/
def Ignores (source : PageSource φ) (covered : Key → Prop) (p : Procedure α) (post : α → Prop) :
    Prop :=
  ∀ s s', Alike covered s s' → (s'.exec source p).1 = (s.exec source p).1 ∧
    Alike covered (s.exec source p).2 (s'.exec source p).2 ∧ post (s.exec source p).1

namespace Ignores

theorem done {result : α} {post : α → Prop} (h : post result) :
    Ignores source covered (.done result) post :=
  fun _ _ halike => ⟨rfl, halike, h⟩

theorem bind {p : Procedure α} {k : α → Procedure β} {mid : α → Prop} {post : β → Prop}
    (hp : Ignores source covered p mid)
    (hk : ∀ result, mid result → Ignores source covered (k result) post) :
    Ignores source covered (p >>= k) post := by
  intro s s' halike
  obtain ⟨hsame, hmid, hresult⟩ := hp s s' halike
  rw [Shared.exec_bind, Shared.exec_bind, hsame]
  exact hk _ hresult _ _ hmid

def Unless (post : α → Prop) : Except StoreError α → Prop
  | .ok result => post result
  | .error _ => True

theorem run_bind {x : StoreProcedure α} {k : α → StoreProcedure β} {mid : α → Prop}
    {post : β → Prop} (hx : Ignores source covered x.run (Unless mid))
    (hk : ∀ result, mid result → Ignores source covered (k result).run (Unless post)) :
    Ignores source covered (x >>= k).run (Unless post) := by
  rw [ExceptT.run_bind]
  apply hx.bind
  intro result hresult
  cases result with
  | ok result => exact hk result hresult
  | error e => exact done trivial

theorem run_lift {p : Procedure α} {post : α → Prop} (hp : Ignores source covered p post) :
    Ignores source covered (ExceptT.lift p : StoreProcedure α).run (Unless post) := by
  rw [ExceptT.run_lift, map_eq_pure_bind]
  exact hp.bind fun result h => done h

end Ignores

open Ignores

theorem ignores_cached (key : Key) : Ignores source covered (.call (.cached key))
    fun answer => answer = none → ¬ covered key := by
  intro s s' h
  refine ⟨?_, h, fun hnone hcovered => h.cached key hcovered hnone⟩
  change s'.cached? key = s.cached? key
  rw [Shared.cached?, h.cache, Shared.cached?]

theorem ignores_generation : Ignores source covered (.call .generation) fun _ => True :=
  fun _ _ h => ⟨h.generation, h, trivial⟩

theorem ignores_keep (key : Key) (r : Record) :
    Ignores source covered (.call (.keep key r)) fun _ => True := by
  intro s s' h
  refine ⟨rfl, ⟨?_, h.generation, h.events, h.isOpen, h.stored, fun asked hasked => ?_⟩, trivial⟩
  · change (s'.keep key r).cache = (s.keep key r).cache
    simp only [Shared.keep, Shared.forget, h.cache]
  · change (s.keep key r).cached? asked ≠ none
    rw [Shared.cached?_keep]
    split
    · exact Option.some_ne_none r
    · exact h.cached asked hasked

theorem ignores_forget {key : Key} (hkey : ¬ covered key) :
    Ignores source covered (.call (.forget key)) fun _ => True := by
  intro s s' h
  refine ⟨rfl, ⟨?_, h.generation, h.events, h.isOpen, h.stored, fun asked hasked => ?_⟩, trivial⟩
  · change (s'.forget key).cache = (s.forget key).cache
    simp only [Shared.forget, h.cache]
  · change (s.forget key).cached? asked ≠ none
    have hne : asked ≠ key := fun same => hkey (same ▸ hasked)
    rw [Shared.cached?_forget, if_neg hne]
    exact h.cached asked hasked

theorem ignores_fetchEvents (query : EventQuery) (offset limit : Int) :
    Ignores source covered (.call (.fetchEvents query offset limit)) (Unless fun _ => True) := by
  intro s s' h
  refine ⟨?_, h, ?_⟩
  · change s'.store.fetchEvents query offset limit = s.store.fetchEvents query offset limit
    simp only [Store.fetchEvents, whenOpen, h.events, h.isOpen]
  · cases (s.exec source (.call (.fetchEvents query offset limit))).1 <;> trivial

theorem ignores_readRecords {ids : List String} (hids : ∀ id ∈ ids, ¬ covered (Key.of kind id)) :
    Ignores source covered (.call (.readRecords kind ids))
      (Unless fun records => ∀ r ∈ records, ¬ covered (Key.of kind r.id)) := by
  intro s s' h
  have hrecords : s'.store.recordsOf kind ids = s.store.recordsOf kind ids := by
    rw [recordsOf, recordsOf]
    apply List.filterMap_congr
    intro id hid
    obtain ⟨asked, hasked, rfl⟩ := List.mem_map.1 (List.mem_eraseDups.1 hid)
    rw [← of_eq]
    exact h.stored _ (hids asked hasked)
  refine ⟨?_, h, ?_⟩
  · change s'.store.readRecords kind ids = s.store.readRecords kind ids
    rw [readRecords, readRecords, whenOpen, whenOpen, hrecords, h.isOpen]
  · change Unless _ (s.store.readRecords kind ids)
    rw [readRecords, whenOpen]
    split
    · intro r hr
      obtain ⟨id, hid, hfound⟩ := mem_recordsOf.1 hr
      rw [record?_of_id hfound]
      exact hids id hid
    · trivial

/-- The ids that are not cached are not covered. -/
theorem ignores_consult (ids : List String) : Ignores source covered (consult kind ids)
    fun found => ∀ id ∈ found.2, id ∈ ids ∧ ¬ covered ⟨kind, id⟩ := by
  induction ids with
  | nil => exact done fun id hid => absurd hid List.not_mem_nil
  | cons id ids ih =>
    rw [consult]
    apply (ignores_cached ⟨kind, id⟩).bind
    intro answer hanswer
    cases answer with
    | some r =>
      refine ih.bind fun found hfound => done fun missed hmissed => ?_
      exact (hfound missed hmissed).imp_left (.tail _)
    | none =>
      refine ih.bind fun found hfound => done fun missed hmissed => ?_
      rcases List.mem_cons.1 hmissed with rfl | hmissed
      · exact ⟨.head _, hanswer rfl⟩
      · exact (hfound missed hmissed).imp_left (.tail _)

theorem ignores_readAll {pieces : List (List String)}
    (h : ∀ id ∈ pieces.flatten, ¬ covered (Key.of kind id)) :
    Ignores source covered (readAll kind pieces).run
      (Unless fun records => ∀ r ∈ records, ¬ covered (Key.of kind r.id)) := by
  induction pieces with
  | nil => exact done fun r hr => absurd hr List.not_mem_nil
  | cons ids rest ih =>
    rw [List.flatten_cons] at h
    apply (ignores_readRecords fun id hid => h id (List.mem_append_left _ hid)).run_bind
    intro records hrecords
    apply (ih fun id hid => h id (List.mem_append_right _ hid)).run_bind
    intro more hmore
    refine done fun r hr => ?_
    rcases List.mem_append.1 hr with hr | hr
    · exact hrecords r hr
    · exact hmore r hr

theorem ignores_keepAll (records : List Record) :
    Ignores source covered (keepAll kind records) fun _ => True := by
  induction records with
  | nil => exact done trivial
  | cons record records ih => exact (ignores_keep _ _).bind fun _ _ => ih

theorem ignores_forgetAllOf {ids : List String} (h : ∀ id ∈ ids, ¬ covered (Key.of kind id)) :
    Ignores source covered (forgetAllOf kind ids) fun _ => True := by
  induction ids with
  | nil => exact done trivial
  | cons id ids ih =>
    apply (ignores_forget (h id (.head _))).bind
    exact fun _ _ => ih fun other hother => h other (.tail _ hother)

theorem ignores_load (ids : List String) : Ignores source covered (load kind ids).run
    (Unless fun found => ∀ p, found = .inr p → ∀ r ∈ p.loaded, ¬ covered (Key.of kind r.id)) := by
  rw [load]
  apply (ignores_consult _).run_lift.run_bind
  rintro ⟨hits, misses⟩ hmisses
  dsimp only at hmisses ⊢
  split
  · exact done fun p hp => by cases hp
  · apply ignores_generation.run_lift.run_bind
    intro generation _
    have hread : ∀ id ∈ (chunked misses).flatten, ¬ covered (Key.of kind id) := by
      rw [flatten_chunked]
      intro id hid
      obtain ⟨hasked, hcovered⟩ := hmisses id hid
      obtain ⟨asked, -, rfl⟩ := List.mem_map.1 (List.mem_eraseDups.1 hasked)
      rwa [of_id_of, of_eq]
    apply (ignores_readAll hread).run_bind
    intro loaded hloaded
    refine done fun p hp => ?_
    obtain rfl := Sum.inr.inj hp
    exact hloaded

theorem ignores_settle {p : Pending} (h : ∀ r ∈ p.loaded, ¬ covered (Key.of kind r.id)) :
    Ignores source covered (settle kind p) fun _ => True := by
  rw [settle]
  apply (ignores_keepAll p.loaded).bind
  intro _ _
  apply ignores_generation.bind
  intro generation _
  split
  · refine (ignores_forgetAllOf fun id hid => ?_).bind fun _ _ => done trivial
    obtain ⟨r, hr, rfl⟩ := List.mem_map.1 hid
    exact h r hr
  · exact done trivial

theorem ignores_resolve (kind : Kind) (ids : List String) :
    Ignores source covered (resolve kind ids).run (Unless fun _ => True) := by
  rw [resolve]
  apply (ignores_load ids).run_bind
  intro found hfound
  cases found with
  | inl hits => exact done trivial
  | inr p => exact (ignores_settle (hfound p rfl)).run_lift

end AddressLedger.Catalog
