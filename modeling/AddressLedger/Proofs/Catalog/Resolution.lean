import AddressLedger.Catalog.Lookup
import AddressLedger.Proofs.Service.Cache
import AddressLedger.Proofs.Service.Trace
import AddressLedger.Proofs.Store.Records

/-!
# What lookups give

As long as each access tells what one store holds, a lookup gives the stored records of its ids,
whatever part of them is cached, and caches none but these. So it does alone, with the store open
and all that is cached stored; the store is then left as it is, and all that is cached is still
stored.
-/
namespace AddressLedger.Catalog
open Service Store

variable {φ α β : Type} {source : PageSource φ} {st : Store} {g : Nat} {kind : Kind}

/-- A store and a generation, and a cache that holds stored records only. -/
structure IsOver (st : Store) (g : Nat) (s : Shared φ) : Prop where
  store : s.store = st
  generation : s.generation = g
  current : ∀ key r, s.cached? key = some r → st.record? key = some r

/-- Whether a procedure, run alone over a store, leaves it as it is and gives a result of a kind. -/
def Reads (source : PageSource φ) (st : Store) (g : Nat) (p : Procedure α) (post : α → Prop) :
    Prop :=
  ∀ s, IsOver st g s → IsOver st g (s.exec source p).2 ∧ post (s.exec source p).1

namespace Reads

theorem done {result : α} {post : α → Prop} (h : post result) :
    Reads source st g (.done result) post :=
  fun _ hs => ⟨hs, h⟩

theorem bind {p : Procedure α} {k : α → Procedure β} {mid : α → Prop} {post : β → Prop}
    (hp : Reads source st g p mid) (hk : ∀ result, mid result → Reads source st g (k result) post) :
    Reads source st g (p >>= k) post := by
  intro s hs
  rw [Shared.exec_bind]
  rcases hp s hs with ⟨hmid, hresult⟩
  exact hk _ hresult _ hmid

theorem mono {p : Procedure α} {post post' : α → Prop} (h : Reads source st g p post)
    (weaken : ∀ result, post result → post' result) : Reads source st g p post' :=
  fun s hs => (h s hs).imp_right (weaken _)

theorem run_bind {x : StoreProcedure α} {k : α → StoreProcedure β}
    {mid : Except StoreError α → Prop} {post : Except StoreError β → Prop}
    (hx : Reads source st g x.run mid)
    (hok : ∀ result, mid (.ok result) → Reads source st g (k result).run post)
    (herror : ∀ e, mid (.error e) → post (.error e)) : Reads source st g (x >>= k).run post := by
  rw [ExceptT.run_bind]
  apply hx.bind
  intro result hresult
  cases result with
  | ok result => exact hok result hresult
  | error e => exact done (herror e hresult)

theorem run_bind_ok {x : StoreProcedure α} {k : α → StoreProcedure β} {mid : α → Prop}
    {post : Except StoreError β → Prop}
    (hx : Reads source st g x.run fun result => ∃ value, result = .ok value ∧ mid value)
    (hok : ∀ value, mid value → Reads source st g (k value).run post) :
    Reads source st g (x >>= k).run post := by
  refine hx.run_bind (fun result h => ?_) fun e h => ?_
  · obtain ⟨value, hvalue, hmid⟩ := h
    cases hvalue
    exact hok _ hmid
  · rcases h with ⟨value, hvalue, -⟩
    cases hvalue

theorem run_lift {p : Procedure α} {mid : α → Prop} (hp : Reads source st g p mid) :
    Reads source st g (ExceptT.lift p : StoreProcedure α).run
      fun result => ∃ value, result = .ok value ∧ mid value := by
  rw [ExceptT.run_lift, map_eq_pure_bind]
  exact hp.bind fun value h => done ⟨value, rfl, h⟩

end Reads

/-- Whether an answer is what a store gives: no more than stored records from the cache, and all
stored records that are asked for from the tables. -/
def Tells (st : Store) : Made → Prop
  | ⟨.cached key, answer⟩ => ∀ r, answer = some r → st.record? key = some r
  | ⟨.readRecords kind ids, answer⟩ => ∃ records, answer = .ok records ∧
      ∀ r, r ∈ records ↔ ∃ id ∈ ids, st.record? (Key.of kind id) = some r
  | _ => True

/-- An access that looks something up, or caches what is stored or drops it. -/
def Consults (st : Store) : Access → Prop
  | .cached _ | .readRecords _ _ | .generation | .forget _ => True
  | .keep key r => st.record? key = some r
  | _ => False

/-- Whether a procedure consults a store only and gives a result of a kind, as long as each answer
tells what is stored. -/
def Finds (st : Store) (post : α → Prop) : Procedure α → Prop
  | .done result => post result
  | .access a next =>
    Consults st a ∧ ∀ answer, Tells st ⟨a, answer⟩ → Finds st post (next answer)

namespace Finds

theorem bind {p : Procedure α} {k : α → Procedure β} {mid : α → Prop} {post : β → Prop}
    (hp : Finds st mid p) (hk : ∀ result, mid result → Finds st post (k result)) :
    Finds st post (p >>= k) := by
  induction p with
  | done result => exact hk result hp
  | access a next ih => exact ⟨hp.1, fun answer htells => ih answer (hp.2 answer htells)⟩

theorem mono {p : Procedure α} {post post' : α → Prop} (h : Finds st post p)
    (weaken : ∀ result, post result → post' result) : Finds st post' p := by
  induction p with
  | done result => exact weaken result h
  | access a next ih => exact ⟨h.1, fun answer htells => ih answer (h.2 answer htells)⟩

theorem run_bind {x : StoreProcedure α} {k : α → StoreProcedure β} {mid : α → Prop}
    {post : Except StoreError β → Prop}
    (hx : Finds st (fun result => ∃ value, result = .ok value ∧ mid value) x.run)
    (hk : ∀ value, mid value → Finds st post (k value).run) : Finds st post (x >>= k).run := by
  rw [ExceptT.run_bind]
  apply hx.bind
  rintro result ⟨value, rfl, hvalue⟩
  exact hk value hvalue

theorem run_lift {p : Procedure α} {mid : α → Prop} (hp : Finds st mid p) :
    Finds st (fun result => ∃ value, result = .ok value ∧ mid value)
      (ExceptT.lift p : StoreProcedure α).run := by
  rw [ExceptT.run_lift, map_eq_pure_bind]
  exact hp.bind fun value h => ⟨value, rfl, h⟩

end Finds

/-- An open store that finds what another one finds, and a cache of such records. -/
structure IsCurrent (st : Store) (s : Shared φ) : Prop where
  isOpen : s.store.isOpen = true
  stored : ∀ key, s.store.record? key = st.record? key
  cached : ∀ key r, s.cached? key = some r → st.record? key = some r

theorem IsCurrent.tells {s : Shared φ} (h : IsCurrent st s) (source : PageSource φ) (a : Access) :
    Tells st ⟨a, (s.perform source a).1⟩ := by
  cases a with
  | cached key => exact h.cached key
  | readRecords kind ids =>
    refine ⟨s.store.recordsOf kind ids, ?_, fun r => ?_⟩
    · change s.store.readRecords kind ids = _
      rw [readRecords, whenOpen, if_pos h.isOpen]
    · simp only [mem_recordsOf, h.stored]
  | _ => trivial

theorem IsOver.consults {s : Shared φ} (h : IsOver st g s) (source : PageSource φ) {a : Access}
    (ha : Consults st a) : IsOver st g (s.perform source a).2 := by
  cases a with
  | cached key => exact h
  | readRecords kind ids => exact h
  | generation => exact h
  | forget key =>
    refine ⟨h.store, h.generation, fun asked r hr => ?_⟩
    change (s.forget key).cached? asked = some r at hr
    rw [Shared.cached?_forget] at hr
    split at hr
    · cases hr
    · exact h.current asked r hr
  | keep key record =>
    refine ⟨h.store, h.generation, fun asked r hr => ?_⟩
    change (s.keep key record).cached? asked = some r at hr
    rw [Shared.cached?_keep] at hr
    split at hr
    · rename_i hasked
      cases hr
      rw [hasked, ha]
    · exact h.current asked r hr
  | _ => exact ha.elim

/-- A procedure that consults an open store learns from it what is stored. -/
theorem Finds.reads (hopen : st.isOpen = true) {p : Procedure α} {post : α → Prop}
    (h : Finds st post p) : Reads source st g p post := by
  intro s hs
  induction p generalizing s with
  | done result => exact ⟨hs, h⟩
  | access a next ih =>
    have hcurrent : IsCurrent st s := ⟨hs.store ▸ hopen, fun key => by rw [hs.store], hs.current⟩
    exact ih _ (h.2 _ (hcurrent.tells source a)) _ (hs.consults source h.1)

theorem finds_generation (st : Store) : Finds st (fun _ => True) (Procedure.call .generation) :=
  ⟨trivial, fun _ _ => trivial⟩

theorem finds_consult (st : Store) (kind : Kind) (ids : List String) :
    Finds st (fun found => (∀ entry ∈ found.1, st.record? ⟨kind, entry.1⟩ = some entry.2) ∧
      ∀ id, id ∈ ids ↔ id ∈ found.1.map Prod.fst ∨ id ∈ found.2) (consult kind ids) := by
  induction ids with
  | nil => exact ⟨fun _ h => absurd h List.not_mem_nil, fun id => by simp⟩
  | cons id ids ih =>
    refine ⟨trivial, fun answer hanswer => ?_⟩
    cases answer with
    | some r =>
      refine Finds.bind (p := consult kind ids) ih fun found hfound => ⟨?_, fun asked => ?_⟩
      · rintro entry hmem
        rcases List.mem_cons.mp hmem with rfl | hmem
        · exact hanswer r rfl
        · exact hfound.1 entry hmem
      · rw [List.mem_cons, hfound.2 asked, List.map_cons, List.mem_cons, or_assoc]
    | none =>
      refine Finds.bind (p := consult kind ids) ih
        fun found hfound => ⟨hfound.1, fun asked => ?_⟩
      rw [List.mem_cons, hfound.2 asked, List.mem_cons, or_left_comm]

theorem finds_readAll (st : Store) (kind : Kind) (pieces : List (List String)) :
    Finds st (fun result => ∃ records, result = .ok records ∧ ∀ r, r ∈ records ↔
      ∃ id ∈ pieces.flatten, st.record? (Key.of kind id) = some r) (readAll kind pieces).run := by
  induction pieces with
  | nil => exact ⟨[], rfl, fun r => by simp⟩
  | cons ids rest ih =>
    have hread : Finds st (fun answer : Except StoreError (List Record) => ∃ records,
        answer = .ok records ∧ ∀ r, r ∈ records ↔ ∃ id ∈ ids, st.record? (Key.of kind id) = some r)
        (Procedure.call (.readRecords kind ids)) := ⟨trivial, fun answer h => h⟩
    refine Finds.run_bind hread fun records hrecords => ?_
    refine Finds.run_bind ih fun more hmore => ⟨records ++ more, rfl, fun r => ?_⟩
    rw [List.mem_append, hmore r, hrecords r, List.flatten_cons]
    simp only [List.mem_append, or_and_right, exists_or]

theorem finds_keepAll {records : List Record}
    (h : ∀ r ∈ records, st.record? (Key.of kind r.id) = some r) :
    Finds st (fun _ => True) (keepAll kind records) := by
  induction records with
  | nil => trivial
  | cons record records ih =>
    exact ⟨h record (.head _), fun _ _ => ih fun r hr => h r (.tail _ hr)⟩

theorem finds_forgetAllOf (st : Store) (kind : Kind) (ids : List String) :
    Finds st (fun _ => True) (forgetAllOf kind ids) := by
  induction ids with
  | nil => trivial
  | cons id ids ih => exact ⟨trivial, fun _ _ => ih⟩

/-- What is cached may be dropped again, but is given back. -/
theorem finds_settle {p : Pending} (h : ∀ r ∈ p.loaded, st.record? (Key.of kind r.id) = some r) :
    Finds st (· = Keyed.ofList (p.hits ++ p.loaded.map fun r => ((Key.of kind r.id).id, r)))
      (settle kind p) := by
  refine (finds_keepAll h).bind fun _ _ => (finds_generation st).bind fun found _ => ?_
  by_cases hsame : found = p.generation
  · simp only [hsame, ne_eq, not_true_eq_false, if_false]
    rfl
  · simp only [hsame, ne_eq, not_false_eq_true, if_true]
    exact (finds_forgetAllOf st kind _).bind fun _ _ => rfl

structure Holds (st : Store) (kind : Kind) (ids : List String) (found : Resolved) : Prop where
  value : ∀ id, Keyed.get? id found = if id ∈ ids then st.record? ⟨kind, id⟩ else none
  kinds : ∀ entry ∈ found, entry.2.kind = kind

/-- Entries for all that is stored under some keys, in any order. -/
structure AreStored (st : Store) (kind : Kind) (ids : List String) (entries : Resolved) : Prop where
  stored : ∀ entry ∈ entries, st.record? ⟨kind, entry.1⟩ = some entry.2
  keys : ∀ id, id ∈ entries.map Prod.fst ↔ id ∈ ids ∧ (st.record? ⟨kind, id⟩).isSome

theorem holds_ofList {ids : List String} {entries : Resolved} (h : AreStored st kind ids entries) :
    Holds st kind ids (Keyed.ofList entries) := by
  constructor
  · intro id
    rw [Keyed.get?_ofList (f := fun id => st.record? ⟨kind, id⟩) h.stored]
    have hkey := h.keys id
    by_cases hid : id ∈ ids
    · cases hr : st.record? ⟨kind, id⟩ with
      | none => simp
      | some r => rw [if_pos (hkey.mpr ⟨hid, by rw [hr]; rfl⟩), if_pos hid]
    · rw [if_neg hid, if_neg fun h => hid (hkey.mp h).1]
  · intro entry hmem
    exact (record?_key (h.stored entry (Keyed.mem_ofList hmem))).1

/-- What is cached and what is read for the rest are all that is stored. -/
theorem areStored_append {ids misses : List String} {hits : Resolved} {loaded : List Record}
    (hids : ∀ id ∈ ids, Key.of kind id = ⟨kind, id⟩)
    (hstored : ∀ entry ∈ hits, st.record? ⟨kind, entry.1⟩ = some entry.2)
    (hkeys : ∀ id, id ∈ ids ↔ id ∈ hits.map Prod.fst ∨ id ∈ misses)
    (hloaded : ∀ r, r ∈ loaded ↔ ∃ id ∈ misses, st.record? (Key.of kind id) = some r) :
    AreStored st kind ids (hits ++ loaded.map fun r => ((Key.of kind r.id).id, r)) := by
  have hmiss : ∀ id ∈ misses, Key.of kind id = ⟨kind, id⟩ :=
    fun id h => hids id ((hkeys id).mpr (.inr h))
  constructor
  · intro entry hmem
    rcases List.mem_append.mp hmem with hmem | hmem
    · exact hstored entry hmem
    · rcases List.mem_map.mp hmem with ⟨r, hr, rfl⟩
      rcases (hloaded r).mp hr with ⟨id, -, hfound⟩
      rw [← of_eq, record?_of_id hfound, hfound]
  · intro id
    rw [List.map_append, List.mem_append, List.map_map]
    constructor
    · rintro (hmem | hmem)
      · obtain ⟨entry, hentry, rfl⟩ := List.mem_map.mp hmem
        exact ⟨(hkeys _).mpr (.inl hmem), by rw [hstored entry hentry]; rfl⟩
      · rcases List.mem_map.mp hmem with ⟨r, hr, rfl⟩
        rcases (hloaded r).mp hr with ⟨id, hid, hfound⟩
        have hkey : (Key.of kind r.id).id = id := by rw [record?_of_id hfound, hmiss id hid]
        rw [hmiss id hid] at hfound
        simp only [Function.comp_apply, hkey]
        exact ⟨(hkeys id).mpr (.inr hid), by rw [hfound]; rfl⟩
    · rintro ⟨hid, hsome⟩
      apply ((hkeys id).mp hid).imp_right
      intro hmem
      rcases Option.isSome_iff_exists.mp hsome with ⟨r, hr⟩
      rw [← hmiss id hmem] at hr
      refine List.mem_map.mpr ⟨r, (hloaded r).mpr ⟨id, hmem, hr⟩, ?_⟩
      rw [Function.comp_apply, record?_of_id hr, hmiss id hmem]

theorem finds_load (st : Store) (kind : Kind) (ids : List String) :
    Finds st (fun result => ∃ found, result = .ok found ∧
      match found with
      | .inl hits => AreStored st kind (ids.map fun id => (Key.of kind id).id) hits
      | .inr p => (∀ r ∈ p.loaded, st.record? (Key.of kind r.id) = some r) ∧
          AreStored st kind (ids.map fun id => (Key.of kind id).id)
            (p.hits ++ p.loaded.map fun r => ((Key.of kind r.id).id, r))) (load kind ids).run := by
  have hids : ∀ id ∈ ids.map fun id => (Key.of kind id).id, Key.of kind id = ⟨kind, id⟩ := by
    intro id hid
    obtain ⟨asked, -, rfl⟩ := List.mem_map.mp hid
    rw [of_id_of, ← of_eq]
  apply Finds.run_bind (Finds.run_lift (finds_consult st kind _))
  intro found hfound
  rcases found with ⟨hits, misses⟩
  simp only [List.mem_eraseDups] at hfound
  by_cases hnone : misses.isEmpty = true
  · simp only [hnone, if_true]
    refine ⟨.inl hits, rfl, ?_⟩
    rw [List.isEmpty_iff.mp hnone] at hfound
    have hnothing : ∀ r : Record, r ∈ [] ↔ ∃ id ∈ [], st.record? (Key.of kind id) = some r := by
      simp
    have hall := areStored_append hids hfound.1 hfound.2 hnothing
    exact List.append_nil hits ▸ hall
  · simp only [hnone]
    apply Finds.run_bind (Finds.run_lift (finds_generation st))
    intro begun _
    apply Finds.run_bind (finds_readAll st kind (chunked misses))
    intro loaded hloaded
    rw [flatten_chunked] at hloaded
    refine ⟨_, rfl, fun r hr => ?_, areStored_append hids hfound.1 hfound.2 hloaded⟩
    rcases (hloaded r).mp hr with ⟨id, -, hread⟩
    rw [record?_of_id hread, hread]

/-- A lookup gives the stored records of the keys of its ids. -/
theorem finds_resolve (st : Store) (kind : Kind) (ids : List String) :
    Finds st (fun result => ∃ found, result = .ok found ∧
      Holds st kind (ids.map fun id => (Key.of kind id).id) found) (resolve kind ids).run := by
  apply Finds.run_bind (finds_load st kind ids)
  intro found hfound
  cases found with
  | inl hits => exact ⟨_, rfl, holds_ofList hfound⟩
  | inr p =>
    apply (Finds.run_lift (finds_settle hfound.1)).mono
    intro result hresult
    rcases hresult with ⟨found, rfl, rfl⟩
    exact ⟨_, rfl, holds_ofList hfound.2⟩

theorem reads_resolve (hopen : st.isOpen = true) (kind : Kind) (ids : List String) :
    Reads source st g (resolve kind ids).run fun result => ∃ found, result = .ok found ∧
      Holds st kind (ids.map fun id => (Key.of kind id).id) found :=
  (finds_resolve st kind ids).reads hopen

theorem finds_partsOf (st : Store) (ids : List String) {pick : Record → Option α}
    (hpick : ∀ r : Record, r.kind = kind → (pick r).isSome) :
    Finds st (fun result => ∃ table, result = .ok table ∧ ∀ id, Keyed.get? id table =
        if id ∈ ids.map fun id => (Key.of kind id).id then (st.record? ⟨kind, id⟩).bind pick
        else none) (partsOf pick <$> resolve kind ids).run := by
  rw [map_eq_pure_bind]
  apply Finds.run_bind (finds_resolve st kind ids)
  intro found hfound
  refine ⟨_, rfl, fun id => ?_⟩
  rw [partsOf, Keyed.get?_filterMap fun entry hmem => hpick _ (hfound.kinds entry hmem),
    hfound.value id]
  split <;> rfl

theorem finds_resolveTokens (st : Store) (ids : List String) :
    Finds st (fun result => ∃ tokens, result = .ok tokens ∧ ∀ id, Keyed.get? id tokens =
      if id ∈ ids then (st.record? ⟨.token, id⟩).bind Record.token? else none)
      (resolveTokens ids).run := by
  have hpick : ∀ r : Record, r.kind = .token → r.token?.isSome := by
    intro r hr
    cases r with
    | token t => rfl
    | _ => cases hr
  rw [resolveTokens]
  simpa only [Key.of, List.map_id'] using finds_partsOf st ids hpick

theorem finds_resolveProjects (st : Store) (ids : List String) :
    Finds st (fun result => ∃ projects, result = .ok projects ∧ ∀ id, Keyed.get? id projects =
      if id ∈ ids then (st.record? ⟨.project, id⟩).bind Record.project? else none)
      (resolveProjects ids).run := by
  have hpick : ∀ r : Record, r.kind = .project → r.project?.isSome := by
    intro r hr
    cases r with
    | project p => rfl
    | _ => cases hr
  rw [resolveProjects]
  simpa only [Key.of, List.map_id'] using finds_partsOf st ids hpick

theorem finds_resolveExchanges (st : Store) (addresses : List String) :
    Finds st (fun result => ∃ exchanges, result = .ok exchanges ∧
      ∀ address, Keyed.get? address exchanges =
        if address ∈ addresses.map Text.lower then
          (st.record? ⟨.counterparty, address⟩).bind Record.counterparty?
        else none) (resolveExchanges addresses).run := by
  have hpick : ∀ r : Record, r.kind = .counterparty → r.counterparty?.isSome := by
    intro r hr
    cases r with
    | counterparty e => rfl
    | _ => cases hr
  exact finds_partsOf st addresses hpick

theorem reads_resolveTokens (hopen : st.isOpen = true) (ids : List String) :
    Reads source st g (resolveTokens ids).run fun result => ∃ tokens, result = .ok tokens ∧
      ∀ id, Keyed.get? id tokens =
        if id ∈ ids then (st.record? ⟨.token, id⟩).bind Record.token? else none :=
  (finds_resolveTokens st ids).reads hopen

theorem reads_resolveProjects (hopen : st.isOpen = true) (ids : List String) :
    Reads source st g (resolveProjects ids).run fun result => ∃ projects, result = .ok projects ∧
      ∀ id, Keyed.get? id projects =
        if id ∈ ids then (st.record? ⟨.project, id⟩).bind Record.project? else none :=
  (finds_resolveProjects st ids).reads hopen

theorem reads_resolveExchanges (hopen : st.isOpen = true) (addresses : List String) :
    Reads source st g (resolveExchanges addresses).run fun result =>
      ∃ exchanges, result = .ok exchanges ∧ ∀ address, Keyed.get? address exchanges =
        if address ∈ addresses.map Text.lower then
          (st.record? ⟨.counterparty, address⟩).bind Record.counterparty?
        else none :=
  (finds_resolveExchanges st addresses).reads hopen

end AddressLedger.Catalog
