import AddressLedger.Proofs.Catalog.Gathering
import AddressLedger.Proofs.Catalog.Staleness

/-!
# A row that is not written any more

What holds of one key between any two accesses of catalog calls and of writes that go to the store
directly: before a call has learnt the stored record of the key, from then on while calls are under
way, and after these have ended.
-/
namespace AddressLedger.Catalog
open Feed Service Store

variable {φ : Type} {source : PageSource φ} {s s' : Shared φ}
  {state : Nat → Phase × Gathering} {i j m : Nat} {a : Access} {key : Key} {r : Record}
  {value : Option Record} {fine : Record → Prop}

def watch : Monitor (Phase × Gathering) := phases.prod gathering

abbrev watchedBy (source : PageSource φ) (s : Shared φ) (state : Nat → Phase × Gathering) (i : Nat)
    (a : Access) : Nat → Phase × Gathering :=
  Pool.moved watch state (i, ⟨a, (s.perform source a).1⟩)

theorem watchedBy_self : watchedBy source s state i a i =
    ((state i).1.next ⟨a, (s.perform source a).1⟩, (state i).2.next ⟨a, (s.perform source a).1⟩) :=
  Pool.moved_self state i _

theorem watchedBy_other (h : j ≠ i) : watchedBy source s state i a j = state j :=
  Pool.moved_other h state _

theorem record?_perform (h : ¬ IsWriteOf key ⟨a, (s.perform source a).1⟩) :
    (s.perform source a).2.store.record? key = s.store.record? key := by
  cases a with
  | writeRecord record =>
    simp only [Shared.perform, Store.writeRecord, whenOpen] at h ⊢
    cases hopen : s.store.isOpen with
    | false => rfl
    | true =>
      simp only [hopen, if_true] at h ⊢
      exact record?_putRecord_of_ne h
  | fetchPage address cursor =>
    simp only [Shared.perform, Shared.fetchPage]
    split
    · rfl
    · split <;> rfl
  | insertEvents es =>
    simp only [Shared.perform, Store.insertEvents]
    split <;> rfl
  | _ => rfl

theorem isSome_record?_perform (source : PageSource φ) (a : Access)
    (h : (s.store.record? key).isSome) :
    ((s.perform source a).2.store.record? key).isSome := by
  by_cases hwrite : IsWriteOf key ⟨a, (s.perform source a).1⟩
  · cases a with
    | writeRecord record =>
      simp only [Shared.perform, Store.writeRecord]
      split
      · by_cases hkey : Key.ofRecord record = key
        · rw [← hkey, record?_putRecord_self]
          rfl
        · rwa [record?_putRecord_of_ne hkey]
      · exact h
    | _ => exact hwrite.elim
  · rwa [record?_perform hwrite]

theorem cached?_perform (h : (s.perform source a).2.cached? key = some r) :
    a = .keep key r ∨
      s.cached? key = some r ∧ a ≠ .forget key ∧ ∀ record, a ≠ .keep key record := by
  cases a with
  | keep kept record =>
    change (s.keep kept record).cached? key = some r at h
    rw [Shared.cached?_keep] at h
    split at h
    · rename_i hkey
      rw [hkey, Option.some.inj h]
      exact .inl rfl
    · rename_i hkey
      exact .inr ⟨h, by simp, fun _ e => hkey (Access.keep.inj e).1.symm⟩
  | forget dropped =>
    change (s.forget dropped).cached? key = some r at h
    rw [Shared.cached?_forget] at h
    split at h
    · cases h
    · rename_i hkey
      exact .inr ⟨h, fun e => hkey (Access.forget.inj e).symm, by simp⟩
  | forgetAll => cases h
  | fetchPage address cursor =>
    simp only [Shared.perform, Shared.fetchPage] at h
    refine .inr ⟨?_, by simp, by simp⟩
    split at h
    · exact h
    · split at h <;> exact h
  | _ => exact .inr ⟨h, by simp, by simp⟩

theorem cached?_drift (h : Pool.Drift s s') (hr : s'.cached? key = some r) :
    s.cached? key = some r := by
  cases h with
  | none => exact hr
  | stop => exact hr
  | expire dropped =>
    rw [Shared.cached?_forget] at hr
    split at hr
    · cases hr
    · exact hr

theorem Phase.looking_of_next {x : Phase} {begun : Nat} {loaded : List (Key × Record)}
    {kept : List Key} (hadmits : x.admits a)
    (h : x.next ⟨a, (s.perform source a).1⟩ = .looking begun loaded kept) :
    (begun = s.generation ∧ loaded = []) ∨ ∃ loaded' kept', x = .looking begun loaded' kept' ∧
      ∀ key r, (key, r) ∈ loaded → (key, r) ∈ loaded' ∨ s.store.record? key = some r := by
  cases x with
  | idle =>
    cases a with
    | generation =>
      injection h with hbegun hloaded
      exact .inl ⟨hbegun.symm, hloaded.symm⟩
    | writeRecord record =>
      simp only [Shared.perform, Store.writeRecord, whenOpen] at h
      split at h <;> cases h
    | _ => cases h
  | looking begun' loaded' kept' =>
    cases a with
    | readRecords kind ids =>
      simp only [Shared.perform, readRecords, whenOpen] at h
      cases hopen : s.store.isOpen with
      | false =>
        rw [hopen] at h
        cases h
      | true =>
        rw [hopen] at h
        injection h with hbegun hloaded
        refine .inr ⟨loaded', kept', by rw [hbegun], fun key r hmem => ?_⟩
        rw [← hloaded, List.mem_append] at hmem
        refine hmem.imp_right fun hmem => ?_
        obtain ⟨read, hread, heq⟩ := List.mem_map.1 hmem
        obtain ⟨rfl, rfl⟩ := Prod.mk.inj heq
        exact record?_of_mem_recordsOf hread
    | keep added record =>
      injection h with hbegun hloaded
      exact .inr ⟨loaded', kept', by rw [hbegun], fun key r hmem => .inl (hloaded ▸ hmem)⟩
    | generation =>
      simp only [Phase.next] at h
      split at h <;> cases h
    | _ => exact hadmits.elim
  | written owed => cases a <;> cases h
  | counted owed => cases a <;> cases h
  | dropping keys => cases a <;> cases h

theorem Gathering.mem_entries_next {x : Gathering}
    (h : (key, r) ∈ (x.next ⟨a, (s.perform source a).1⟩).entries) :
    (key, r) ∈ x.entries ∨ a = .cached key ∧ s.cached? key = some r ∨
      s.store.record? key = some r := by
  cases a with
  | cached asked =>
    obtain h | h := List.mem_append.1 h
    · exact .inl h
    · obtain ⟨found, hfound, heq⟩ := Option.map_eq_some_iff.1 (Option.mem_toList.1 h)
      obtain ⟨rfl, rfl⟩ := Prod.mk.inj heq
      exact .inr (.inl ⟨rfl, hfound⟩)
  | readRecords kind ids =>
    simp only [Shared.perform, readRecords, whenOpen] at h
    cases hopen : s.store.isOpen with
    | false =>
      rw [hopen] at h
      exact .inl h
    | true =>
      rw [hopen] at h
      obtain h | h := List.mem_append.1 h
      · exact .inl h
      · obtain ⟨read, hread, heq⟩ := List.mem_map.1 h
        obtain ⟨rfl, rfl⟩ := Prod.mk.inj heq
        exact .inr (.inr (record?_of_mem_recordsOf hread))
  | _ => exact .inl h

namespace Gathering

variable {x : Gathering}

theorem mem_looked_next (h : key ∈ x.looked) (e : Made) : key ∈ (x.next e).looked := by
  rcases e with ⟨a, answer⟩
  cases a with
  | cached asked => exact .tail _ h
  | readRecords kind ids => cases answer <;> exact h
  | _ => exact h

theorem mem_unkept_next {e : Made} (h : key ∈ x.unkept) (hkeep : ∀ r, e.access ≠ .keep key r) :
    key ∈ (x.next e).unkept := by
  rcases e with ⟨a, answer⟩
  cases a with
  | readRecords kind ids =>
    cases answer with
    | ok records => exact List.mem_append_left _ h
    | error e => exact h
  | keep kept record =>
    have hne : key ≠ kept := fun e => hkeep record (e ▸ rfl)
    exact List.mem_filter.2 ⟨h, by simpa using hne⟩
  | _ => exact h

/-- What a read gives for a key: what is stored, if the key is asked for. -/
theorem last?_keyed_recordsOf (st : Store) (kind : Kind) (ids : List String) (key : Key) :
    Keyed.last? key (keyed kind (st.recordsOf kind ids)) =
      if key ∈ ids.map (Key.of kind) then st.record? key else none := by
  cases hlast : Keyed.last? key (keyed kind (st.recordsOf kind ids)) with
  | some r =>
    obtain ⟨read, hread, heq⟩ := List.mem_map.1 (Keyed.mem_of_last? hlast)
    obtain ⟨rfl, rfl⟩ := Prod.mk.inj heq
    obtain ⟨id, hid, hstored⟩ := mem_recordsOf.1 hread
    rw [record?_of_id hstored, if_pos (List.mem_map_of_mem hid), hstored]
  | none =>
    split
    · rename_i hkey
      obtain ⟨id, hid, rfl⟩ := List.mem_map.1 hkey
      cases hstored : st.record? (Key.of kind id) with
      | none => rfl
      | some r =>
        refine absurd ?_ (Keyed.last?_eq_none_iff.1 hlast)
        refine List.mem_map.2 ⟨(Key.of kind r.id, r), ?_, record?_of_id hstored⟩
        exact List.mem_map_of_mem (mem_recordsOf.2 ⟨id, hid, hstored⟩)
    · rfl

/-- A call that has the stored record of a key goes on to have it. -/
theorem last?_next (hlooked : key ∈ x.looked) (hadmits : x.admits a)
    (h : Keyed.last? key x.entries = s.store.record? key) :
    Keyed.last? key (x.next ⟨a, (s.perform source a).1⟩).entries = s.store.record? key := by
  cases a with
  | cached asked =>
    have hne : asked ≠ key := fun e => hadmits (e ▸ hlooked)
    have hmore : Keyed.last? key ((s.cached? asked).map fun r => (asked, r)).toList = none := by
      rw [Keyed.last?_eq_none_iff]
      cases s.cached? asked <;> simp [Ne.symm hne]
    rw [← h]
    exact Keyed.last?_append.trans (by rw [Shared.perform, hmore, Option.none_or])
  | readRecords kind ids =>
    simp only [Shared.perform, readRecords, whenOpen]
    cases hopen : s.store.isOpen with
    | false => exact h
    | true =>
      refine Keyed.last?_append.trans ?_
      rw [last?_keyed_recordsOf, h]
      split
      · exact Option.or_self
      · exact Option.none_or
  | _ => exact h

end Gathering

theorem drops_watchedBy {k : Nat} (h : (state k).1.Drops s.generation key)
    (hadmits : watch.admits (state i) a) (hdrop : a ≠ .forget key) :
    (watchedBy source s state i a k).1.Drops (s.perform source a).2.generation key := by
  by_cases hk : k = i
  · subst hk
    rw [watchedBy_self]
    exact h.next hadmits.1 hdrop
  · rw [watchedBy_other hk]
    exact h.of_le (generation_le_perform source s a)

/-- All that is cached or gathered under a key is under it in the store too, be it another record:
rows are overwritten and never removed. -/
structure Backed (key : Key) (s : Shared φ) (state : Nat → Phase × Gathering) : Prop where
  begun : ∀ i begun loaded kept, (state i).1 = .looking begun loaded kept → begun ≤ s.generation
  cached : ∀ r, s.cached? key = some r → (s.store.record? key).isSome
  entries : ∀ i r, (key, r) ∈ (state i).2.entries → (s.store.record? key).isSome

theorem Backed.step (h : Backed key s state) (hadmits : watch.admits (state i) a) :
    Backed key (s.perform source a).2 (watchedBy source s state i a) := by
  constructor
  · intro j begun loaded kept hj
    apply Nat.le_trans _ (generation_le_perform source s a)
    by_cases hji : j = i
    · subst hji
      rw [watchedBy_self] at hj
      obtain ⟨rfl, -⟩ | ⟨loaded', kept', hbefore, -⟩ := Phase.looking_of_next hadmits.1 hj
      · exact Nat.le_refl _
      · exact h.begun j _ _ _ hbefore
    · rw [watchedBy_other hji] at hj
      exact h.begun j _ _ _ hj
  · intro r hr
    apply isSome_record?_perform
    obtain rfl | ⟨hr, -⟩ := cached?_perform hr
    · exact h.entries i r hadmits.2
    · exact h.cached r hr
  · intro j r hr
    apply isSome_record?_perform
    by_cases hji : j = i
    · subst hji
      rw [watchedBy_self] at hr
      obtain hr | ⟨-, hr⟩ | hr := Gathering.mem_entries_next hr
      · exact h.entries j r hr
      · exact h.cached r hr
      · exact hr ▸ rfl
    · rw [watchedBy_other hji] at hr
      exact h.entries j r hr

theorem Backed.drift (h : Backed key s state) (hdrift : Pool.Drift s s') : Backed key s' state := by
  constructor
  · intro i begun loaded kept hi
    rw [generation_drift hdrift]
    exact h.begun i _ _ _ hi
  · intro r hr
    rw [hdrift.store_eq]
    exact h.cached r (cached?_drift hdrift hr)
  · intro i r hr
    rw [hdrift.store_eq]
    exact h.entries i r hr

/-- Whether all that lookups with the present generation have read under a key is fine. -/
def HoldFine (key : Key) (fine : Record → Prop) (s : Shared φ)
    (state : Nat → Phase × Gathering) : Prop :=
  ∀ i begun loaded kept, (state i).1 = .looking begun loaded kept →
    begun ≤ s.generation ∧ (begun = s.generation → ∀ r, (key, r) ∈ loaded → fine r)

theorem HoldFine.step (source : PageSource φ) (h : HoldFine key fine s state)
    (hfine : ∀ r, s.store.record? key = some r → fine r) (hadmits : watch.admits (state i) a) :
    HoldFine key fine (s.perform source a).2 (watchedBy source s state i a) := by
  have hle := generation_le_perform source s a
  intro k begun loaded kept hk
  by_cases hki : k = i
  · subst hki
    rw [watchedBy_self] at hk
    obtain ⟨rfl, rfl⟩ | ⟨loaded', kept', hbefore, hloaded⟩ := Phase.looking_of_next hadmits.1 hk
    · exact ⟨hle, fun _ r hr => absurd hr List.not_mem_nil⟩
    · obtain ⟨hbegun, hheld⟩ := h k _ _ _ hbefore
      refine ⟨Nat.le_trans hbegun hle, fun hsame r hr => ?_⟩
      obtain hr | hr := hloaded key r hr
      · exact hheld (Nat.le_antisymm hbegun (hsame ▸ hle)) r hr
      · exact hfine r hr
  · rw [watchedBy_other hki] at hk
    obtain ⟨hbegun, hheld⟩ := h k _ _ _ hk
    exact ⟨Nat.le_trans hbegun hle, fun hsame => hheld (Nat.le_antisymm hbegun (hsame ▸ hle))⟩

/-- What a lookup caches is fine, or the lookup began too early to leave it there. -/
theorem HoldFine.fine_or_drops (h : HoldFine key fine s state)
    (hadmits : watch.admits (state i) (.keep key r)) :
    fine r ∨ (watchedBy source s state i (.keep key r) i).1.Drops s.generation key := by
  have hloaded := hadmits.1
  cases hphase : (state i).1 with
  | looking begun loaded kept =>
    rw [hphase] at hloaded
    obtain ⟨hbegun, hheld⟩ := h i _ _ _ hphase
    obtain hlt | hsame := Nat.lt_or_eq_of_le hbegun
    · right
      rw [watchedBy_self, hphase]
      exact ⟨hlt, .head _⟩
    · exact .inl (hheld hsame r hloaded)
  | _ =>
    rw [hphase] at hloaded
    exact hloaded.elim

/-- A call has learnt the stored record of a key, and nothing writes it any more. What lookups with
the present generation hold and what is cached is fine, unless a lookup is to drop it or the call is
yet to cache what it has learnt. -/
structure Settling (key : Key) (value : Option Record) (fine : Record → Prop) (j : Nat)
    (s : Shared φ) (state : Nat → Phase × Gathering) : Prop where
  stored : s.store.record? key = value
  lookups : HoldFine key fine s state
  cached : ∀ r, s.cached? key = some r →
    fine r ∨ (∃ i, (state i).1.Drops s.generation key) ∨ key ∈ (state j).2.unkept
  looked : key ∈ (state j).2.looked
  learnt : Keyed.last? key (state j).2.entries = value

/-- Whether a lookup holds a record of a key that is not the stored one, under a generation that
will not tell it so. -/
def Phase.HoldsOutdated (s : Shared φ) (key : Key) (r : Record) : Phase → Prop
  | looking begun loaded _ =>
    begun = s.generation ∧ (key, r) ∈ loaded ∧ s.store.record? key ≠ some r
  | _ => False

/-- Whether an access gives the stored record of a key: it is found in the cache, or the store is
read. -/
def Learns (st : Store) (key : Key) : Made → Prop
  | ⟨.cached asked, some r⟩ => asked = key ∧ st.record? key = some r
  | ⟨.readRecords kind ids, .ok _⟩ => key ∈ ids.map (Key.of kind)
  | _ => False

theorem Backed.holdFine (h : Backed key s state)
    (hfine : ∀ r, s.store.record? key = some r → fine r)
    (houtdated : ∀ i r, (state i).1.HoldsOutdated s key r → fine r) :
    HoldFine key fine s state := by
  intro i begun loaded kept hi
  refine ⟨h.begun i _ _ _ hi, fun hsame r hr => ?_⟩
  by_cases hstored : s.store.record? key = some r
  · exact hfine r hstored
  · refine houtdated i r ?_
    rw [hi]
    exact ⟨hsame, hr, hstored⟩

theorem Backed.last?_entries_eq_none (h : Backed key s state) (hnone : s.store.record? key = none) :
    Keyed.last? key (state j).2.entries = none := by
  cases hlast : Keyed.last? key (state j).2.entries with
  | none => rfl
  | some r =>
    have hsome := h.entries j r (Keyed.mem_of_last? hlast)
    rw [hnone] at hsome
    cases hsome

theorem Backed.settling_of_cached (h : Backed key s state)
    (hfine : ∀ r, s.store.record? key = some r → fine r)
    (houtdated : ∀ i r, (state i).1.HoldsOutdated s key r → fine r)
    (hadmits : watch.admits (state j) (.cached key)) (hhit : s.cached? key = some r)
    (hstored : s.store.record? key = some r) :
    Settling key (s.store.record? key) fine j (s.perform source (.cached key)).2
      (watchedBy source s state j (.cached key)) := by
  refine ⟨rfl, (h.holdFine hfine houtdated).step source hfine hadmits,
    fun r' hr' => .inl (hfine r' ?_), ?_, ?_⟩
  · rw [hstored, ← hhit]
    exact hr'
  · rw [watchedBy_self]
    exact .head _
  · rw [watchedBy_self, hstored]
    refine Keyed.last?_append.trans ?_
    simp only [Shared.perform, hhit]
    rw [Option.map_some, Option.toList_some, ← List.nil_append [(key, r)], Keyed.last?_concat,
      if_pos rfl]
    rfl

theorem Backed.settling_of_readRecords (h : Backed key s state)
    (hfine : ∀ r, s.store.record? key = some r → fine r)
    (houtdated : ∀ i r, (state i).1.HoldsOutdated s key r → fine r) {kind : Kind}
    {ids : List String} (hadmits : watch.admits (state j) (.readRecords kind ids))
    (hread : (s.perform source (.readRecords kind ids)).1 = .ok (s.store.recordsOf kind ids))
    (hkey : key ∈ ids.map (Key.of kind)) :
    Settling key (s.store.record? key) fine j (s.perform source (.readRecords kind ids)).2
      (watchedBy source s state j (.readRecords kind ids)) := by
  obtain ⟨id, hid, rfl⟩ := List.mem_map.1 hkey
  refine ⟨rfl, (h.holdFine hfine houtdated).step source hfine hadmits, fun r hr => ?_, ?_, ?_⟩
  · -- What is cached may be outdated, and the refresh is about to write over it.
    obtain ⟨stored, hstored⟩ := Option.isSome_iff_exists.1 (h.cached r hr)
    refine .inr (.inr ?_)
    rw [watchedBy_self, hread, ← record?_of_id hstored]
    exact List.mem_append_right _ (List.mem_map_of_mem (mem_recordsOf.2 ⟨id, hid, hstored⟩))
  · rw [watchedBy_self]
    exact Gathering.mem_looked_next (hadmits.2 id hid) _
  · rw [watchedBy_self, hread]
    refine Keyed.last?_append.trans ?_
    rw [Gathering.last?_keyed_recordsOf, if_pos (List.mem_map_of_mem hid)]
    cases hstored : s.store.record? (Key.of kind id) with
    | some r => rfl
    | none => exact h.last?_entries_eq_none hstored

theorem Backed.settling (h : Backed key s state)
    (hfine : ∀ r, s.store.record? key = some r → fine r)
    (houtdated : ∀ i r, (state i).1.HoldsOutdated s key r → fine r)
    (hadmits : watch.admits (state j) a)
    (hlearns : Learns s.store key ⟨a, (s.perform source a).1⟩) :
    Settling key (s.store.record? key) fine j (s.perform source a).2
      (watchedBy source s state j a) := by
  cases a with
  | cached asked =>
    cases hhit : s.cached? asked with
    | none =>
      simp only [Shared.perform, hhit] at hlearns
      exact hlearns.elim
    | some r =>
      simp only [Shared.perform, hhit] at hlearns
      obtain ⟨rfl, hstored⟩ := hlearns
      exact h.settling_of_cached hfine houtdated hadmits hhit hstored
  | readRecords kind ids =>
    cases hopen : s.store.isOpen with
    | false =>
      simp only [Shared.perform, readRecords, whenOpen, hopen] at hlearns
      exact hlearns.elim
    | true =>
      have hread : (s.perform source (.readRecords kind ids)).1 =
          .ok (s.store.recordsOf kind ids) := by
        simp only [Shared.perform, readRecords, whenOpen, hopen, if_true]
      rw [hread] at hlearns
      exact h.settling_of_readRecords hfine houtdated hadmits hread hlearns
  | _ => exact hlearns.elim

namespace Settling

theorem step (h : Settling key value fine j s state) (hfine : ∀ r, value = some r → fine r)
    (hadmits : watch.admits (state i) a) (hwrite : ¬ IsWriteOf key ⟨a, (s.perform source a).1⟩) :
    Settling key value fine j (s.perform source a).2 (watchedBy source s state i a) := by
  constructor
  · exact (record?_perform hwrite).trans h.stored
  · exact h.lookups.step source (fun r hr => hfine r (h.stored ▸ hr)) hadmits
  · intro r hr
    obtain rfl | ⟨hr, hdrop, hkeep⟩ := cached?_perform hr
    · exact (h.lookups.fine_or_drops hadmits).imp_right fun hdrops => .inl ⟨i, hdrops⟩
    · obtain hr | ⟨k, hk⟩ | hunkept := h.cached r hr
      · exact .inl hr
      · exact .inr (.inl ⟨k, drops_watchedBy hk hadmits hdrop⟩)
      · refine .inr (.inr ?_)
        by_cases hji : j = i
        · subst hji
          rw [watchedBy_self]
          exact Gathering.mem_unkept_next hunkept hkeep
        · rwa [watchedBy_other hji]
  · by_cases hji : j = i
    · subst hji
      rw [watchedBy_self]
      exact Gathering.mem_looked_next h.looked _
    · rw [watchedBy_other hji]
      exact h.looked
  · by_cases hji : j = i
    · subst hji
      rw [watchedBy_self]
      exact (Gathering.last?_next h.looked hadmits.2 (h.learnt.trans h.stored.symm)).trans h.stored
    · rw [watchedBy_other hji]
      exact h.learnt

theorem drift (h : Settling key value fine j s state) (hdrift : Pool.Drift s s') :
    Settling key value fine j s' state := by
  refine ⟨?_, ?_, fun r hr => ?_, h.looked, h.learnt⟩
  · rw [hdrift.store_eq]
    exact h.stored
  · rw [HoldFine, generation_drift hdrift]
    exact h.lookups
  · rw [generation_drift hdrift]
    exact h.cached r (cached?_drift hdrift hr)

end Settling

def Phase.HasEnded : Phase → Prop
  | looking _ _ _ => False
  | dropping keys => keys = []
  | _ => True

theorem Phase.HasEnded.not_drops {x : Phase} (h : x.HasEnded) (generation : Nat) (key : Key) :
    ¬ x.Drops generation key := by
  cases x with
  | looking begun loaded kept => exact h.elim
  | dropping keys =>
    rw [show keys = [] from h]
    exact List.not_mem_nil
  | _ => exact id

/-- The calls that were under way have ended. All that is cached is fine, and so is all that later
calls read and gather. -/
structure Settled (key : Key) (value : Option Record) (fine : Record → Prop) (m : Nat)
    (s : Shared φ) (state : Nat → Phase × Gathering) : Prop where
  stored : s.store.record? key = value
  loaded : ∀ i begun loaded kept, (state i).1 = .looking begun loaded kept →
    ∀ r, (key, r) ∈ loaded → fine r
  cached : ∀ r, s.cached? key = some r → fine r
  entries : ∀ r, (key, r) ∈ (state m).2.entries → fine r
  asked : key ∈ (state m).2.asked → value.isSome → key ∈ (state m).2.entries.map Prod.fst

theorem Settling.settled (h : Settling key value fine j s state)
    (hended : ∀ i, (state i).1.HasEnded) (hkept : (state j).2.unkept = []) {wanted : List Key}
    (hm : (state m).2 = .start wanted) : Settled key value fine m s state := by
  refine ⟨h.stored, fun i begun loaded kept hi => ?_, fun r hr => ?_, fun r hr => ?_,
    fun hasked => ?_⟩
  · have hend := hended i
    rw [hi] at hend
    exact hend.elim
  · obtain hfine | ⟨i, hi⟩ | hunkept := h.cached r hr
    · exact hfine
    · exact absurd hi ((hended i).not_drops _ _)
    · rw [hkept] at hunkept
      exact absurd hunkept List.not_mem_nil
  · rw [hm] at hr
    exact absurd hr List.not_mem_nil
  · rw [hm] at hasked
    exact absurd hasked List.not_mem_nil

theorem Gathering.asked_next {x : Gathering}
    (h : key ∈ x.asked → (s.store.record? key).isSome → key ∈ x.entries.map Prod.fst)
    (hasked : key ∈ (x.next ⟨a, (s.perform source a).1⟩).asked)
    (hstored : (s.store.record? key).isSome) :
    key ∈ (x.next ⟨a, (s.perform source a).1⟩).entries.map Prod.fst := by
  cases a with
  | cached asked => exact List.map_append ▸ List.mem_append_left _ (h hasked hstored)
  | readRecords kind ids =>
    simp only [Shared.perform, readRecords, whenOpen] at hasked ⊢
    cases hopen : s.store.isOpen with
    | false =>
      rw [hopen] at hasked
      exact h hasked hstored
    | true =>
      rw [hopen] at hasked
      refine List.map_append ▸ List.mem_append.2 ?_
      obtain hasked | hasked := List.mem_append.1 hasked
      · exact .inl (h hasked hstored)
      · right
        obtain ⟨r, hr⟩ := Option.isSome_iff_exists.1 hstored
        have hlast := last?_keyed_recordsOf s.store kind ids key
        rw [if_pos hasked, hr] at hlast
        exact List.mem_map_of_mem (Keyed.mem_of_last? hlast)
  | _ => exact h hasked hstored

namespace Settled

theorem step (h : Settled key value fine m s state) (hfine : ∀ r, value = some r → fine r)
    (hadmits : watch.admits (state i) a) (hwrite : ¬ IsWriteOf key ⟨a, (s.perform source a).1⟩) :
    Settled key value fine m (s.perform source a).2 (watchedBy source s state i a) := by
  have hread : ∀ r, s.store.record? key = some r → fine r := fun r hr => hfine r (h.stored ▸ hr)
  constructor
  · exact (record?_perform hwrite).trans h.stored
  · intro k begun loaded kept hk r hr
    by_cases hki : k = i
    · subst hki
      rw [watchedBy_self] at hk
      obtain ⟨-, rfl⟩ | ⟨loaded', kept', hbefore, hloaded⟩ := Phase.looking_of_next hadmits.1 hk
      · exact absurd hr List.not_mem_nil
      · exact (hloaded key r hr).elim (h.loaded k _ _ _ hbefore r) (hread r)
    · rw [watchedBy_other hki] at hk
      exact h.loaded k _ _ _ hk r hr
  · intro r hr
    obtain rfl | ⟨hr, -⟩ := cached?_perform hr
    · have hloaded := hadmits.1
      cases hphase : (state i).1 with
      | looking begun loaded kept =>
        rw [hphase] at hloaded
        exact h.loaded i _ _ _ hphase r hloaded
      | _ =>
        rw [hphase] at hloaded
        exact hloaded.elim
    · exact h.cached r hr
  · intro r hr
    by_cases hmi : m = i
    · subst hmi
      rw [watchedBy_self] at hr
      obtain hr | ⟨-, hr⟩ | hr := Gathering.mem_entries_next hr
      · exact h.entries r hr
      · exact h.cached r hr
      · exact hread r hr
    · rw [watchedBy_other hmi] at hr
      exact h.entries r hr
  · by_cases hmi : m = i
    · subst hmi
      rw [watchedBy_self, ← h.stored]
      exact Gathering.asked_next (h.stored ▸ h.asked)
    · rw [watchedBy_other hmi]
      exact h.asked

theorem drift (h : Settled key value fine m s state) (hdrift : Pool.Drift s s') :
    Settled key value fine m s' state := by
  refine ⟨?_, h.loaded, fun r hr => h.cached r (cached?_drift hdrift hr), h.entries, h.asked⟩
  rw [hdrift.store_eq]
  exact h.stored

end Settled

end AddressLedger.Catalog
