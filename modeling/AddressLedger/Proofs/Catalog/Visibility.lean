import AddressLedger.Proofs.Catalog.Refresh
import AddressLedger.Proofs.Service.Underway

/-!
# What a later lookup sees of a write

Catalog calls in any interleaving, with every write going through the catalog. A lookup that begins
when a write has returned gives for its key what this write or one after it has stored. There is one
exception. An overtaken lookup caches what it has read before it looks at the generation again, so
that an older record may stand in the cache for a while, and a lookup that asks for it just then is
given it.
-/
namespace AddressLedger.Catalog
open Feed Service Store

variable {φ : Type} {source : PageSource φ} {s s' : Shared φ}
  {state : Nat → Phase × Gathering} {i w m : Nat} {a : Access} {key : Key} {r : Record}
  {fine fine' : Record → Prop}

/-- Whether a call has stored the record of a key and is yet to drop it from the cache. -/
def Phase.Lands (key : Key) (x : Phase) : Prop := x = .written key ∨ x = .counted key

theorem Phase.IsQuiet.not_lands {x : Phase} (h : x.IsQuiet) : ¬ x.Lands key := by
  rintro (rfl | rfl) <;> exact h

theorem written_watchedBy (h : (state w).1 = .written key) (hadmits : watch.admits (state i) a)
    (hne : a ≠ .bumpGeneration) : (watchedBy source s state i a w).1 = .written key := by
  by_cases hwi : w = i
  · subst hwi
    have hphase := hadmits.1
    rw [h] at hphase
    cases a with
    | bumpGeneration => exact absurd rfl hne
    | _ => exact hphase.elim
  · rwa [watchedBy_other hwi]

theorem lands_watchedBy (h : (state w).1.Lands key) (hadmits : watch.admits (state i) a)
    (hdrop : a ≠ .forget key) : (watchedBy source s state i a w).1.Lands key := by
  by_cases hwi : w = i
  · subst hwi
    have hphase := hadmits.1
    rw [watchedBy_self]
    rcases h with h | h
    · rw [h] at hphase ⊢
      cases a with
      | bumpGeneration => exact .inr rfl
      | _ => exact hphase.elim
    · rw [h] at hphase
      cases a with
      | forget forgotten =>
        obtain rfl : forgotten = key := hphase
        exact absurd rfl hdrop
      | _ => exact hphase.elim
  · rwa [watchedBy_other hwi]

theorem HoldFine.mono (h : HoldFine key fine s state) (himp : ∀ r, fine r → fine' r) :
    HoldFine key fine' s state := by
  intro i begun loaded kept hi
  obtain ⟨hle, hheld⟩ := h i _ _ _ hi
  exact ⟨hle, fun hsame r hr => himp r (hheld hsame r hr)⟩

theorem HoldFine.bumpGeneration (source : PageSource φ) (h : HoldFine key fine s state)
    (hadmits : watch.admits (state i) .bumpGeneration) :
    HoldFine key fine' (s.perform source .bumpGeneration).2
      (watchedBy source s state i .bumpGeneration) := by
  intro k begun loaded kept hk
  have hle : begun ≤ s.generation := by
    by_cases hki : k = i
    · subst hki
      rw [watchedBy_self] at hk
      obtain ⟨rfl, -⟩ | ⟨loaded', kept', hbefore, -⟩ := Phase.looking_of_next hadmits.1 hk
      · exact Nat.le_refl _
      · exact (h k _ _ _ hbefore).1
    · rw [watchedBy_other hki] at hk
      exact (h k _ _ _ hk).1
  have hlt : begun < s.generation + 1 := Nat.lt_succ_of_le hle
  exact ⟨Nat.le_of_lt hlt, fun hsame => absurd hsame (Nat.ne_of_lt hlt)⟩

def Stores (key : Key) (entries : List (Nat × Made)) (r : Record) : Prop :=
  ∃ i record, (i, ⟨.writeRecord record, .ok ()⟩) ∈ entries ∧ Key.ofRecord record = key ∧
    storedRecord record = r

/-- A record of a key was stored by a call, and only fine records of it have been stored since. What
lookups with the present generation hold and what is cached is fine, unless the call is yet to count
its write or to drop the key, or some lookup is to drop it. -/
structure Landed (key : Key) (fine : Record → Prop) (w : Nat) (s : Shared φ)
    (state : Nat → Phase × Gathering) : Prop where
  stored : ∃ r, s.store.record? key = some r ∧ fine r
  lookups : HoldFine key (fun r => fine r ∨ (state w).1 = .written key) s state
  cached : ∀ r, s.cached? key = some r →
    fine r ∨ (∃ i, (state i).1.Drops s.generation key) ∨ (state w).1.Lands key

namespace Landed

theorem fine_of_stored (h : Landed key fine w s state) (hr : s.store.record? key = some r) :
    fine r := by
  obtain ⟨stored, hstored, hfine⟩ := h.stored
  obtain rfl : stored = r := Option.some.inj (hstored.symm.trans hr)
  exact hfine

theorem stored_step (h : Landed key fine w s state)
    (hwrites : ∀ r, Stores key [(i, ⟨a, (s.perform source a).1⟩)] r → fine r) :
    ∃ r, (s.perform source a).2.store.record? key = some r ∧ fine r := by
  by_cases hwrite : IsWriteOf key ⟨a, (s.perform source a).1⟩
  · cases a with
    | writeRecord record =>
      cases hopen : s.store.isOpen with
      | false =>
        simp only [Shared.perform, Store.writeRecord, whenOpen, hopen] at hwrite
        exact hwrite.elim
      | true =>
        simp only [Shared.perform, Store.writeRecord, whenOpen, hopen, if_true] at hwrite hwrites ⊢
        obtain rfl : Key.ofRecord record = key := hwrite
        exact ⟨storedRecord record, record?_putRecord_self s.store record,
          hwrites _ ⟨i, record, .head _, rfl, rfl⟩⟩
    | _ => exact hwrite.elim
  · rw [record?_perform hwrite]
    exact h.stored

theorem lookups_step (h : Landed key fine w s state) (hadmits : watch.admits (state i) a) :
    HoldFine key (fun r => fine r ∨ (watchedBy source s state i a w).1 = .written key)
      (s.perform source a).2 (watchedBy source s state i a) := by
  by_cases hbump : a = .bumpGeneration
  · subst hbump
    exact h.lookups.bumpGeneration source hadmits
  · refine (h.lookups.step source (fun r hr => .inl (h.fine_of_stored hr)) hadmits).mono ?_
    exact fun r hr => hr.imp_right fun hwritten => written_watchedBy hwritten hadmits hbump

theorem step (h : Landed key fine w s state) (hadmits : watch.admits (state i) a)
    (hwrites : ∀ r, Stores key [(i, ⟨a, (s.perform source a).1⟩)] r → fine r) :
    Landed key fine w (s.perform source a).2 (watchedBy source s state i a) := by
  refine ⟨h.stored_step hwrites, h.lookups_step hadmits, fun r hr => ?_⟩
  rcases cached?_perform hr with rfl | ⟨hr, hdrop, -⟩
  · rcases h.lookups.fine_or_drops hadmits with (hfine | hwritten) | hdrops
    · exact .inl hfine
    · exact .inr (.inr (.inl (written_watchedBy hwritten hadmits nofun)))
    · exact .inr (.inl ⟨i, hdrops⟩)
  · rcases h.cached r hr with hfine | ⟨k, hk⟩ | hlands
    · exact .inl hfine
    · exact .inr (.inl ⟨k, drops_watchedBy hk hadmits hdrop⟩)
    · exact .inr (.inr (lands_watchedBy hlands hadmits hdrop))

theorem drift (h : Landed key fine w s state) (hdrift : Pool.Drift s s') :
    Landed key fine w s' state := by
  refine ⟨hdrift.store_eq ▸ h.stored, ?_, fun r hr => ?_⟩
  · rw [HoldFine, generation_drift hdrift]
    exact h.lookups
  · rw [generation_drift hdrift]
    exact h.cached r (cached?_drift hdrift hr)

end Landed

theorem Backed.landed {record : Record} (h : Backed (Key.ofRecord record) s state)
    (hadmits : watch.admits (state w) (.writeRecord record))
    (hwritten : (s.perform source (.writeRecord record)).1 = .ok ())
    (hfine : fine (storedRecord record)) :
    Landed (Key.ofRecord record) fine w (s.perform source (.writeRecord record)).2
      (watchedBy source s state w (.writeRecord record)) := by
  have hphase : (watchedBy source s state w (.writeRecord record) w).1 =
      .written (Key.ofRecord record) := by
    have hidle := hadmits.1
    rw [watchedBy_self, hwritten]
    cases hw : (state w).1 with
    | idle => rfl
    | _ =>
      rw [hw] at hidle
      exact hidle.elim
  have hholds : HoldFine (Key.ofRecord record) (fun _ => True) s state :=
    fun i begun loaded kept hi => ⟨h.begun i _ _ _ hi, fun _ _ _ => trivial⟩
  refine ⟨⟨storedRecord record, ?_, hfine⟩,
    (hholds.step source (fun _ _ => trivial) hadmits).mono fun _ _ => .inr hphase,
    fun _ _ => .inr (.inr (.inl hphase))⟩
  simp only [Shared.perform, Store.writeRecord, whenOpen] at hwritten ⊢
  split at hwritten
  · rename_i hopen
    rw [if_pos hopen]
    exact record?_putRecord_self s.store record
  · cases hwritten

variable {p : Pool φ (Except StoreError CatalogAnswer)}

theorem turn_of_made {t : Turn} {e : Made} (h : p.made source t = some (i, e)) : t = .call i := by
  cases t with
  | call j =>
    simp only [Pool.made] at h
    split at h
    · split at h
      · exact congrArg Turn.call (Prod.mk.inj (Option.some.inj h)).1
      · cases h
    · cases h
  | expire key => cases h
  | shutdown => cases h

theorem landed_run {record : Record} (hp : p.Follows watch Task.HasEnded state)
    (hbacked : Backed (Key.ofRecord record) p.shared state)
    (hmade : p.made source (.call w) = some (w, ⟨.writeRecord record, .ok ()⟩)) (later : List Turn)
    (hfine : ∀ r, Stores (Key.ofRecord record) (p.log source (.call w :: later)) r → fine r) :
    Landed (Key.ofRecord record) fine w (p.run source (.call w :: later)).shared
      (Pool.states watch state (p.log source (.call w :: later))) := by
  rw [Pool.log, hmade, Option.toList_some] at hfine ⊢
  obtain ⟨hnone, -⟩ | ⟨i, a, next, hi, hmade', hcalls, hshared⟩ :=
    Pool.turn_cases source p (.call w)
  · rw [hnone] at hmade
    cases hmade
  · rw [hmade', Option.some.injEq, Prod.mk.injEq, Made.mk.injEq] at hmade
    obtain ⟨rfl, rfl, hanswer⟩ := hmade
    have hwritten := eq_of_heq hanswer
    have hstart : Landed (Key.ofRecord record) fine i (p.turn source (.call i)).shared
        (watchedBy source p.shared state i (.writeRecord record)) := by
      rw [hshared]
      exact hbacked.landed (hp i _ hi).1 hwritten (hfine _ ⟨i, record, .head _, rfl, rfl⟩)
    rw [watchedBy, hwritten] at hstart
    rw [hwritten] at hcalls
    refine ((hp.set hi _ hcalls).run source (Landed (Key.ofRecord record) fine i) later
      ?_ ?_ hstart).1
    · intro s state k b hmem hadmits h
      apply h.step hadmits
      rintro r ⟨j, written, hj, hkey, hr⟩
      rw [List.mem_singleton] at hj
      exact hfine r ⟨j, written, List.mem_append_right _ (hj ▸ hmem), hkey, hr⟩
    · intro s s' state hdrift h
      exact h.drift hdrift

theorem mem_entries_turn {t : Turn}
    (hr : (key, r) ∈ (Pool.states watch state (p.made source t).toList m).2.entries) :
    (key, r) ∈ (state m).2.entries ∨ t = .call m ∧
      (p.shared.store.record? key = some r ∨ p.shared.cached? key = some r ∧
        p.made source (.call m) = some (m, ⟨.cached key, some r⟩)) := by
  rcases Pool.turn_cases source p t with ⟨hnone, -, -⟩ | ⟨i, a, next, -, hmade, -, -⟩
  · rw [hnone] at hr
    exact .inl hr
  · obtain rfl := turn_of_made hmade
    rw [hmade, Option.toList_some] at hr
    change (key, r) ∈ (watchedBy source p.shared state i a m).2.entries at hr
    by_cases hmi : m = i
    · subst hmi
      rw [watchedBy_self] at hr
      rcases Gathering.mem_entries_next hr with hr | ⟨rfl, hcached⟩ | hstored
      · exact .inl hr
      · refine .inr ⟨rfl, .inr ⟨hcached, ?_⟩⟩
        rw [hmade, ← hcached]
        rfl
      · exact .inr ⟨rfl, .inl hstored⟩
    · rw [watchedBy_other hmi] at hr
      exact .inl hr

theorem mem_entries_run (turns : List Turn)
    (hr : (key, r) ∈ (Pool.states watch state (p.log source turns) m).2.entries) :
    (key, r) ∈ (state m).2.entries ∨ ∃ before after, turns = before ++ .call m :: after ∧
      ((p.run source before).shared.store.record? key = some r ∨
        (p.run source before).shared.cached? key = some r ∧
        (p.run source before).made source (.call m) = some (m, ⟨.cached key, some r⟩)) := by
  induction turns generalizing p state with
  | nil => exact .inl hr
  | cons t turns ih =>
    rw [Pool.log, Pool.states_append] at hr
    rcases ih hr with hbefore | ⟨before, after, rfl, hfound⟩
    · rcases mem_entries_turn hbefore with hbefore | ⟨rfl, hfound⟩
      · exact .inl hbefore
      · exact .inr ⟨[], turns, rfl, hfound⟩
    · exact .inr ⟨t :: before, after, rfl, hfound⟩

/-- A call that reads a stored key from the store has a record of it. -/
theorem asked_run (source : PageSource φ) (hp : p.Follows watch Task.HasEnded state)
    (hstored : (p.shared.store.record? key).isSome) (hm : key ∉ (state m).2.asked)
    (turns : List Turn) (hasked : key ∈ (Pool.states watch state (p.log source turns) m).2.asked) :
    key ∈ (Pool.states watch state (p.log source turns) m).2.entries.map Prod.fst := by
  let inv (s : Shared φ) (state : Nat → Phase × Gathering) : Prop :=
    (s.store.record? key).isSome ∧
      (key ∈ (state m).2.asked → key ∈ (state m).2.entries.map Prod.fst)
  refine (hp.run source inv turns ?_ ?_ ⟨hstored, fun h => absurd h hm⟩).1.2 hasked
  · intro s state i a _ _ h
    refine ⟨isSome_record?_perform source a h.1, ?_⟩
    by_cases hmi : m = i
    · subst hmi
      rw [Pool.moved_self]
      exact fun hasked => Gathering.asked_next (fun hasked _ => h.2 hasked) hasked h.1
    · rw [Pool.moved_other hmi]
      exact h.2
  · intro s s' state hdrift h
    exact ⟨hdrift.store_eq ▸ h.1, h.2⟩

/-- A lookup that is to drop a key has cached a record of it, and has not dropped it since. -/
theorem madeSince_of_drops {x : Phase} {generation : Nat} {made : List Made}
    (h : x.Drops generation key) (hshows : x.Shows key made) :
    MadeSince key (IsKeepOf key) made := by
  cases x with
  | looking begun loaded kept => exact hshows h.2
  | dropping keys => exact hshows h
  | _ => exact h.elim

theorem catalogPool_eq (s : Shared φ) (limit : Nat) (calls : List CatalogCall) :
    catalogPool s limit calls = taskPool s limit (calls.map .call) := by
  rw [catalogPool, taskPool, List.map_map]
  rfl

/-- A call stores a record and returns. A lookup of its key begins after that, and is answered. -/
structure LookupAfterWrite (source : PageSource φ) (s : Shared φ) (limit : Nat)
    (calls : List CatalogCall) (before during rest : List Turn) (w m : Nat) (record : Record)
    (found : Resolved) : Prop where
  writes : ((catalogPool s limit calls).run source before).made source (.call w) =
    some (w, ⟨.writeRecord record, .ok ()⟩)
  returned : ∃ result, ((catalogPool s limit calls).run source
    (before ++ .call w :: during)).calls[w]? = some (.done result)
  isLookup : ∃ call, calls[m]? = some call ∧ Key.ofRecord record ∈ call.wanted
  unbegun : Pool.ofCall m ((catalogPool s limit calls).log source
    (before ++ .call w :: during)) = []
  answered : ((catalogPool s limit calls).run source
    (before ++ .call w :: during ++ rest)).calls[m]? = some (.done (.ok (.found found)))

/-- A lookup finds a record in the cache while another one, under way, has cached one under the same
key, has not dropped it since, and will drop it. -/
def FindsOvertaken (source : PageSource φ) (p : Pool φ (Except StoreError CatalogAnswer))
    (turns : List Turn) (m : Nat) (key : Key) (r : Record) : Prop :=
  ∃ before after, turns = before ++ .call m :: after ∧
    (p.run source before).made source (.call m) = some (m, ⟨.cached key, some r⟩) ∧
    ∃ i, IsUnderWay (p.run source before) (p.log source before) i ∧
      WillForget source (p.run source before) i key ∧
      MadeSince key (IsKeepOf key) (Pool.ofCall i (p.log source before))

namespace LookupAfterWrite

variable {limit : Nat} {calls : List CatalogCall} {before during rest : List Turn}
  {record : Record} {found : Resolved}

theorem landed (h : LookupAfterWrite source s limit calls before during rest w m record found)
    {first last : List Turn} (hrest : rest = first ++ last) :
    Landed (Key.ofRecord record)
      (Stores (Key.ofRecord record) (((catalogPool s limit calls).run source before).log source
        (.call w :: during ++ rest))) w
      ((catalogPool s limit calls).run source (before ++ .call w :: during ++ first)).shared
      (watchAfter (calls.map .call) ((catalogPool s limit calls).log source
        (before ++ .call w :: during ++ first))) := by
  obtain ⟨hbacked, hfollows⟩ := backed_run source s limit (calls.map .call) before
    (Key.ofRecord record)
  rw [← catalogPool_eq] at hbacked hfollows
  rw [List.append_assoc, Pool.run_append, Pool.log_append source (catalogPool s limit calls) before,
    watchAfter, Pool.states_append, ← watchAfter]
  apply landed_run hfollows hbacked h.writes
  rintro r ⟨i, written, hi, hkey, hr⟩
  refine ⟨i, written, ?_, hkey, hr⟩
  rw [hrest, List.cons_append, ← List.append_assoc, ← List.cons_append, Pool.log_append]
  exact List.mem_append_left _ hi

theorem gives (h : LookupAfterWrite source s limit calls before during rest w m record found) :
    (watchAfter (calls.map .call) ((catalogPool s limit calls).log source
      (before ++ .call w :: during ++ rest)) m).2.Gives found := by
  obtain ⟨-, hfollows⟩ := backed_run source s limit (calls.map .call)
    (before ++ .call w :: during ++ rest) (Key.ofRecord record)
  rw [← catalogPool_eq] at hfollows
  have hended : Task.HasEnded _ _ := hfollows m _ h.answered
  exact hended.2 found rfl

/-- What the lookup finds in the cache was stored by the write or after it, or an overtaken lookup
has cached it. -/
theorem stores_or_findsOvertaken
    (h : LookupAfterWrite source s limit calls before during rest w m record found)
    {first last : List Turn} (hrest : rest = first ++ .call m :: last)
    (hcached : ((catalogPool s limit calls).run source
      (before ++ .call w :: during ++ first)).shared.cached? (Key.ofRecord record) = some r)
    (hmade : ((catalogPool s limit calls).run source
      (before ++ .call w :: during ++ first)).made source (.call m) =
        some (m, ⟨.cached (Key.ofRecord record), some r⟩)) :
    Stores (Key.ofRecord record) (((catalogPool s limit calls).run source before).log source
        (.call w :: during ++ rest)) r ∨
      FindsOvertaken source (catalogPool s limit calls) (before ++ .call w :: during ++ rest) m
        (Key.ofRecord record) r := by
  have hfollows := (coherent_run source s limit calls (before ++ .call w :: during ++ first)).2
  rcases (h.landed hrest).cached r hcached with hstores | ⟨i, hdrops⟩ | hlands
  · exact .inl hstores
  · rw [watchAfter_fst] at hdrops
    refine .inr ⟨before ++ .call w :: during ++ first, last, ?_, hmade, i, ⟨?_, ?_⟩, ?_, ?_⟩
    · rw [hrest, List.append_assoc (before ++ .call w :: during)]
    · exact (madeSince_of_drops hdrops (phaseAfter_shows _ i)).ne_nil
    · exact not_done_of_owes hfollows hdrops.owes
    · exact willForget_of_owes hfollows hdrops.owes
    · exact madeSince_of_drops hdrops (phaseAfter_shows _ i)
  · obtain ⟨result, hreturned⟩ := h.returned
    have hdone := Pool.run_of_done source first hreturned
    rw [← Pool.run_append] at hdone
    have hquiet : (phaseAfter _ w).IsQuiet := hfollows w _ hdone
    rw [watchAfter_fst] at hlands
    exact absurd hlands hquiet.not_lands

end LookupAfterWrite

/-- A lookup that begins when the write of a record has returned gives for its key what was stored
by this write or after it, or else a record that it finds in the cache where an overtaken lookup has
left it for a while. -/
theorem lookup_after_write {limit : Nat} {calls : List CatalogCall}
    {before during rest : List Turn} {record : Record} {found : Resolved}
    (h : LookupAfterWrite source s limit calls before during rest w m record found) :
    ∃ r, Keyed.get? (Key.ofRecord record).id found = some r ∧
      (Stores (Key.ofRecord record) (((catalogPool s limit calls).run source before).log source
          (.call w :: during ++ rest)) r ∨
        FindsOvertaken source (catalogPool s limit calls) (before ++ .call w :: during ++ rest) m
          (Key.ofRecord record) r) := by
  obtain ⟨call, hm, hkey⟩ := h.isLookup
  have htask : (calls.map Task.call)[m]? = some (.call call) := by rw [List.getElem?_map, hm]; rfl
  have hwanted : Key.ofRecord record ∈ (watchAfter (calls.map .call)
      ((catalogPool s limit calls).log source (before ++ .call w :: during ++ rest))
      m).2.wanted := by
    rw [watchAfter_wanted _ htask]
    exact hkey
  have hvalue := h.gives.value _ hwanted
  have hcomplete := h.gives.complete _ hwanted
  have hstart := watchAfter_of_ofCall_nil (calls.map .call) h.unbegun
  rw [Pool.log_append, watchAfter, Pool.states_append, ← watchAfter] at hvalue hcomplete
  cases hlast : Keyed.last? (Key.ofRecord record) (Pool.states watch (watchAfter (calls.map .call)
      ((catalogPool s limit calls).log source (before ++ .call w :: during)))
      (((catalogPool s limit calls).run source (before ++ .call w :: during)).log source rest)
      m).2.entries with
  | some r =>
    refine ⟨r, hvalue.trans hlast, ?_⟩
    rcases mem_entries_run rest (Keyed.mem_of_last? hlast) with
      hbefore | ⟨first, last, hrest, hfound⟩
    · rw [hstart] at hbefore
      exact absurd hbefore List.not_mem_nil
    · rw [← Pool.run_append] at hfound
      rcases hfound with hstored | ⟨hcached, hmade⟩
      · exact .inl ((h.landed hrest).fine_of_stored hstored)
      · exact h.stores_or_findsOvertaken hrest hcached hmade
  | none =>
    obtain ⟨-, hfollows⟩ := backed_run source s limit (calls.map .call)
      (before ++ .call w :: during) (Key.ofRecord record)
    rw [← catalogPool_eq] at hfollows
    rw [Keyed.last?_eq_none_iff] at hlast
    obtain ⟨stored, hstored, -⟩ := (h.landed (List.nil_append rest).symm).stored
    rw [List.append_nil] at hstored
    have hasked := hcomplete.resolve_left hlast
    have hunasked : Key.ofRecord record ∉ (watchAfter (calls.map .call)
        ((catalogPool s limit calls).log source (before ++ .call w :: during)) m).2.asked := by
      rw [hstart]
      exact List.not_mem_nil
    exact absurd (asked_run source hfollows (hstored ▸ rfl) hunasked rest hasked) hlast

def renamingCalls : List CatalogCall :=
  [.resolve .project ["p"], .upsert (projectNamed "new"), .resolve .project ["p"]]

/-- The first lookup reads the old record. -/
def untilOldRead : List Turn := [.call 0, .call 0, .call 0]

/-- The write is counted, the key is dropped, and the first lookup caches the old record. -/
def untilOldCached : List Turn := [.call 1, .call 1, .call 0]

def afterOldCached : StoreProcedure CatalogAnswer := do
  let found ← .lift (do
    let generation ← Procedure.call .generation
    if generation ≠ 0 then forgetAllOf .project ["p"]
    return [("p", projectNamed "old")])
  return .found found

theorem untilOldRead_eq : untilOldRead = [.call 0, .call 0] ++ [.call 0] := rfl

theorem renamingCalls_begun :
    (catalogPool oldState 3 renamingCalls).run noPages [.call 0, .call 0] =
      ⟨[(afterGeneration [["p"]]).run, (CatalogCall.upsert (projectNamed "new")).procedure.run,
        (CatalogCall.resolve .project ["p"]).procedure.run], 3, oldState⟩ := by
  rw [← chunked_of_short (List.cons_ne_nil "p" []) (by decide)]
  rfl

theorem renamingCalls_read : (catalogPool oldState 3 renamingCalls).run noPages untilOldRead =
    ⟨[afterOldRead.run, (CatalogCall.upsert (projectNamed "new")).procedure.run,
      (CatalogCall.resolve .project ["p"]).procedure.run], 3, oldState⟩ := by
  rw [untilOldRead_eq, Pool.run_append, renamingCalls_begun]
  rfl

theorem renamingCalls_cached :
    (catalogPool oldState 3 renamingCalls).run noPages (untilOldRead ++ .call 1 :: untilOldCached) =
      ⟨[afterOldCached.run, .done (.ok .finished),
        (CatalogCall.resolve .project ["p"]).procedure.run], 3,
        { renamedState with cache := [(projectKey, projectNamed "old")], generation := 1 }⟩ := by
  rw [Pool.run_append, renamingCalls_read]
  rfl

theorem renamingCalls_log :
    ((catalogPool oldState 3 renamingCalls).log noPages
      (untilOldRead ++ .call 1 :: untilOldCached)).map Prod.fst = [0, 0, 0, 1, 1, 1, 0] := by
  rw [Pool.log_append, renamingCalls_read, untilOldRead_eq, Pool.log_append, renamingCalls_begun]
  rfl

theorem renamingCalls_isLookupAfterWrite :
    LookupAfterWrite noPages oldState 3 renamingCalls untilOldRead untilOldCached [.call 2] 1 2
      (projectNamed "new") [("p", projectNamed "old")] := by
  constructor
  · rw [renamingCalls_read]
    rfl
  · rw [renamingCalls_cached]
    exact ⟨.ok .finished, rfl⟩
  · exact ⟨_, rfl, List.mem_singleton_self _⟩
  · rw [Pool.ofCall_eq_nil_iff, renamingCalls_log]
    decide
  · rw [Pool.run_append, renamingCalls_cached]
    rfl

/-- The write has returned, and a lookup that begins after it gives the old name, which no call has
stored since: it finds it in the cache, where the first lookup has put it. -/
theorem write_unseen_by_lookup :
    LookupAfterWrite noPages oldState 3 renamingCalls untilOldRead untilOldCached [.call 2] 1 2
        (projectNamed "new") [("p", projectNamed "old")] ∧
      ¬ Stores projectKey (((catalogPool oldState 3 renamingCalls).run noPages untilOldRead).log
        noPages (.call 1 :: untilOldCached ++ [.call 2])) (projectNamed "old") ∧
      FindsOvertaken noPages (catalogPool oldState 3 renamingCalls)
        (untilOldRead ++ .call 1 :: untilOldCached ++ [.call 2]) 2 projectKey
        (projectNamed "old") := by
  have hlog : ((catalogPool oldState 3 renamingCalls).run noPages untilOldRead).log noPages
      (.call 1 :: untilOldCached ++ [.call 2]) =
        [(1, ⟨.writeRecord (projectNamed "new"), .ok ()⟩), (1, ⟨.bumpGeneration, ()⟩),
          (1, ⟨.forget projectKey, ()⟩), (0, ⟨.keep projectKey (projectNamed "old"), ()⟩),
          (2, ⟨.cached projectKey, some (projectNamed "old")⟩)] := by
    rw [renamingCalls_read]
    rfl
  have hstores : ¬ Stores projectKey (((catalogPool oldState 3 renamingCalls).run noPages
      untilOldRead).log noPages (.call 1 :: untilOldCached ++ [.call 2])) (projectNamed "old") := by
    rintro ⟨i, record, hi, -, hr⟩
    rw [hlog] at hi
    obtain ⟨-, rfl⟩ : i = 1 ∧ record = projectNamed "new" := by simpa using hi
    simp [storedRecord, projectNamed] at hr
  refine ⟨renamingCalls_isLookupAfterWrite, hstores, ?_⟩
  obtain ⟨r, hr, hfound⟩ := lookup_after_write renamingCalls_isLookupAfterWrite
  obtain rfl : projectNamed "old" = r := Option.some.inj hr
  exact hfound.resolve_left hstores

end AddressLedger.Catalog
