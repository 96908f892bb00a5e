import AddressLedger.Proofs.Catalog.Settling

/-!
# What stays of a refresh

Catalog calls and writes that go to the store directly, in any interleaving. A refresh learns the
stored record of a key and gives it back. As long as the record is not written again, a later lookup
gives the same, but for one overlap: another lookup had read an older record before that was written
over directly, and it has the generation of the time when the refresh learnt the new one. A refresh
does not count as a change of the catalog, so that lookup may cache the old record in the place of
the new one and leave it there.
-/
namespace AddressLedger.Catalog
open Feed Service Store

variable {φ : Type} {source : PageSource φ}

/-- A call of a catalog, or a write that goes to the store directly. -/
inductive Task
  | call (c : CatalogCall)
  | write (record : Record)

namespace Task

def procedure : Task → StoreProcedure CatalogAnswer
  | call c => c.procedure
  | write record => do
    ask (.call (.writeRecord record))
    return .finished

def wanted : Task → List Key
  | call c => c.wanted
  | write _ => []

/-- How a task has ended: it will cache and drop nothing, and gives back what it has gathered. -/
def HasEnded (result : Except StoreError CatalogAnswer) (x : Phase × Gathering) : Prop :=
  x.1.HasEnded ∧ ∀ found, result = .ok (.found found) → x.2.Gives found

theorem procedure_follows (task : Task) :
    task.procedure.run.Follows watch HasEnded (.idle, .start task.wanted) := by
  cases task with
  | call c =>
    apply (c.procedure_follows.and c.procedure_gathers).mono
    rintro result ⟨x, y⟩ ⟨hquiet, hgives⟩
    refine ⟨?_, hgives⟩
    cases x with
    | dropping keys => exact hquiet
    | idle => trivial
    | _ => exact hquiet.elim
  | write record =>
    refine Procedure.Follows.run_bind ⟨⟨trivial, trivial⟩, fun answer => ?_⟩
    cases answer with
    | ok u => exact ⟨trivial, fun found hgiven => nomatch hgiven⟩
    | error e => exact ⟨trivial, fun found hgiven => nomatch hgiven⟩

end Task

def taskPool (s : Shared φ) (limit : Nat) (tasks : List Task) :
    Pool φ (Except StoreError CatalogAnswer) :=
  ⟨tasks.map fun task => task.procedure.run, limit, { s with cache := [] }⟩

def unstarted (tasks : List Task) (i : Nat) : Phase × Gathering :=
  (.idle, .start ((tasks[i]?.map Task.wanted).getD []))

def watchAfter (tasks : List Task) (entries : List (Nat × Made)) : Nat → Phase × Gathering :=
  Pool.states watch (unstarted tasks) entries

theorem taskPool_follows (s : Shared φ) (limit : Nat) (tasks : List Task) :
    (taskPool s limit tasks).Follows watch Task.HasEnded (unstarted tasks) := by
  intro i call hcall
  rw [taskPool, List.getElem?_map, Option.map_eq_some_iff] at hcall
  obtain ⟨task, htask, rfl⟩ := hcall
  rw [unstarted, htask]
  exact task.procedure_follows

theorem watchAfter_fst (tasks : List Task) (entries : List (Nat × Made)) (i : Nat) :
    (watchAfter tasks entries i).1 = phaseAfter entries i := by
  rw [watchAfter, phaseAfter, Pool.states_apply, Pool.states_apply]
  exact Pool.foldl_prod_fst phases gathering _ _

theorem Gathering.wanted_next (x : Gathering) (e : Made) : (x.next e).wanted = x.wanted := by
  rcases e with ⟨a, answer⟩
  cases a with
  | readRecords kind ids => cases answer <;> rfl
  | _ => rfl

theorem watchAfter_wanted {tasks : List Task} (entries : List (Nat × Made)) {i : Nat} {task : Task}
    (h : tasks[i]? = some task) : (watchAfter tasks entries i).2.wanted = task.wanted := by
  have hfold : ∀ (made : List Made) (x : Phase × Gathering),
      (made.foldl watch.next x).2.wanted = x.2.wanted := by
    intro made
    induction made with
    | nil => exact fun x => rfl
    | cons e made ih => exact fun x => (ih _).trans (x.2.wanted_next e)
  rw [watchAfter, Pool.states_apply, hfold, unstarted, h]
  rfl

theorem watchAfter_of_ofCall_nil (tasks : List Task) {entries : List (Nat × Made)} {i : Nat}
    (h : Pool.ofCall i entries = []) : watchAfter tasks entries i = unstarted tasks i := by
  rw [watchAfter, Pool.states_apply, h]
  rfl

variable {key : Key} {fine : Record → Prop} {value : Option Record} {j m : Nat}
  {p : Pool φ (Except StoreError CatalogAnswer)} {state : Nat → Phase × Gathering}

theorem backed_run (source : PageSource φ) (s : Shared φ) (limit : Nat) (tasks : List Task)
    (turns : List Turn) (key : Key) :
    Backed key ((taskPool s limit tasks).run source turns).shared
        (watchAfter tasks ((taskPool s limit tasks).log source turns)) ∧
      ((taskPool s limit tasks).run source turns).Follows watch Task.HasEnded
        (watchAfter tasks ((taskPool s limit tasks).log source turns)) := by
  refine (taskPool_follows s limit tasks).run source (Backed key) turns ?_ ?_ ?_
  · intro s state i a _ hadmits h
    exact h.step hadmits
  · intro s s' state hdrift h
    exact h.drift hdrift
  · refine ⟨fun i begun loaded kept hi => ?_, fun r hr => ?_, fun i r hr => ?_⟩
    · cases hi
    · cases hr
    · cases hr

/-- From the turn on in which a call learns the record of a key. -/
theorem settling_run (fine : Record → Prop) (hp : p.Follows watch Task.HasEnded state)
    (hbacked : Backed key p.shared state) {e : Made} (hmade : p.made source (.call j) = some (j, e))
    (hlearns : Learns p.shared.store key e)
    (hfine : ∀ r, p.shared.store.record? key = some r → fine r)
    (houtdated : ∀ i r, (state i).1.HoldsOutdated p.shared key r → fine r) (later : List Turn)
    (hwrites : ∀ i e, (i, e) ∈ p.log source (.call j :: later) → ¬ IsWriteOf key e) :
    Settling key (p.shared.store.record? key) fine j (p.run source (.call j :: later)).shared
        (Pool.states watch state (p.log source (.call j :: later))) ∧
      (p.run source (.call j :: later)).Follows watch Task.HasEnded
        (Pool.states watch state (p.log source (.call j :: later))) := by
  rw [Pool.log, hmade, Option.toList_some] at hwrites ⊢
  obtain ⟨hnone, -⟩ | ⟨i, a, next, hi, hmade', hcalls, hshared⟩ :=
    Pool.turn_cases source p (.call j)
  · rw [hnone] at hmade
    cases hmade
  · rw [hmade', Option.some.injEq, Prod.mk.injEq] at hmade
    obtain ⟨rfl, rfl⟩ := hmade
    have hstart := hbacked.settling hfine houtdated (hp i _ hi).1 hlearns
    rw [← hshared] at hstart
    refine (hp.set hi _ hcalls).run source (Settling key (p.shared.store.record? key) fine i) later
      ?_ ?_ hstart
    · intro s state k b hmem hadmits h
      exact h.step hfine hadmits (hwrites k _ (List.mem_append_right _ hmem))
    · intro s s' state hdrift h
      exact h.drift hdrift

theorem settled_run (hp : p.Follows watch Task.HasEnded state)
    (hsettled : Settled key value fine m p.shared state) (hfine : ∀ r, value = some r → fine r)
    (turns : List Turn) (hwrites : ∀ i e, (i, e) ∈ p.log source turns → ¬ IsWriteOf key e) :
    Settled key value fine m (p.run source turns).shared
        (Pool.states watch state (p.log source turns)) ∧
      (p.run source turns).Follows watch Task.HasEnded
        (Pool.states watch state (p.log source turns)) := by
  refine hp.run source (Settled key value fine m) turns ?_ ?_ hsettled
  · intro s state k b hmem hadmits h
    exact h.step hfine hadmits (hwrites k _ hmem)
  · intro s s' state hdrift h
    exact h.drift hdrift

theorem hasEnded_of_not_isUnderWay {tasks : List Task} {entries : List (Nat × Made)} {i : Nat}
    (hp : p.Follows watch Task.HasEnded (watchAfter tasks entries))
    (h : ¬ IsUnderWay p entries i) : (watchAfter tasks entries i).1.HasEnded := by
  by_cases hbegun : Pool.ofCall i entries = []
  · rw [watchAfter_of_ofCall_nil tasks hbegun]
    trivial
  · obtain ⟨result, hdone⟩ : ∃ result, p.calls[i]? = some (.done result) := by
      by_contra hnone
      exact h ⟨hbegun, fun result hdone => hnone ⟨result, hdone⟩⟩
    have hend : Task.HasEnded result (watchAfter tasks entries i) := hp i _ hdone
    exact hend.1

/-- A refresh learns the stored record of a key, which nothing writes from then on, and returns.
When nothing is under way, a lookup of the key begins, and is answered. -/
structure LookupAfterRefresh (source : PageSource φ) (s : Shared φ) (limit : Nat)
    (tasks : List Task) (before later rest : List Turn) (j m : Nat) (key : Key)
    (found found' : Resolved) : Prop where
  isRefresh : ∃ kind ids, tasks[j]? = some (.call (.refresh kind ids)) ∧ key ∈ ids.map (Key.of kind)
  learns : ∃ e, ((taskPool s limit tasks).run source before).made source (.call j) = some (j, e) ∧
    Learns ((taskPool s limit tasks).run source before).shared.store key e
  unwritten : ∀ i e, (i, e) ∈ ((taskPool s limit tasks).run source before).log source
    (.call j :: later ++ rest) → ¬ IsWriteOf key e
  returned : ((taskPool s limit tasks).run source (before ++ .call j :: later)).calls[j]? =
    some (.done (.ok (.found found)))
  alone : ∀ i, ¬ IsUnderWay ((taskPool s limit tasks).run source (before ++ .call j :: later))
    ((taskPool s limit tasks).log source (before ++ .call j :: later)) i
  isLookup : ∃ task, tasks[m]? = some task ∧ key ∈ task.wanted
  unbegun : Pool.ofCall m ((taskPool s limit tasks).log source (before ++ .call j :: later)) = []
  answered : ((taskPool s limit tasks).run source (before ++ .call j :: later ++ rest)).calls[m]? =
    some (.done (.ok (.found found')))

/-- What a refresh has learnt is what a later lookup gives, or else the lookup gives a record that
another one held, out of date, when the refresh learnt the stored one, and that the generation did
not tell to be so. -/
theorem lookup_after_refresh {s : Shared φ} {limit : Nat} {tasks : List Task}
    {before later rest : List Turn} {found found' : Resolved}
    (h : LookupAfterRefresh source s limit tasks before later rest j m key found found') :
    Keyed.get? key.id found' = Keyed.get? key.id found ∨
      ∃ i r, (phaseAfter ((taskPool s limit tasks).log source before) i).HoldsOutdated
          ((taskPool s limit tasks).run source before).shared key r ∧
        Keyed.get? key.id found' = some r := by
  let value := ((taskPool s limit tasks).run source before).shared.store.record? key
  let fine (r : Record) : Prop := value = some r ∨
    ∃ i, (phaseAfter ((taskPool s limit tasks).log source before) i).HoldsOutdated
      ((taskPool s limit tasks).run source before).shared key r
  have hwrites := h.unwritten
  rw [Pool.log_append] at hwrites
  obtain ⟨hbacked, hfollows⟩ := backed_run source s limit tasks before key
  obtain ⟨e, hmade, hlearns⟩ := h.learns
  obtain ⟨hsettling, hfollows'⟩ := settling_run fine hfollows hbacked hmade hlearns
    (fun r hr => .inl hr) (fun i r hr => .inr ⟨i, watchAfter_fst tasks _ i ▸ hr⟩) later
    fun i e he => hwrites i e (List.mem_append_left _ he)
  rw [← Pool.run_append] at hsettling hfollows' hwrites
  rw [watchAfter, ← Pool.states_append, ← Pool.log_append, ← watchAfter] at hsettling hfollows'
  have hreturned : Task.HasEnded _ _ := hfollows' j _ h.returned
  have hgives := hreturned.2 found rfl
  have hsettled := hsettling.settled (fun i => hasEnded_of_not_isUnderWay hfollows' (h.alone i))
    hgives.kept (congrArg Prod.snd (watchAfter_of_ofCall_nil tasks h.unbegun))
  obtain ⟨hlast, hfollows''⟩ := settled_run hfollows' hsettled (fun r hr => .inl hr) rest
    fun i e he => hwrites i e (List.mem_append_right _ he)
  rw [← Pool.run_append] at hlast hfollows''
  rw [watchAfter, ← Pool.states_append, ← Pool.log_append, ← watchAfter] at hlast hfollows''
  have hanswered : Task.HasEnded _ _ := hfollows'' m _ h.answered
  have hgives' := hanswered.2 found' rfl
  obtain ⟨kind, ids, hj, hkey⟩ := h.isRefresh
  obtain ⟨task, hm, hkey'⟩ := h.isLookup
  rw [← watchAfter_wanted _ hm] at hkey'
  have hvalue : Keyed.get? key.id found = value :=
    (hgives.value key (watchAfter_wanted _ hj ▸ hkey)).trans hsettling.learnt
  rw [hvalue, hgives'.value key hkey']
  cases hentry : Keyed.last? key
      (watchAfter tasks ((taskPool s limit tasks).log source (before ++ .call j :: later ++ rest))
        m).2.entries with
  | some r =>
    obtain hr | ⟨i, hi⟩ := hlast.entries r (Keyed.mem_of_last? hentry)
    · exact .inl hr.symm
    · exact .inr ⟨i, r, hi, rfl⟩
  | none =>
    rw [Keyed.last?_eq_none_iff] at hentry
    have hasked := (hgives'.complete key hkey').resolve_left hentry
    exact .inl (Option.not_isSome_iff_eq_none.1 fun hsome => hentry (hlast.asked hasked hsome)).symm

def oldState : Shared Unit := ⟨oldStore, [], 0, [], false, ()⟩

/-- A lookup of the project, a direct write that renames it, a refresh, and another lookup. -/
def renamingTasks : List Task :=
  [.call (.resolve .project ["p"]), .write (projectNamed "new"), .call (.refresh .project ["p"]),
    .call (.resolve .project ["p"])]

/-- The first lookup reads the old record, the new one is written, and the refresh is to read it. -/
def untilRead : List Turn := [.call 0, .call 0, .call 0, .call 1, .call 2, .call 2, .call 2]

/-- The refresh caches the new record and returns; the first lookup caches the old one. -/
def untilReturned : List Turn := [.call 2, .call 2, .call 0, .call 0]

def afterOldRead : StoreProcedure CatalogAnswer := do
  let found ← .lift (settle .project ⟨[], [projectNamed "old"], 0⟩)
  return .found found

theorem untilRead_eq :
    untilRead = [.call 0, .call 0] ++ [.call 0, .call 1, .call 2, .call 2, .call 2] := rfl

theorem renaming_begun : (taskPool oldState 4 renamingTasks).run noPages [.call 0, .call 0] =
    ⟨[(afterGeneration [["p"]]).run, (Task.write (projectNamed "new")).procedure.run,
      (CatalogCall.refresh .project ["p"]).procedure.run,
      (CatalogCall.resolve .project ["p"]).procedure.run], 4, oldState⟩ := by
  rw [← chunked_of_short (List.cons_ne_nil "p" []) (by decide)]
  rfl

def renamedState : Shared Unit :=
  { oldState with store := oldStore.putRecord (projectNamed "new") }

theorem renaming_read : (taskPool oldState 4 renamingTasks).run noPages untilRead =
    ⟨[afterOldRead.run, .done (.ok .finished), (afterGeneration [["p"]]).run,
      (CatalogCall.resolve .project ["p"]).procedure.run], 4, renamedState⟩ := by
  rw [untilRead_eq, Pool.run_append, renaming_begun]
  conv => rhs; rw [← chunked_of_short (List.cons_ne_nil "p" []) (by decide)]
  rfl

theorem renaming_returned :
    (taskPool oldState 4 renamingTasks).run noPages (untilRead ++ .call 2 :: untilReturned) =
      ⟨[.done (.ok (.found [("p", projectNamed "old")])), .done (.ok .finished),
        .done (.ok (.found [("p", projectNamed "new")])),
        (CatalogCall.resolve .project ["p"]).procedure.run], 4,
        { renamedState with cache := [(projectKey, projectNamed "old")] }⟩ := by
  rw [Pool.run_append, renaming_read]
  rfl

theorem renaming_log :
    ((taskPool oldState 4 renamingTasks).log noPages
      (untilRead ++ .call 2 :: untilReturned)).map Prod.fst =
        [0, 0, 0, 1, 2, 2, 2, 2, 2, 2, 0, 0] := by
  rw [Pool.log_append, renaming_read, untilRead_eq, Pool.log_append, renaming_begun]
  rfl

theorem renaming_isLookupAfterRefresh :
    LookupAfterRefresh noPages oldState 4 renamingTasks untilRead untilReturned [.call 3] 2 3
      projectKey [("p", projectNamed "new")] [("p", projectNamed "old")] := by
  constructor
  · exact ⟨.project, ["p"], rfl, List.mem_singleton_self _⟩
  · refine ⟨⟨.readRecords .project ["p"], .ok [projectNamed "new"]⟩, ?_, List.mem_singleton_self _⟩
    rw [renaming_read]
    rfl
  · have hlog : Pool.log noPages ⟨[afterOldRead.run, .done (.ok .finished),
        (afterGeneration [["p"]]).run, (CatalogCall.resolve .project ["p"]).procedure.run], 4,
        renamedState⟩ (.call 2 :: untilReturned ++ [.call 3]) =
          [(2, ⟨.readRecords .project ["p"], .ok [projectNamed "new"]⟩),
            (2, ⟨.keep projectKey (projectNamed "new"), ()⟩), (2, ⟨.generation, (0 : Nat)⟩),
            (0, ⟨.keep projectKey (projectNamed "old"), ()⟩), (0, ⟨.generation, (0 : Nat)⟩),
            (3, ⟨.cached projectKey, some (projectNamed "old")⟩)] := rfl
    intro i e he
    rw [renaming_read, hlog] at he
    simp only [List.mem_cons, List.not_mem_nil, or_false, Prod.mk.injEq] at he
    rcases he with ⟨-, rfl⟩ | ⟨-, rfl⟩ | ⟨-, rfl⟩ | ⟨-, rfl⟩ | ⟨-, rfl⟩ | ⟨-, rfl⟩ <;> exact id
  · rw [renaming_returned]
    rfl
  · rintro i ⟨hbegun, hunfinished⟩
    rw [ne_eq, Pool.ofCall_eq_nil_iff, renaming_log, not_not] at hbegun
    rw [renaming_returned] at hunfinished
    simp only [List.mem_cons, List.not_mem_nil, or_false] at hbegun
    rcases hbegun with rfl | rfl | rfl | rfl | rfl | rfl | rfl | rfl | rfl | rfl | rfl | rfl <;>
      exact hunfinished _ rfl
  · exact ⟨_, rfl, List.mem_singleton_self _⟩
  · rw [Pool.ofCall_eq_nil_iff, renaming_log]
    decide
  · rw [Pool.run_append, renaming_returned]
    rfl

/-- The refresh gives the new name and the lookup after it the old one, which the first lookup
held out of date. -/
theorem refresh_lost_to_lookup :
    LookupAfterRefresh noPages oldState 4 renamingTasks untilRead untilReturned [.call 3] 2 3
        projectKey [("p", projectNamed "new")] [("p", projectNamed "old")] ∧
      ∃ i, (phaseAfter ((taskPool oldState 4 renamingTasks).log noPages untilRead) i).HoldsOutdated
        ((taskPool oldState 4 renamingTasks).run noPages untilRead).shared projectKey
          (projectNamed "old") := by
  refine ⟨renaming_isLookupAfterRefresh, ?_⟩
  obtain hsame | ⟨i, r, hheld, hr⟩ := lookup_after_refresh renaming_isLookupAfterRefresh
  · simp [Keyed.get?, projectKey, projectNamed] at hsame
  · obtain rfl : projectNamed "old" = r := by simpa [Keyed.get?, projectKey] using hr
    exact ⟨i, hheld⟩

end AddressLedger.Catalog
