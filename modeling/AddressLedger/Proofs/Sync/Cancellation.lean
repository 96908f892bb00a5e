import AddressLedger.Proofs.Sync.Alone
import AddressLedger.Proofs.Sync.Verdict

/-!
# Shutdown among runs

Shutdown may be asked for at any point of any runs: in a turn of its own, or while a request is
under way, which is then answered or abandoned. From then on no request is made. A run that has
received a page finishes with it; a run ends as cancelled if it asks for a page that shutdown has
kept from it, and otherwise as its pages and its feed say.
-/
namespace AddressLedger.Service
open Feed

variable {φ α : Type} {source : PageSource φ} {p : Pool φ α}

theorem perform_feed_of_stopped (source : PageSource φ) (a : Access) {s : Shared φ}
    (h : s.stopped = true) : (s.perform source a).2.feed = s.feed := by
  cases a with
  | fetchPage address cursor => rw [Shared.perform, Shared.fetchPage, if_pos h]
  | _ => rfl

namespace Pool

theorem Drift.of_stopped {s s' : Shared φ} (h : Drift s s') (hs : s.stopped = true) :
    s'.stopped = true ∧ s'.feed = s.feed := by
  cases h with
  | stop => exact ⟨rfl, rfl⟩
  | _ => exact ⟨hs, rfl⟩

theorem turn_of_stopped (source : PageSource φ) (t : Turn) (h : p.shared.stopped = true) :
    (p.turn source t).shared.stopped = true ∧ (p.turn source t).shared.feed = p.shared.feed := by
  rcases turn_cases source p t with ⟨-, -, hdrift⟩ | ⟨i, a, next, -, -, -, hshared⟩
  · exact hdrift.of_stopped h
  · rw [hshared]
    exact ⟨Shared.perform_stopped source a h, perform_feed_of_stopped source a h⟩

/-- Once shutdown was asked for, the feed is left alone for ever. -/
theorem run_of_stopped (source : PageSource φ) (turns : List Turn) (h : p.shared.stopped = true) :
    (p.run source turns).shared.stopped = true ∧
      (p.run source turns).shared.feed = p.shared.feed := by
  induction turns generalizing p with
  | nil => exact ⟨h, rfl⟩
  | cons t turns ih =>
    obtain ⟨hstopped, hfeed⟩ := turn_of_stopped source t h
    obtain ⟨hstopped', hfeed'⟩ := ih hstopped
    exact ⟨hstopped', hfeed'.trans hfeed⟩

theorem Makes.stopped {turns : List Turn} {i : Nat} {a : Access} {s : Shared φ}
    (h : p.Makes source turns i a s) (hstopped : p.shared.stopped = true) : s.stopped = true := by
  obtain ⟨before, t, after, -, rfl, -⟩ := h
  exact (run_of_stopped source before hstopped).1

def pagesOf (i : Nat) (entries : List (Nat × Made)) : List Page :=
  (ofCall i entries).filterMap Made.page?

end Pool

end AddressLedger.Service

namespace AddressLedger.Sync
open Catalog Feed Service Store

variable {φ : Type} {source : PageSource φ}

/-- Whether shutdown comes before the answer to a request: it is not made at all, or abandoned. -/
def IsCut (source : PageSource φ) (s : Shared φ) (owner : String) (cursor : Option Int64) : Prop :=
  s.stopped = true ∨ (source.request owner cursor s.feed).1 = .abandoned

/-- A request fails because shutdown comes first, or because the feed answers so. -/
theorem fetchPage_error {s : Shared φ} {owner : String} {cursor : Option Int64} {e : FeedError}
    (h : (s.fetchPage source owner cursor).1 = .error e) :
    (IsCut source s owner cursor ∧ e = .cancelled) ∨
      (s.stopped = false ∧
        ∃ stopping, (source.request owner cursor s.feed).1 = .answered stopping (.error e)) := by
  rw [Shared.fetchPage] at h
  cases hstopped : s.stopped with
  | true =>
    rw [hstopped, if_pos rfl] at h
    exact .inl ⟨.inl hstopped, (Except.error.inj h).symm⟩
  | false =>
    rw [hstopped, if_neg Bool.false_ne_true] at h
    rcases hrequest : source.request owner cursor s.feed with ⟨reply, feed⟩
    rw [hrequest] at h
    cases reply with
    | answered stopping result => exact .inr ⟨rfl, stopping, congrArg _ h⟩
    | abandoned => exact .inl ⟨.inr (by rw [hrequest]), (Except.error.inj h).symm⟩

theorem fetchPage_of_isCut {s : Shared φ} {owner : String} {cursor : Option Int64}
    (h : IsCut source s owner cursor) :
    (s.fetchPage source owner cursor).1 = .error .cancelled := by
  rw [Shared.fetchPage]
  rcases h with h | h
  · rw [if_pos h]
  · split
    · rfl
    · rcases hrequest : source.request owner cursor s.feed with ⟨reply, feed⟩
      rw [hrequest] at h
      cases reply with
      | answered stopping result => cases h
      | abandoned => rfl

theorem fetchPage_of_answered {s : Shared φ} {owner : String} {cursor : Option Int64}
    {stopping : Bool} {result : Except FeedError Page} (hrunning : s.stopped = false)
    (h : (source.request owner cursor s.feed).1 = .answered stopping result) :
    (s.fetchPage source owner cursor).1 = result := by
  rw [Shared.fetchPage, hrunning, if_neg Bool.false_ne_true]
  rcases hrequest : source.request owner cursor s.feed with ⟨reply, feed⟩
  rw [hrequest] at h
  cases h
  rfl

def SyncResult.ReportsCancelled (r : SyncResult) : Prop :=
  r.statusName = "partial_error" ∧ r.failure.map SyncError.message = some "Sync cancelled"

theorem message_eq_cancelled_iff {e : SyncError} :
    e.message = "Sync cancelled" ↔ e = .feed .cancelled := by
  cases e with
  | store e => cases e <;> simp [SyncError.message, StoreError.message]
  | feed e =>
    cases e with
    | status code body =>
      have hne : (SyncError.feed (.status code body)).message ≠ "Sync cancelled" := by
        intro h
        have hfirst := congrArg (fun text => text.toList.head?) h
        simp [SyncError.message, FeedError.message] at hfirst
      simp [hne]
    | _ => simp [SyncError.message, FeedError.message]

theorem reportsCancelled_iff {r : SyncResult} :
    r.ReportsCancelled ↔ r.failure = some (.feed .cancelled) := by
  rw [SyncResult.ReportsCancelled, SyncResult.statusName]
  cases r.failure with
  | none => simp
  | some e => simp [message_eq_cancelled_iff]

/-- How a run has ended that came to a verdict with its pages, and made its accesses in some turns
of a pool. -/
inductive EndsAs (source : PageSource φ) (p : Pool φ SyncResult) (during : List Turn) (i : Nat)
    (owner : String) (r : SyncResult) : Verdict → Prop
  /-- It asks for no more page. -/
  | decided {failure : Option SyncError} (hfailure : r.failure = failure) :
      EndsAs source p during i owner r (.ends failure)
  /-- Shutdown comes before the page that it asks for. -/
  | cancelled {cursor : Option Int64} {s : Shared φ}
      (hmakes : p.Makes source during i (.fetchPage owner cursor) s)
      (hcut : IsCut source s owner cursor) (hreports : r.ReportsCancelled) :
      EndsAs source p during i owner r (.goesOn cursor)
  /-- The feed answers that it has no page. -/
  | failed {cursor : Option Int64} {s : Shared φ} {stopping : Bool} {e : FeedError}
      (hmakes : p.Makes source during i (.fetchPage owner cursor) s)
      (hrunning : s.stopped = false)
      (hreply : (source.request owner cursor s.feed).1 = .answered stopping (.error e))
      (hfailure : r.failure = some (.feed e)) :
      EndsAs source p during i owner r (.goesOn cursor)

def addedBy (source : PageSource φ) (p : Pool φ SyncResult) (i : Nat) (owner : String) (mode : Mode)
    (during : List Turn) : List Event :=
  storedEvents p.shared.store.isOpen owner mode p.shared.store.events.keys
    (Pool.pagesOf i (p.log source during))

def verdictOf (source : PageSource φ) (p : Pool φ SyncResult) (i : Nat) (owner : String)
    (mode : Mode) (during : List Turn) : Verdict :=
  verdict p.shared.store.isOpen owner mode p.shared.store.events.keys none
    (Pool.pagesOf i (p.log source during))

/-- What a run of an owner has done in the turns in which it has held the lock, from the pool as it
was before them. -/
structure IsClean (source : PageSource φ) (runs : List (String × Mode)) (p : Pool φ SyncResult)
    (i : Nat) (owner : String) (mode : Mode) (during : List Turn) (r : SyncResult) : Prop where
  address : r.address = owner
  /-- The pages that it received are stored to their ends, and nothing else of the owner. -/
  rows : ∃ added, (p.run source during).shared.store.events = p.shared.store.events ++ added ∧
    rowsOf owner added = (addedBy source p i owner mode during).map Row.ofEvent ∧
    ∀ row ∈ added, ∃ run ∈ runs, row.address = normalizeAddress run.1
  records : p.shared.store.isOpen = true → ∀ page ∈ Pool.pagesOf i (p.log source during),
    ∀ record ∈ page.records, (i, ⟨.writeRecord record, .ok ()⟩) ∈ p.log source during
  count : r.count = (addedBy source p i owner mode during).length
  ends : EndsAs source p during i owner r (verdictOf source p i owner mode during)
  /-- Only shutdown makes it report that it was cancelled, unless the feed says so itself. -/
  cancelled_iff : (∀ cursor feed stopping,
      (source.request owner cursor feed).1 ≠ .answered stopping (.error .cancelled)) →
    (r.ReportsCancelled ↔ ∃ cursor s, verdictOf source p i owner mode during = .goesOn cursor ∧
      p.Makes source during i (.fetchPage owner cursor) s ∧ IsCut source s owner cursor)
  /-- A run that takes its lock after shutdown does nothing. -/
  late : p.shared.stopped = true → r.count = 0 ∧ r.ReportsCancelled

variable {p : Pool φ SyncResult} {i : Nat} {owner : String} {mode : Mode} {during : List Turn}
  {r : SyncResult}

theorem pagesOf_of_stopped (h : p.shared.stopped = true) :
    Pool.pagesOf i (p.log source during) = [] := by
  rw [Pool.pagesOf, List.filterMap_eq_nil_iff]
  rintro ⟨a, answer⟩ hmem
  obtain ⟨s, hmakes, hanswer⟩ := Pool.exists_makes (Pool.mem_ofCall.1 hmem)
  have hstopped := hmakes.stopped h
  cases a with
  | fetchPage address cursor =>
    rw [← hanswer, Shared.perform, Shared.fetchPage, if_pos hstopped]
    rfl
  | _ => rfl

/-- A request that fails ends a run that asks for one more page. -/
theorem endsAs_of_explains {v : Verdict}
    (h : v.Explains owner (Pool.ofCall i (p.log source during)) r.failure) :
    EndsAs source p during i owner r v := by
  cases v with
  | ends failure => exact .decided h
  | goesOn cursor =>
    obtain ⟨e, hmem, hfailure⟩ := h
    obtain ⟨s, hmakes, hanswer⟩ := Pool.exists_makes (Pool.mem_ofCall.1 hmem)
    rcases fetchPage_error hanswer with ⟨hcut, rfl⟩ | ⟨hrunning, stopping, hreply⟩
    · exact .cancelled hmakes hcut (reportsCancelled_iff.2 hfailure)
    · exact .failed hmakes hrunning hreply hfailure

/-- A call that makes the accesses of a run makes no request twice. -/
theorem answer_unique {σ : Type} {perform : (a : Access) → σ → a.Answer × σ} {a : String} {s : σ}
    {made : List Made} (hmade : (syncAddress a mode).trace perform s = made)
    {cursor : Option Int64} {answer answer' : Except FeedError Page}
    (h : ⟨.fetchPage owner cursor, answer⟩ ∈ made)
    (h' : ⟨.fetchPage owner cursor, answer'⟩ ∈ made) :
    answer = answer' := by
  have hnodup := syncAddress_asks_once perform a mode s
  rw [Procedure.pageCalls, hmade] at hnodup
  have hcall : PageCall.mk owner cursor answer ∈ made.filterMap Made.pageCall? :=
    List.mem_filterMap.2 ⟨_, h, rfl⟩
  have hcall' : PageCall.mk owner cursor answer' ∈ made.filterMap Made.pageCall? :=
    List.mem_filterMap.2 ⟨_, h', rfl⟩
  exact congrArg PageCall.answer (List.inj_on_of_nodup_map hnodup hcall hcall' rfl)

theorem EndsAs.reportsCancelled_iff {σ : Type} {perform : (a : Access) → σ → a.Answer × σ}
    {a : String} {s : σ} (hmade : (syncAddress a mode).trace perform s =
      Pool.ofCall i (p.log source during))
    (hfeed : ∀ cursor feed stopping,
      (source.request owner cursor feed).1 ≠ .answered stopping (.error .cancelled))
    (h : EndsAs source p during i owner r (verdictOf source p i owner mode during)) :
    r.ReportsCancelled ↔ ∃ cursor s, verdictOf source p i owner mode during = .goesOn cursor ∧
      p.Makes source during i (.fetchPage owner cursor) s ∧ IsCut source s owner cursor := by
  have hends : verdictOf source p i owner mode during ≠ .ends (some (.feed .cancelled)) :=
    verdict_ne_feed _ _ _ _ _
  rw [Sync.reportsCancelled_iff]
  generalize verdictOf source p i owner mode during = v at h hends ⊢
  cases h with
  | decided hfailure =>
    constructor
    · intro hcancelled
      rw [← hfailure, hcancelled] at hends
      exact absurd rfl hends
    · rintro ⟨cursor, s, heq, -⟩
      cases heq
  | cancelled hmakes hcut hreports =>
    exact ⟨fun _ => ⟨_, _, rfl, hmakes, hcut⟩, fun _ => Sync.reportsCancelled_iff.1 hreports⟩
  | failed hmakes hrunning hreply hfailure =>
    constructor
    · intro hcancelled
      rw [hcancelled] at hfailure
      cases hfailure
      exact absurd hreply (hfeed _ _ _)
    · rintro ⟨cursor, s', heq, hmakes', hcut⟩
      cases heq
      have hsame := answer_unique hmade (Pool.mem_ofCall.2 hmakes.mem_log)
        (Pool.mem_ofCall.2 hmakes'.mem_log)
      rw [Shared.perform, Shared.perform, fetchPage_of_isCut hcut,
        fetchPage_of_answered hrunning hreply] at hsame
      cases hsame
      exact absurd hreply (hfeed _ _ _)

/-- A run that has gone as it goes alone is clean. -/
theorem HasGone.isClean {runs : List (String × Mode)} {limit : Nat} {s : Shared φ} {a : String}
    {before : List Turn}
    (h : HasGone source (runsPool runs limit s) (normalizeAddress a) i (syncAddress a mode) before
      during r) :
    IsClean source runs ((runsPool runs limit s).run source before) i (normalizeAddress a) mode
      during r := by
  have hrun := Pool.run_append source (runsPool runs limit s) before during
  have hother : ∀ owner, (∀ run ∈ runs, normalizeAddress run.1 ≠ owner) →
      rowsOf owner (((runsPool runs limit s).run source before).run source
          during).shared.store.events =
        rowsOf owner ((runsPool runs limit s).run source before).shared.store.events := by
    intro owner howner
    rw [← hrun, rowsOf_run_of_other howner, rowsOf_run_of_other howner]
  obtain ⟨htrace, hresult, hrows⟩ := h.exec_eq
  rw [hrun] at hrows
  generalize (runsPool runs limit s).run source before = p at hother htrace hresult hrows ⊢
  have hpages : (p.shared.over (answersOf (Pool.ofCall i (p.log source during)))).pages listed
      (syncAddress a mode) = Pool.pagesOf i (p.log source during) := by
    rw [Shared.pages, htrace]
    rfl
  obtain ⟨hevents, haddress, hcount, hrecords, hexplains⟩ := syncAddress_explained listed a mode
    (p.shared.over (answersOf (Pool.ofCall i (p.log source during))))
  rw [hpages] at hevents hcount hrecords hexplains
  rw [hresult] at haddress hcount hexplains
  rw [htrace] at hrecords hexplains
  have hends : EndsAs source p during i (normalizeAddress a) r
      (verdictOf source p i (normalizeAddress a) mode during) := endsAs_of_explains hexplains
  refine ⟨haddress, ?_, fun hopen page hpage record hrecord => ?_, hcount, hends,
    fun hfeed => hends.reportsCancelled_iff htrace hfeed, fun hstopped => ?_⟩
  · obtain ⟨added, hadded⟩ := Pool.prefix_run source p during
    refine ⟨added, hadded.symm, ?_, fun row hrow => ?_⟩
    · have hown : ∀ e ∈ addedBy source p i (normalizeAddress a) mode during,
          e.address = normalizeAddress a :=
        fun e he => (address_of_mem_storedEvents he).trans (lower_normalizeAddress a)
      rw [hevents, ← hadded, rowsOf_append, rowsOf_append] at hrows
      exact (List.append_cancel_left hrows).symm.trans (rowsOf_own hown)
    · by_contra hnone
      have hsame := hother row.address fun run hrun heq => hnone ⟨run, hrun, heq.symm⟩
      rw [← hadded, rowsOf_append, List.append_right_eq_self] at hsame
      exact List.not_mem_nil (hsame ▸ mem_rowsOf.2 ⟨hrow, rfl⟩)
  · exact Pool.mem_ofCall.1 (hrecords page hpage hopen record hrecord)
  · have hnone : Pool.pagesOf i (p.log source during) = [] := pagesOf_of_stopped hstopped
    have hverdict : verdictOf source p i (normalizeAddress a) mode during = .goesOn none := by
      rw [verdictOf, hnone, verdict]
    refine ⟨?_, ?_⟩
    · rw [hcount, hnone, storedEvents, newEvents_nil, ite_self]
      rfl
    · rw [hverdict] at hends
      cases hends with
      | cancelled hmakes hcut hreports => exact hreports
      | failed hmakes hrunning hreply hfailure =>
        rw [hmakes.stopped hstopped] at hrunning
        cases hrunning

/-- Whatever turns runs take, and wherever in them shutdown is asked for: from then on the feed is
left alone; the runs can be brought to their ends; and each run that has ended has stored the pages
that it received to their ends and reports what they come to, or that it was cancelled if shutdown
came before a page that it asked for. A sync of several addresses is such runs. -/
theorem shutdown_is_clean (source : PageSource φ) {runs : List (String × Mode)} {limit : Nat}
    (hlimit : 0 < limit) {s : Shared φ} (hfree : ∀ run ∈ runs, normalizeAddress run.1 ∉ s.locked)
    (turns : List Turn) :
    let pool := runsPool runs limit s
    (∀ before after, turns = before ++ after → (pool.run source before).shared.stopped = true →
      (pool.run source turns).shared.feed = (pool.run source before).shared.feed) ∧
    (∃ more : List Turn, .shutdown ∉ more ∧
      ∃ results, (pool.run source (turns ++ more)).results? = some results) ∧
    (∀ i r, (pool.run source turns).calls[i]? = some (.done r) →
      ∃ a mode before during after, runs[i]? = some (a, mode) ∧
        turns = before ++ during ++ after ∧
        pool.Tenure source (normalizeAddress a) i before during ∧
        IsClean source runs (pool.run source before) i (normalizeAddress a) mode during r) ∧
    ∀ addresses mode width, syncPool width addresses mode s =
      runsPool ((distinctAddresses addresses).map fun a => (a, mode)) (max 1 width) s := by
  intro pool
  refine ⟨?_, exists_results_runsPool source hlimit hfree turns, fun i r hdone => ?_,
    fun addresses mode width => syncPool_eq width addresses mode s⟩
  · rintro before after rfl hstopped
    rw [Pool.run_append]
    exact (Pool.run_of_stopped source after hstopped).2
  · obtain ⟨a, mode, hrun, before, during, after, hturns, hgone⟩ :=
      exists_hasGone_of_run hfree hdone
    exact ⟨a, mode, before, during, after, hrun, hturns, hgone.tenure, hgone.isClean⟩

/-- A feed that counts its requests and gives two items while shutdown is asked for. -/
def closing : PageSource Nat :=
  ⟨fun _ _ count => (.answered true (.ok ⟨[bareItem "b", bareItem "a"], [], [], []⟩), count + 1)⟩

def unasked : Shared Nat := ⟨⟨true, [Row.ofEvent (bareEvent "a")], [], [], []⟩, [], 0, [], false, 0⟩

def twoRuns : List (String × Mode) := [("0xab", .fillGaps), ("0xcd", .catchUp)]

def inSequence : List Turn := List.replicate 7 (.call 0) ++ List.replicate 4 (.call 1)

theorem reports_closing :
    (((runsPool twoRuns 2 unasked).run closing inSequence).results?.map fun results =>
      results.map fun r => (r.count, r.statusName)) =
        some [(1, "success"), (0, "partial_error")] ∧
    ((runsPool twoRuns 2 unasked).run closing inSequence).shared.feed = 1 := by
  simp only [runsPool, twoRuns, List.map_cons, List.map_nil, syncAddress]
  rw [pageFrom, pageFrom]
  decide +kernel

/-- The first run stores the page that came with shutdown, and the second one makes no request. -/
theorem shutdown_with_page :
    0 < 2 ∧ (∀ run ∈ twoRuns, normalizeAddress run.1 ∉ unasked.locked) ∧
    let pool := runsPool twoRuns 2 unasked
    ∃ results, (pool.run closing inSequence).results? = some results ∧
      results.map (fun r => (r.count, r.statusName)) = [(1, "success"), (0, "partial_error")] ∧
      (pool.run closing inSequence).shared.feed = 1 ∧
      ∀ i r, results[i]? = some r → ∃ a mode before during after, twoRuns[i]? = some (a, mode) ∧
        inSequence = before ++ during ++ after ∧
        IsClean closing twoRuns (pool.run closing before) i (normalizeAddress a) mode during r := by
  have hfree : ∀ run ∈ twoRuns, normalizeAddress run.1 ∉ unasked.locked :=
    fun _ _ => List.not_mem_nil
  obtain ⟨hreports, hfeed⟩ := reports_closing
  obtain ⟨results, hresults, hreports⟩ := Option.map_eq_some_iff.1 hreports
  obtain ⟨-, -, hclean, -⟩ := shutdown_is_clean closing Nat.two_pos hfree inSequence
  refine ⟨by decide, hfree, results, hresults, hreports, hfeed, fun i r hr => ?_⟩
  have hdone : ((runsPool twoRuns 2 unasked).run closing inSequence).calls[i]? =
      some (.done r) := by
    rw [Pool.results?_eq_some_iff.1 hresults, List.getElem?_map, hr]
    rfl
  obtain ⟨a, mode, before, during, after, hrun, hturns, -, hdone⟩ := hclean i r hdone
  exact ⟨a, mode, before, during, after, hrun, hturns, hdone⟩

end AddressLedger.Sync
