import AddressLedger.Proofs.Sync.Effect

/-!
# What pages come to

The pages that a run has received decide what it has stored and whether it asks for one more: it
does so unless a page was empty, it has caught up, or the time does not decrease. A closed store
ends it on the first page that has anything to write or to look for. Only a run that asks for one
more page depends on the feed in how it ends.
-/
namespace AddressLedger.Sync
open Catalog Feed Service Store

variable {φ : Type} {source : PageSource φ} {owner : String} {mode : Mode} {cursor : Option Int64}
  {s : Shared φ}

inductive Verdict
  /-- It asks for one more page. -/
  | goesOn (cursor : Option Int64)
  | ends (failure : Option SyncError)

def verdict (isOpen : Bool) (owner : String) (mode : Mode) :
    List EventKey → Option Int64 → List Page → Verdict
  | _, cursor, [] => .goesOn cursor
  | known, cursor, page :: pages =>
    if !isOpen && needsStore owner page then .ends (some (.store .unavailable))
    else match cursorAfter owner mode known cursor page with
      | none => .ends none
      | some next => verdict isOpen owner mode
          (known ++ (newOn owner mode known page.items).map Event.key) (some next) pages

/-- The events that the pages of a run add to an open or a closed store. -/
def storedEvents (isOpen : Bool) (owner : String) (mode : Mode) (known : List EventKey)
    (pages : List Page) : List Event :=
  if isOpen then newEvents owner mode known pages else []

theorem address_of_mem_storedEvents {isOpen : Bool} {known : List EventKey} {pages : List Page}
    {e : Event} (h : e ∈ storedEvents isOpen owner mode known pages) :
    e.address = Text.lower owner := by
  rw [storedEvents] at h
  split at h
  · obtain ⟨i, -, hevent⟩ := List.mem_filterMap.1 ((novel_sublist _ _).mem h)
    exact Event.address_of_ofItem? hevent
  · cases h

/-- Whether a run fails as the verdict of its pages says, or else as its request for one more page
was answered. -/
def Verdict.Explains (owner : String) (made : List Made) (failure : Option SyncError) :
    Verdict → Prop
  | .ends failure' => failure = failure'
  | .goesOn cursor =>
    ∃ e, ⟨.fetchPage owner cursor, .error e⟩ ∈ made ∧ failure = some (.feed e)

theorem Verdict.Explains.mono {made more : List Made} {failure : Option SyncError} {v : Verdict}
    (h : v.Explains owner made failure) (hsub : made ⊆ more) : v.Explains owner more failure := by
  cases v with
  | ends failure' => exact h
  | goesOn cursor =>
    obtain ⟨e, hmem, hfailure⟩ := h
    exact ⟨e, hsub hmem, hfailure⟩

/-- Pages never come to a failure of the feed. -/
theorem verdict_ne_feed (isOpen : Bool) (known : List EventKey) (cursor : Option Int64)
    (pages : List Page) (e : FeedError) :
    verdict isOpen owner mode known cursor pages ≠ .ends (some (.feed e)) := by
  induction pages generalizing known cursor with
  | nil => exact (nomatch ·)
  | cons page pages ih =>
    rw [verdict]
    split
    · exact (nomatch ·)
    · split
      · exact (nomatch ·)
      · exact ih _ _

/-- A run ends as its pages say, or else as its request for one more page was answered. -/
theorem pageFrom_explains (source : PageSource φ) (owner : String) (mode : Mode)
    (cursor : Option Int64) (count : Nat) (s : Shared φ) :
    (verdict s.store.isOpen owner mode s.store.events.keys cursor
      (s.pages source (pageFrom owner mode cursor count))).Explains owner
        ((pageFrom owner mode cursor count).trace (Shared.perform source) s)
        (s.exec source (pageFrom owner mode cursor count)).1.failure := by
  induction cursor, count using pageFrom.induct generalizing s with
  | case1 cursor count ih =>
    have hstore := fetchPage_store source s owner cursor
    rw [exec_pageFrom, pages_pageFrom, trace_pageFrom]
    generalize s.fetchPage source owner cursor = fetched at hstore ⊢
    rcases fetched with ⟨e | page, s₁⟩
    · exact ⟨e, List.mem_cons_self, rfl⟩
    · rw [← hstore]
      simp only [verdict, exec_takePage]
      by_cases hrefused : (!s₁.store.isOpen && needsStore owner page) = true
      · simp only [if_pos hrefused]
        exact rfl
      · simp only [if_neg hrefused]
        cases hcursor : cursorAfter owner mode s₁.store.events.keys cursor page with
        | none => exact rfl
        | some next =>
          have hrest := ih (newOn owner mode s₁.store.events.keys page.items).length next
            (isBefore_of_cursorAfter hcursor) (digested owner mode s₁ page)
          rw [digested_isOpen, digested_events, Events.keys_append] at hrest
          exact hrest.mono fun e he => .tail _ (List.mem_append_right _ he)

/-- Over a closed store a run adds nothing. -/
theorem pageFrom_of_closed (source : PageSource φ) (owner : String) (mode : Mode)
    (cursor : Option Int64) (count : Nat) (hs : s.store.isOpen = false) :
    (s.exec source (pageFrom owner mode cursor count)).2.store.events = s.store.events ∧
    (s.exec source (pageFrom owner mode cursor count)).1.count = count := by
  induction cursor, count using pageFrom.induct generalizing s with
  | case1 cursor count ih =>
    have hstore := fetchPage_store source s owner cursor
    rw [exec_pageFrom]
    generalize s.fetchPage source owner cursor = fetched at hstore ⊢
    rcases fetched with ⟨e | page, s₁⟩
    · exact ⟨congrArg Store.events hstore, rfl⟩
    · rw [← hstore] at hs ⊢
      simp only [exec_takePage]
      by_cases hrefused : (!s₁.store.isOpen && needsStore owner page) = true
      · simp only [if_pos hrefused]
        exact ⟨trivial, trivial⟩
      · have hnew : newOn owner mode s₁.store.events.keys page.items = [] :=
          newOn_of_no_events (by simp_all [needsStore])
        have hevents : (digested owner mode s₁ page).store.events = s₁.store.events := by
          rw [digested_events, hnew]
          exact List.append_nil _
        simp only [if_neg hrefused, hnew]
        cases hcursor : cursorAfter owner mode s₁.store.events.keys cursor page with
        | none => exact ⟨hevents, rfl⟩
        | some next =>
          obtain ⟨hrest, hcount⟩ := ih 0 next (isBefore_of_cursorAfter hcursor)
            ((digested_isOpen owner mode s₁ page).trans hs)
          exact ⟨hrest.trans hevents, hcount⟩

theorem mem_trace_upsertAll {records : List Record} (hs : s.store.isOpen = true) {record : Record}
    (h : record ∈ records) :
    ⟨.writeRecord record, .ok ()⟩ ∈ (upsertAll records).run.trace (Shared.perform source) s := by
  induction records generalizing s with
  | nil => cases h
  | cons first records ih =>
    rw [upsertAll, Shared.trace_run_bind, exec_upsert first hs, List.mem_append]
    rcases List.mem_cons.1 h with rfl | h
    · have hwrite : (s.perform source (.writeRecord record)).1 = .ok () := by
        simp [Shared.perform, Store.writeRecord, Store.whenOpen, hs]
      refine .inl ?_
      rw [upsert, Shared.trace_run_bind, List.mem_append]
      refine .inl ?_
      change _ ∈ [Made.mk (.writeRecord record) (s.perform source (.writeRecord record)).1]
      rw [hwrite]
      exact List.mem_singleton_self _
    · exact .inr (ih (by rw [upserted_isOpen, hs]) h)

theorem mem_trace_takePage {page : Page} (hs : s.store.isOpen = true) {record : Record}
    (h : record ∈ page.records) :
    ⟨.writeRecord record, .ok ()⟩ ∈
      (takePage owner mode cursor page).run.trace (Shared.perform source) s := by
  have hdata : page.hasReferenceData = true := by
    rw [← Bool.not_eq_false, ← records_eq_nil_iff]
    exact List.ne_nil_of_mem h
  rw [takePage, Shared.trace_run_bind, learn, if_pos hdata, Shared.trace_run_bind, upsertPage,
    Shared.trace_run_bind]
  refine List.mem_append_left _ (List.mem_append_left _ (List.mem_append_left _ ?_))
  exact mem_trace_upsertAll hs h

/-- Over an open store a run writes the reference data of all pages that it receives. -/
theorem mem_trace_pageFrom (owner : String) (mode : Mode) (cursor : Option Int64) (count : Nat)
    (hs : s.store.isOpen = true) {page : Page}
    (hpage : page ∈ s.pages source (pageFrom owner mode cursor count)) {record : Record}
    (hrecord : record ∈ page.records) : ⟨.writeRecord record, .ok ()⟩ ∈
      (pageFrom owner mode cursor count).trace (Shared.perform source) s := by
  induction cursor, count using pageFrom.induct generalizing s with
  | case1 cursor count ih =>
    have hstore := fetchPage_store source s owner cursor
    rw [pages_pageFrom] at hpage
    rw [trace_pageFrom]
    refine List.mem_cons_of_mem _ ?_
    generalize s.fetchPage source owner cursor = fetched at hstore hpage ⊢
    rcases fetched with ⟨e | received, s₁⟩
    · cases hpage
    · rw [← hstore] at hs
      simp only [exec_takePage_of_open received hs] at hpage ⊢
      rcases List.mem_cons.1 hpage with rfl | hpage
      · exact List.mem_append_left _ (mem_trace_takePage hs hrecord)
      · cases hcursor : cursorAfter owner mode s₁.store.events.keys cursor received with
        | none =>
          rw [hcursor] at hpage
          cases hpage
        | some next =>
          rw [hcursor] at hpage
          exact List.mem_append_right _ (ih _ next (isBefore_of_cursorAfter hcursor)
            ((digested_isOpen owner mode s₁ received).trans hs) hpage)

/-- A run of one address adds the events that its pages give, in the order in which the feed gave
them, reports their number, writes their reference data, and fails as the verdict of the pages says,
or else as its request for one more page was answered. -/
theorem syncAddress_explained (source : PageSource φ) (a : String) (mode : Mode) (s : Shared φ) :
    let pages := s.pages source (syncAddress a mode)
    let new := storedEvents s.store.isOpen (normalizeAddress a) mode s.store.events.keys pages
    let r := (s.exec source (syncAddress a mode)).1
    (s.exec source (syncAddress a mode)).2.store.events =
        s.store.events ++ new.map Row.ofEvent ∧
    r.address = normalizeAddress a ∧ r.count = new.length ∧
    (∀ page ∈ pages, s.store.isOpen = true → ∀ record ∈ page.records,
      ⟨.writeRecord record, .ok ()⟩ ∈ (syncAddress a mode).trace (Shared.perform source) s) ∧
    (verdict s.store.isOpen (normalizeAddress a) mode s.store.events.keys none pages).Explains
      (normalizeAddress a) ((syncAddress a mode).trace (Shared.perform source) s) r.failure := by
  have htrace : (pageFrom (normalizeAddress a) mode none 0).trace (Shared.perform source)
      (holding s (normalizeAddress a)) ⊆ (syncAddress a mode).trace (Shared.perform source) s := by
    intro e he
    rw [syncAddress, Shared.trace_bind, Shared.trace_bind]
    exact List.mem_append_right _ (List.mem_append_left _ he)
  simp only [pages_syncAddress, exec_syncAddress]
  have hrecords : ∀ page ∈ (holding s (normalizeAddress a)).pages source
        (pageFrom (normalizeAddress a) mode none 0), s.store.isOpen = true →
      ∀ record ∈ page.records, ⟨.writeRecord record, .ok ()⟩ ∈
        (syncAddress a mode).trace (Shared.perform source) s := fun page hpage hs record hrecord =>
    htrace (mem_trace_pageFrom (normalizeAddress a) mode none 0
      (s := holding s (normalizeAddress a)) hs hpage hrecord)
  have hexplains := (pageFrom_explains source (normalizeAddress a) mode none 0
    (holding s (normalizeAddress a))).mono htrace
  cases hs : s.store.isOpen with
  | true =>
    obtain ⟨hrows, hcount⟩ := pageFrom_hasEffect source (normalizeAddress a) mode none 0
      (s := holding s (normalizeAddress a)) hs
    rw [Nat.zero_add] at hcount
    rw [hs] at hrecords
    exact ⟨hrows, trivial, hcount, hrecords, hs ▸ hexplains⟩
  | false =>
    obtain ⟨hrows, hcount⟩ := pageFrom_of_closed source (normalizeAddress a) mode none 0
      (s := holding s (normalizeAddress a)) hs
    exact ⟨by simpa [storedEvents, holding] using hrows, trivial, hcount,
      fun _ _ hopen => absurd hopen Bool.false_ne_true, hs ▸ hexplains⟩

end AddressLedger.Sync
