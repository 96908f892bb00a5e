import AddressLedger.Proofs.Sync.Modes

/-!
# Running again

A second run over a fixed source is offered what the first one was offered. The first event of all
is stored by then, at which catching up stops; filling gaps goes on and finds everything stored. So
the second run adds nothing, however the first one ended.
-/
namespace AddressLedger.Sync
open Catalog Feed Service Store

variable {φ : Type} {source : PageSource φ} {owner : String} {mode : Mode}
  {known : List EventKey} {e : Event} {s s' : Shared φ}

theorem isKnown_of_ofItem? {i : Item} (h : Event.ofItem? owner i = some e) :
    isKnown owner known i = decide (e.key ∈ known) := by
  simp [isKnown, h]

/-- Of the events of a page, the first one is also the first that catching up comes to, unless it is
known. -/
theorem head?_untilKnownItem (owner : String) (known : List EventKey) (items : List Item) :
    ((items.takeWhile fun i => !isKnown owner known i).filterMap (Event.ofItem? owner)).head? =
      (items.filterMap (Event.ofItem? owner)).head?.filter fun e => e.key ∉ known := by
  induction items with
  | nil => rfl
  | cons i items ih =>
    cases hevent : Event.ofItem? owner i with
    | none => simp [isKnown_of_ofItem?_eq_none hevent, hevent, ih]
    | some e =>
      by_cases hk : e.key ∈ known
      · simp [isKnown_of_ofItem? hevent, hevent, hk, Option.filter]
      · simp [isKnown_of_ofItem? hevent, hevent, hk, Option.filter]

/-- A page with a known event ends catching up, and so does one whose first event is known. -/
theorem catchesUp_of_head? {items : List Item}
    (he : (items.filterMap (Event.ofItem? owner)).head? = some e) (hk : e.key ∈ known) :
    catchesUp owner known .catchUp items = true := by
  obtain ⟨i, hi, hevent⟩ := List.mem_filterMap.1 (List.mem_of_head? he)
  have hany : items.any (isKnown owner known) = true :=
    List.any_eq_true.2 ⟨i, hi, by simp [isKnown_of_ofItem? hevent, hk]⟩
  simp [catchesUp, hany]

theorem newEvents_of_no_events {page : Page}
    (h : page.items.filterMap (Event.ofItem? owner) = []) (pages : List Page) :
    newEvents owner mode known (page :: pages) = newEvents owner mode known pages := by
  rw [newEvents_cons (catchesUp_of_no_events h), newOn_of_no_events h, List.map_nil,
    List.append_nil, List.nil_append]

/-- Catching up finds nothing new on pages whose first event is known. -/
theorem newEvents_catchUp_of_known {pages : List Page}
    (h : ∀ e, (offered owner pages).head? = some e → e.key ∈ known) :
    newEvents owner .catchUp known pages = [] := by
  induction pages with
  | nil => rfl
  | cons page pages ih =>
    rw [offered_cons] at h
    cases hevents : page.items.filterMap (Event.ofItem? owner) with
    | nil =>
      rw [newEvents_of_no_events hevents]
      apply ih
      intro e he
      apply h
      rw [hevents, List.nil_append, he]
    | cons e events =>
      have hk : e.key ∈ known := h e (by rw [hevents]; rfl)
      have he : (page.items.filterMap (Event.ofItem? owner)).head? = some e := by
        rw [hevents]
        rfl
      have hnone := head?_untilKnownItem owner known page.items
      simp only [he, Option.filter_some, hk, not_true_eq_false, decide_false,
        Bool.false_eq_true, if_false, List.head?_eq_none_iff] at hnone
      rw [newEvents_last (catchesUp_of_head? he hk), newOn, seen, hnone]
      rfl

/-- After a page the first event on it is known, in either mode. -/
theorem key_mem_of_head?_page {items : List Item}
    (h : (items.filterMap (Event.ofItem? owner)).head? = some e) :
    e.key ∈ known ++ (newOn owner mode known items).map Event.key := by
  by_cases hk : e.key ∈ known
  · exact List.mem_append_left _ hk
  · have hseen : e ∈ (seen owner known mode items).filterMap (Event.ofItem? owner) := by
      cases mode with
      | fillGaps => exact List.mem_of_head? h
      | catchUp =>
        apply List.mem_of_head?
        rw [seen, head?_untilKnownItem, h]
        simp [Option.filter, hk]
    rw [newOn, mem_append_novel_iff]
    exact List.mem_append_right _ (List.mem_map_of_mem hseen)

/-- After a run in either mode the first event that its pages offer is known. -/
theorem key_mem_of_head?_offered {pages : List Page} (h : (offered owner pages).head? = some e) :
    e.key ∈ known ++ (newEvents owner mode known pages).map Event.key := by
  induction pages with
  | nil => cases h
  | cons page pages ih =>
    rw [offered_cons] at h
    cases hevents : page.items.filterMap (Event.ofItem? owner) with
    | nil =>
      rw [newEvents_of_no_events hevents]
      apply ih
      rwa [hevents, List.nil_append] at h
    | cons f events =>
      have hf : (page.items.filterMap (Event.ofItem? owner)).head? = some e := by
        rw [hevents] at h ⊢
        exact h
      cases hcaught : catchesUp owner known mode page.items with
      | true =>
        rw [newEvents_last hcaught]
        exact key_mem_of_head?_page hf
      | false =>
        rw [newEvents_cons hcaught, List.map_append, ← List.append_assoc]
        exact List.mem_append_left _ (key_mem_of_head?_page hf)

/-- Over an open store a run that fills gaps receives the same pages whatever is stored. -/
theorem pages_fillGaps_congr (hfixed : source.IsFixed) (owner : String) (cursor : Option Int64)
    (count count' : Nat) (hopen : s.store.isOpen = true) (hopen' : s'.store.isOpen = true)
    (hstopped : s.stopped = s'.stopped) :
    s.pages source (pageFrom owner .fillGaps cursor count) =
      s'.pages source (pageFrom owner .fillGaps cursor count') := by
  induction cursor, count using pageFrom.induct generalizing s s' count' with
  | case1 cursor count ih =>
    have hstore := fetchPage_store source s owner cursor
    have hstore' := fetchPage_store source s' owner cursor
    obtain ⟨hanswer, hstopped⟩ := Shared.fetchPage_congr hfixed hstopped owner cursor
    rw [pages_pageFrom, pages_pageFrom]
    generalize s.fetchPage source owner cursor = fetched at hstore hanswer hstopped ⊢
    generalize s'.fetchPage source owner cursor = fetched' at hstore' hanswer hstopped ⊢
    rcases fetched with ⟨answer, s₁⟩
    rcases fetched' with ⟨answer', s₁'⟩
    obtain rfl : answer = answer' := hanswer
    cases answer with
    | error e => rfl
    | ok page =>
      rw [← hstore] at hopen
      rw [← hstore'] at hopen'
      have hcursor : cursorAfter owner .fillGaps s₁'.store.events.keys cursor page =
          cursorAfter owner .fillGaps s₁.store.events.keys cursor page := rfl
      simp only [exec_takePage_of_open page hopen, exec_takePage_of_open page hopen', hcursor]
      cases hnext : cursorAfter owner .fillGaps s₁.store.events.keys cursor page with
      | none => rfl
      | some next =>
        apply congrArg (List.cons page)
        apply ih _ next (isBefore_of_cursorAfter hnext)
        · exact (digested_isOpen owner .fillGaps s₁ page).trans hopen
        · exact (digested_isOpen owner .fillGaps s₁' page).trans hopen'
        · rw [digested_stopped, digested_stopped]
          exact hstopped

/-- Over an open store, what a run finds new on its pages is what it would find on the pages of a
run that fills gaps. -/
theorem newEvents_pages (source : PageSource φ) (owner : String) (mode : Mode)
    (hopen : s.store.isOpen = true) :
    newEvents owner mode s.store.events.keys (s.pages source (pageFrom owner mode none 0)) =
      newEvents owner mode s.store.events.keys
        (s.pages source (pageFrom owner .fillGaps none 0)) := by
  cases mode with
  | fillGaps => rfl
  | catchUp => exact newEvents_pages_catchUp source owner none 0 0 hopen

theorem pages_of_stopped (owner : String) (mode : Mode) (cursor : Option Int64) (count : Nat)
    (h : s.stopped = true) : s.pages source (pageFrom owner mode cursor count) = [] := by
  rw [pageFrom, Shared.pages_bind, pages_fetchPage, Shared.exec_call, Shared.perform,
    Shared.fetchPage, if_pos h]
  rfl

/-- Nothing is new to a run over a state in which the new events of a run before are stored. -/
theorem newEvents_again (hfixed : source.IsFixed) {first again : Mode}
    (hmodes : again = first ∨ again = .catchUp) (hopen : s.store.isOpen = true)
    (hopen' : s'.store.isOpen = true) (hstopped : s.stopped = true → s'.stopped = true)
    (hkeys : s'.store.events.keys = s.store.events.keys ++ (newEvents owner first
      s.store.events.keys (s.pages source (pageFrom owner first none 0))).map Event.key) :
    newEvents owner again s'.store.events.keys
      (s'.pages source (pageFrom owner again none 0)) = [] := by
  cases hcancelled : s'.stopped with
  | true => rw [pages_of_stopped owner again none 0 hcancelled, newEvents_nil]
  | false =>
    have hrunning : s.stopped = s'.stopped := by
      cases h : s.stopped with
      | true => exact (hstopped h).symm
      | false => exact hcancelled.symm
    have hpages := pages_fillGaps_congr hfixed owner none 0 0 hopen hopen' hrunning
    rw [newEvents_pages source owner first hopen] at hkeys
    rw [newEvents_pages source owner again hopen', ← hpages]
    cases again with
    | catchUp =>
      apply newEvents_catchUp_of_known
      intro e he
      rw [hkeys]
      exact key_mem_of_head?_offered he
    | fillGaps =>
      obtain rfl : Mode.fillGaps = first := hmodes.resolve_right (by decide)
      apply novel_eq_nil
      intro e he
      rw [hkeys, newEvents, mem_append_novel_iff]
      exact List.mem_append_right _ (List.mem_map_of_mem he)

/-- A second run of an address over a fixed source adds nothing and reports no new events, if it is
in the mode of the first one or catches up, whatever was stored before and however the first run
ended. -/
theorem syncAddress_again (hfixed : source.IsFixed) (a : String) {first again : Mode}
    (hmodes : again = first ∨ again = .catchUp) {s : Shared φ} (hopen : s.store.isOpen = true) :
    let once := (s.exec source (syncAddress a first)).2
    (once.exec source (syncAddress a again)).2.store.events = once.store.events ∧
      (once.exec source (syncAddress a again)).1.count = 0 := by
  intro once
  have hopen' : (holding once (normalizeAddress a)).store.isOpen = true :=
    (Shared.exec_isOpen _ s).trans hopen
  have hrows : once.store.events = s.store.events ++ (newEvents (normalizeAddress a) first
      s.store.events.keys ((holding s (normalizeAddress a)).pages source
        (pageFrom (normalizeAddress a) first none 0))).map Row.ofEvent := by
    rw [show once = _ from congrArg Prod.snd (exec_syncAddress a first s)]
    exact (pageFrom_hasEffect source (normalizeAddress a) first none 0
      (s := holding s (normalizeAddress a)) hopen).1
  obtain ⟨hrows', hcount⟩ := pageFrom_hasEffect source (normalizeAddress a) again none 0 hopen'
  have hkeys := congrArg Events.keys hrows
  rw [Events.keys_append] at hkeys
  have hnone := newEvents_again (s := holding s (normalizeAddress a)) hfixed hmodes hopen hopen'
    (fun h => Shared.exec_stopped (syncAddress a first) (s := s) h) hkeys
  rw [hnone] at hrows' hcount
  rw [exec_syncAddress]
  exact ⟨hrows'.trans (List.append_nil _), hcount⟩

theorem count_failingFeed : ((tableOf [bareEvent "b", bareEvent "a"]).exec failingFeed
    (syncAddress "0xab" .fillGaps)).1.count = 1 := by
  have hcount := (pageFrom_hasEffect failingFeed "0xab" .fillGaps none 0
    (s := holding (tableOf [bareEvent "b", bareEvent "a"]) "0xab") rfl).2
  have hpages := pages_failingFeed
  rw [pages_syncAddress, normalizeAddress_ab] at hpages
  rw [hpages] at hcount
  rw [exec_syncAddress, normalizeAddress_ab]
  exact hcount

/-- Catching up after a run that stored an event and failed. -/
theorem syncAddress_again_failingFeed :
    failingFeed.IsFixed ∧ (Mode.catchUp = .fillGaps ∨ Mode.catchUp = .catchUp) ∧
    (tableOf [bareEvent "b", bareEvent "a"]).store.isOpen = true ∧
    ((tableOf [bareEvent "b", bareEvent "a"]).exec failingFeed
      (syncAddress "0xab" .fillGaps)).1.count = 1 ∧
    let once := ((tableOf [bareEvent "b", bareEvent "a"]).exec failingFeed
      (syncAddress "0xab" .fillGaps)).2
    (once.exec failingFeed (syncAddress "0xab" .catchUp)).2.store.events = once.store.events ∧
      (once.exec failingFeed (syncAddress "0xab" .catchUp)).1.count = 0 :=
  ⟨failingFeed_isFixed, .inr rfl, rfl, count_failingFeed,
    syncAddress_again failingFeed_isFixed "0xab" (.inr rfl) rfl⟩

end AddressLedger.Sync
