import AddressLedger.Proofs.Service.Agreement
import AddressLedger.Proofs.Sync.Accesses

/-!
# Catching up and filling gaps

The two modes make the same requests up to the page on which catching up stops. If all that comes
after a stored item is stored too, there is nothing new beyond that place, and both modes leave the
same events and report the same count, however the longer run goes on and ends.
-/
namespace AddressLedger.Sync
open Catalog Feed Service Store

variable {φ : Type} {source : PageSource φ} {owner : String} {mode : Mode}
  {known : List EventKey} {s s' : Shared φ}

/-- The events that pages offer: those of their items with an id and a chain. -/
def offered (owner : String) (pages : List Page) : List Event :=
  (pages.flatMap Page.items).filterMap (Event.ofItem? owner)

/-- Whether events have different keys and all events after a known one are known. -/
structure IsKnownFromOn (known : List EventKey) (events : List Event) : Prop where
  distinct : (events.map Event.key).Nodup
  after : events.Pairwise fun e f => e.key ∈ known → f.key ∈ known

theorem novel_eq_nil {events : List Event} (h : ∀ e ∈ events, e.key ∈ known) :
    novel known events = [] := by
  induction events with
  | nil => rfl
  | cons e events ih =>
    rw [novel, if_pos (h e List.mem_cons_self)]
    exact ih fun f hf => h f (List.mem_cons_of_mem _ hf)

theorem offered_cons (page : Page) (pages : List Page) :
    offered owner (page :: pages) =
      page.items.filterMap (Event.ofItem? owner) ++ offered owner pages := by
  rw [offered, List.flatMap_cons, List.filterMap_append]
  rfl

/-- Behind the first known item of a page there is nothing new. -/
theorem novel_of_known_item {items : List Item} {more : List Event}
    (h : IsKnownFromOn known (items.filterMap (Event.ofItem? owner) ++ more))
    (hany : items.any (isKnown owner known) = true) :
    novel known (items.filterMap (Event.ofItem? owner) ++ more) =
      newOn owner .catchUp known items := by
  have hsplit := List.takeWhile_append_dropWhile (p := fun i => !isKnown owner known i) (l := items)
  cases hdrop : items.dropWhile fun i => !isKnown owner known i with
  | nil =>
    rw [List.dropWhile_eq_nil_iff] at hdrop
    obtain ⟨i, hi, hknown⟩ := List.any_eq_true.1 hany
    have hunknown := hdrop i hi
    rw [hknown] at hunknown
    cases hunknown
  | cons i rest =>
    have hi : isKnown owner known i = true := by
      have hhead := List.head?_dropWhile_not (fun i => !isKnown owner known i) items
      rw [hdrop] at hhead
      simpa using hhead
    obtain ⟨e, he, hkey⟩ : ∃ e, Event.ofItem? owner i = some e ∧ e.key ∈ known := by
      simpa [isKnown, Option.any_eq_true] using hi
    rw [hdrop] at hsplit
    have hevents : items.filterMap (Event.ofItem? owner) ++ more =
        (items.takeWhile fun i => !isKnown owner known i).filterMap (Event.ofItem? owner) ++
          e :: (rest.filterMap (Event.ofItem? owner) ++ more) := by
      rw [← List.cons_append, ← List.filterMap_cons_some he, ← List.append_assoc,
        ← List.filterMap_append, hsplit]
    rw [hevents] at h ⊢
    have hafter := (List.pairwise_append.1 h.after).2.1
    have hnone : ∀ f ∈ e :: (rest.filterMap (Event.ofItem? owner) ++ more), f.key ∈ known := by
      intro f hf
      obtain rfl | hf := List.mem_cons.1 hf
      · exact hkey
      · exact (List.pairwise_cons.1 hafter).1 f hf hkey
    rw [novel_append, novel_eq_nil fun f hf => List.mem_append_left _ (hnone f hf),
      List.append_nil]
    rfl

/-- After a page without known items, what comes is known or not as it was before. -/
theorem IsKnownFromOn.next {page : Page} {pages : List Page}
    (h : IsKnownFromOn known (offered owner (page :: pages)))
    (hnone : catchesUp owner known .catchUp page.items = false) :
    IsKnownFromOn (known ++ (newOn owner .catchUp known page.items).map Event.key)
      (offered owner pages) := by
  rw [offered_cons] at h
  obtain ⟨-, hrest, hdisjoint⟩ := List.nodup_append.1 (List.map_append ▸ h.distinct)
  have hbefore : ∀ e ∈ offered owner pages,
      (e.key ∈ known ++ (newOn owner .catchUp known page.items).map Event.key ↔ e.key ∈ known) := by
    intro e he
    rw [newOn, seen_of_not_catchesUp hnone, mem_append_novel_iff, List.mem_append]
    constructor
    · rintro (hmem | hmem)
      · exact hmem
      · exact (hdisjoint _ hmem _ (List.mem_map_of_mem he) rfl).elim
    · exact .inl
  refine ⟨hrest, (List.pairwise_append.1 h.after).2.1.imp_of_mem fun he hf hafter => ?_⟩
  rw [hbefore _ he, hbefore _ hf]
  exact hafter

/-- Where everything after a known item is known, pages give the same in both modes. -/
theorem newEvents_catchUp {pages : List Page} (h : IsKnownFromOn known (offered owner pages)) :
    newEvents owner .catchUp known pages = newEvents owner .fillGaps known pages := by
  induction pages generalizing known with
  | nil => rw [newEvents_nil, newEvents_nil]
  | cons page pages ih =>
    cases hcaught : catchesUp owner known .catchUp page.items with
    | true =>
      rw [newEvents_last hcaught, newEvents, scanned, ← offered, offered_cons]
      rw [offered_cons] at h
      exact (novel_of_known_item h (by simpa [catchesUp] using hcaught)).symm
    | false =>
      have hfill : catchesUp owner known .fillGaps page.items = false := rfl
      rw [newEvents_cons hcaught, newEvents_cons hfill, ih (h.next hcaught),
        newOn_of_not_catchesUp hcaught]

/-- Over an open store, catching up receives the pages that filling gaps receives, up to the one
that ends it. -/
theorem newEvents_pages_catchUp (source : PageSource φ) (owner : String) (cursor : Option Int64)
    (count count' : Nat) (hopen : s.store.isOpen = true) :
    newEvents owner .catchUp s.store.events.keys
        (s.pages source (pageFrom owner .catchUp cursor count)) =
      newEvents owner .catchUp s.store.events.keys
        (s.pages source (pageFrom owner .fillGaps cursor count')) := by
  induction cursor, count using pageFrom.induct generalizing s count' with
  | case1 cursor count ih =>
    have hstore := fetchPage_store source s owner cursor
    rw [pages_pageFrom, pages_pageFrom]
    generalize s.fetchPage source owner cursor = fetched at hstore ⊢
    rcases fetched with ⟨e | page, s₁⟩
    · rfl
    · rw [← hstore] at hopen ⊢
      cases hcaught : catchesUp owner s₁.store.events.keys .catchUp page.items with
      | true =>
        -- Catching up ends here: what the other run receives later does not count.
        exact (newEvents_last hcaught _).trans (newEvents_last hcaught _).symm
      | false =>
        simp only [exec_takePage_fillGaps fun _ => hcaught, exec_takePage_of_open page hopen]
        cases hcursor : cursorAfter owner .fillGaps s₁.store.events.keys cursor page with
        | none => rfl
        | some next =>
          have hrest := ih (newOn owner .fillGaps s₁.store.events.keys page.items).length next
            (isBefore_of_cursorAfter hcursor)
            (count' + (newOn owner .fillGaps s₁.store.events.keys page.items).length)
            ((digested_isOpen owner .fillGaps s₁ page).trans hopen)
          rw [digested_events, Events.keys_append] at hrest
          have hcons := newEvents_cons hcaught
          rw [newOn_of_not_catchesUp hcaught] at hcons
          exact (hcons _).trans ((congrArg _ hrest).trans (hcons _).symm)

theorem exec_pageFrom_of_closed (source : PageSource φ) (owner : String) (cursor : Option Int64)
    (count : Nat) (hclosed : s.store.isOpen = false) :
    s.exec source (pageFrom owner .catchUp cursor count) =
      s.exec source (pageFrom owner .fillGaps cursor count) := by
  induction cursor, count using pageFrom.induct generalizing s with
  | case1 cursor count ih =>
    have hstore := fetchPage_store source s owner cursor
    rw [exec_pageFrom, exec_pageFrom]
    generalize s.fetchPage source owner cursor = fetched at hstore ⊢
    rcases fetched with ⟨e | page, s₁⟩
    · rfl
    · rw [← hstore] at hclosed
      have hsame : s₁.exec source (takePage owner .catchUp cursor page).run =
          s₁.exec source (takePage owner .fillGaps cursor page).run :=
        exec_takePage_fillGaps fun hopen => absurd (hopen.symm.trans hclosed) (by decide)
      have hkept : (s₁.exec source _).2.store.isOpen = s₁.store.isOpen :=
        Shared.exec_isOpen (takePage owner .fillGaps cursor page).run s₁
      simp only [hsame]
      rcases htaken : s₁.exec source (takePage owner .fillGaps cursor page).run with
        ⟨e | ⟨new, _ | next⟩, s₂⟩
      · rfl
      · rfl
      · obtain ⟨-, -, -, hbefore⟩ := next_of_takePage htaken
        rw [htaken] at hkept
        exact ih new next hbefore (hkept.trans hclosed)

theorem ignoresCatalog_of_pagesFor {a : Access} (h : PagesFor owner a) :
    Shared.IgnoresCatalog a := by
  cases a with
  | readRecords kind ids => exact h.elim
  | cached key => exact h.elim
  | generation => exact h.elim
  | _ => trivial

theorem pageFrom_ignoresCatalog (owner : String) (mode : Mode) (cursor : Option Int64)
    (count : Nat) : (pageFrom owner mode cursor count).Within Shared.IgnoresCatalog :=
  (pageFrom_within owner mode cursor count).mono fun _ => ignoresCatalog_of_pagesFor

theorem syncAddress_ignoresCatalog (a : String) (mode : Mode) :
    (syncAddress a mode).Within Shared.IgnoresCatalog := by
  refine Procedure.Within.bind ⟨trivial, fun _ => trivial⟩ fun _ => ?_
  refine (pageFrom_ignoresCatalog _ mode none 0).bind fun outcome => ?_
  exact ⟨trivial, fun _ => trivial⟩

theorem syncAddress_modes_agree_from (source : PageSource φ) (a : String) (s : Shared φ)
    (h : IsKnownFromOn s.store.events.keys
      (offered (normalizeAddress a) (s.pages source (syncAddress a .fillGaps)))) :
    (s.exec source (syncAddress a .catchUp)).2.store.events =
        (s.exec source (syncAddress a .fillGaps)).2.store.events ∧
      (s.exec source (syncAddress a .catchUp)).1.count =
        (s.exec source (syncAddress a .fillGaps)).1.count := by
  cases hopen : s.store.isOpen with
  | false =>
    rw [exec_syncAddress, exec_syncAddress, exec_pageFrom_of_closed source _ none 0
      (s := holding s (normalizeAddress a)) hopen]
    exact ⟨rfl, rfl⟩
  | true =>
    obtain ⟨hrows, hcount⟩ := pageFrom_hasEffect source (normalizeAddress a) .catchUp none 0
      (s := holding s (normalizeAddress a)) hopen
    obtain ⟨hrows', hcount'⟩ := pageFrom_hasEffect source (normalizeAddress a) .fillGaps none 0
      (s := holding s (normalizeAddress a)) hopen
    have hpages := newEvents_pages_catchUp source (normalizeAddress a) none 0 0
      (s := holding s (normalizeAddress a)) hopen
    rw [pages_syncAddress] at h
    have hnew := hpages.trans (newEvents_catchUp h)
    rw [exec_syncAddress, exec_syncAddress]
    refine ⟨hrows.trans ?_, hcount.trans ?_⟩
    · exact (congrArg (fun new => s.store.events ++ new.map Row.ofEvent) hnew).trans hrows'.symm
    · exact (congrArg (fun new => 0 + new.length) hnew).trans hcount'.symm

/-- Catching up and filling gaps over one fixed feed and the same events leave the same events and
report the same count, if the pages of the longer run offer each key once and nothing unknown after
a known one. Requests may fail, and so may the store. -/
theorem syncAddress_modes_agree (hfixed : source.IsFixed) (a : String) (hsame : s.Agrees s')
    (h : IsKnownFromOn s'.store.events.keys
      (offered (normalizeAddress a) (s'.pages source (syncAddress a .fillGaps)))) :
    (s.exec source (syncAddress a .catchUp)).2.store.events =
        (s'.exec source (syncAddress a .fillGaps)).2.store.events ∧
      (s.exec source (syncAddress a .catchUp)).1.count =
        (s'.exec source (syncAddress a .fillGaps)).1.count := by
  obtain ⟨hresult, -, hend⟩ := hsame.run hfixed (syncAddress_ignoresCatalog a .catchUp)
  obtain ⟨hrows, hcount⟩ := syncAddress_modes_agree_from source a s' h
  exact ⟨hend.events.trans hrows, (congrArg SyncResult.count hresult).trans hcount⟩

/-- A page of an item that is new below and one that is stored, then a page of a stored item, and
nothing for what is older. -/
def failingFeed : PageSource Unit where
  request _ cursor feed :=
    (.answered false
      (if cursor = none then .ok ⟨[timedItem "c" 30, timedItem "b" 20], [], [], []⟩
      else if cursor = some 20 then .ok ⟨[timedItem "a" 10], [], [], []⟩
      else .error .request), feed)

theorem failingFeed_isFixed : failingFeed.IsFixed := fun _ _ _ _ => rfl

def afterNewest : Shared Unit :=
  appended (holding (tableOf [bareEvent "b", bareEvent "a"]) "0xab")
    (newOn "0xab" .fillGaps (tableOf [bareEvent "b", bareEvent "a"]).store.events.keys
      [timedItem "c" 30, timedItem "b" 20])

theorem pages_failingFeed :
    (tableOf [bareEvent "b", bareEvent "a"]).pages failingFeed (syncAddress "0xab" .fillGaps) =
      [⟨[timedItem "c" 30, timedItem "b" 20], [], [], []⟩, ⟨[timedItem "a" 10], [], [], []⟩] := by
  have hfirst : (holding (tableOf [bareEvent "b", bareEvent "a"]) "0xab").pages failingFeed
      (pageFrom "0xab" .fillGaps none 0) = ⟨[timedItem "c" 30, timedItem "b" 20], [], [], []⟩ ::
        afterNewest.pages failingFeed (pageFrom "0xab" .fillGaps (some 20) 1) := by
    rw [pageFrom]
    rfl
  have hsecond : afterNewest.pages failingFeed (pageFrom "0xab" .fillGaps (some 20) 1) =
      ⟨[timedItem "a" 10], [], [], []⟩ ::
        afterNewest.pages failingFeed (pageFrom "0xab" .fillGaps (some 10) 1) := by
    rw [pageFrom]
    with_unfolding_all rfl
  have hthird : afterNewest.pages failingFeed (pageFrom "0xab" .fillGaps (some 10) 1) = [] := by
    rw [pageFrom, Shared.pages_bind, pages_fetchPage]
    rfl
  rw [pages_syncAddress, normalizeAddress_ab, hfirst, hsecond, hthird]

/-- Catching up stops at the stored item, while filling gaps goes on and fails. -/
theorem syncAddress_modes_agree_failingFeed :
    failingFeed.IsFixed ∧
    (tableOf [bareEvent "b", bareEvent "a"]).Agrees (tableOf [bareEvent "b", bareEvent "a"]) ∧
    IsKnownFromOn (tableOf [bareEvent "b", bareEvent "a"]).store.events.keys
      (offered (normalizeAddress "0xab") ((tableOf [bareEvent "b", bareEvent "a"]).pages failingFeed
        (syncAddress "0xab" .fillGaps))) ∧
    ((tableOf [bareEvent "b", bareEvent "a"]).exec failingFeed
        (syncAddress "0xab" .catchUp)).2.store.events =
      ((tableOf [bareEvent "b", bareEvent "a"]).exec failingFeed
        (syncAddress "0xab" .fillGaps)).2.store.events ∧
    ((tableOf [bareEvent "b", bareEvent "a"]).exec failingFeed
        (syncAddress "0xab" .catchUp)).1.count =
      ((tableOf [bareEvent "b", bareEvent "a"]).exec failingFeed
        (syncAddress "0xab" .fillGaps)).1.count := by
  have hknown : IsKnownFromOn (tableOf [bareEvent "b", bareEvent "a"]).store.events.keys
      (offered (normalizeAddress "0xab") ((tableOf [bareEvent "b", bareEvent "a"]).pages failingFeed
        (syncAddress "0xab" .fillGaps))) := by
    rw [pages_failingFeed, normalizeAddress_ab]
    exact ⟨by decide +kernel, by decide +kernel⟩
  exact ⟨failingFeed_isFixed, ⟨rfl, rfl, rfl⟩, hknown,
    syncAddress_modes_agree failingFeed_isFixed "0xab" ⟨rfl, rfl, rfl⟩ hknown⟩

end AddressLedger.Sync
