import AddressLedger.Proofs.Sync.Page

/-!
# The effect of a run

What a run leaves in the event table, as a function of the rows before it and of the pages that it
received: the rows before it, and after them the new events of the items that it scanned. A run that
fills gaps scans everything; a run that catches up stops at the first item that was stored when the
scan of its page began.
-/
namespace AddressLedger.Sync
open Catalog Feed Service Store

/-- The items of the pages up to the first one that is known when the scan of its page begins. -/
def untilKnown (owner : String) : List EventKey → List Page → List Item
  | _, [] => []
  | known, page :: pages =>
    if page.items.any (isKnown owner known) then
      page.items.takeWhile fun i => !isKnown owner known i
    else
      page.items ++ untilKnown owner
        (known ++ (page.items.filterMap (Event.ofItem? owner)).map Event.key) pages

/-- The items of the pages that a run scans. -/
def scanned (owner : String) (known : List EventKey) : Mode → List Page → List Item
  | .fillGaps, pages => pages.flatMap Page.items
  | .catchUp, pages => untilKnown owner known pages

/-- The new events of the pages that a run received. -/
def newEvents (owner : String) (mode : Mode) (known : List EventKey) (pages : List Page) :
    List Event :=
  novel known ((scanned owner known mode pages).filterMap (Event.ofItem? owner))

variable {φ : Type} {source : PageSource φ} {owner : String} {mode : Mode}

theorem isKnown_congr {known known' : List EventKey} (h : ∀ key, key ∈ known ↔ key ∈ known')
    (i : Item) : isKnown owner known i = isKnown owner known' i := by
  simp [isKnown, h]

theorem untilKnown_congr {known known' : List EventKey} (h : ∀ key, key ∈ known ↔ key ∈ known')
    (pages : List Page) : untilKnown owner known pages = untilKnown owner known' pages := by
  induction pages generalizing known known' with
  | nil => rfl
  | cons page pages ih =>
    have hk : isKnown owner known = isKnown owner known' := funext (isKnown_congr h)
    rw [untilKnown, untilKnown, hk]
    congr 2
    apply ih
    intro key
    rw [List.mem_append, List.mem_append, h]

theorem newEvents_congr {known known' : List EventKey} (h : ∀ key, key ∈ known ↔ key ∈ known')
    (pages : List Page) : newEvents owner mode known pages = newEvents owner mode known' pages := by
  have hs : scanned owner known mode pages = scanned owner known' mode pages := by
    cases mode with
    | fillGaps => rfl
    | catchUp => exact untilKnown_congr h pages
  rw [newEvents, newEvents, hs, novel_congr h]

theorem newEvents_last {known : List EventKey} {page : Page}
    (h : catchesUp owner known mode page.items = true) (pages : List Page) :
    newEvents owner mode known (page :: pages) = newOn owner mode known page.items := by
  obtain ⟨rfl, hany⟩ : mode = .catchUp ∧ page.items.any (isKnown owner known) = true := by
    simpa [catchesUp] using h
  rw [newEvents, scanned, untilKnown, if_pos hany]
  rfl

theorem newEvents_nil (owner : String) (mode : Mode) (known : List EventKey) :
    newEvents owner mode known [] = [] := by
  cases mode <;> rfl

/-- A page that does not end the run gives all that is new on it, and its keys are known after. -/
theorem newEvents_cons {known : List EventKey} {page : Page}
    (h : catchesUp owner known mode page.items = false) (pages : List Page) :
    newEvents owner mode known (page :: pages) =
      newOn owner mode known page.items ++
        newEvents owner mode (known ++ (newOn owner mode known page.items).map Event.key)
          pages := by
  have hscanned : scanned owner known mode (page :: pages) = page.items ++ scanned owner
      (known ++ (page.items.filterMap (Event.ofItem? owner)).map Event.key) mode pages := by
    cases mode with
    | fillGaps => rfl
    | catchUp =>
      have hnone : page.items.any (isKnown owner known) = false := by simpa [catchesUp] using h
      rw [scanned, untilKnown, hnone]
      rfl
  rw [newOn, seen_of_not_catchesUp h, newEvents_congr (fun _ => mem_append_novel_iff), newEvents,
    hscanned, List.filterMap_append, novel_append]
  rfl

/-- A run that began with a table and a count, received some pages and ended: the table has the new
events of the pages, and the count has grown by their number. -/
def HasEffect (owner : String) (mode : Mode) (rows : Events) (count : Nat) (pages : List Page)
    (outcome : Outcome) (rows' : Events) : Prop :=
  rows' = rows ++ (newEvents owner mode rows.keys pages).map Row.ofEvent ∧
    outcome.count = count + (newEvents owner mode rows.keys pages).length

theorem HasEffect.nil (rows : Events) (count : Nat) (failure : Option SyncError) :
    HasEffect owner mode rows count [] ⟨count, failure⟩ rows := by
  cases mode <;> simp [HasEffect, newEvents, scanned, untilKnown, novel]

theorem HasEffect.last (page : Page) (rows : Events) (count : Nat) (failure : Option SyncError) :
    HasEffect owner mode rows count [page]
      ⟨count + (newOn owner mode rows.keys page.items).length, failure⟩
      (rows ++ (newOn owner mode rows.keys page.items).map Row.ofEvent) := by
  have h : newEvents owner mode rows.keys [page] = newOn owner mode rows.keys page.items := by
    cases hc : catchesUp owner rows.keys mode page.items with
    | true => exact newEvents_last hc []
    | false =>
      rw [newEvents_cons hc]
      cases mode <;> simp [newEvents, scanned, untilKnown, novel]
  rw [HasEffect, h]
  exact ⟨rfl, rfl⟩

theorem HasEffect.cons {page : Page} {rows rows' : Events} {count : Nat} {pages : List Page}
    {outcome : Outcome} (h : catchesUp owner rows.keys mode page.items = false)
    (rest : HasEffect owner mode
      (rows ++ (newOn owner mode rows.keys page.items).map Row.ofEvent)
      (count + (newOn owner mode rows.keys page.items).length) pages outcome rows') :
    HasEffect owner mode rows count (page :: pages) outcome rows' := by
  rw [HasEffect, Events.keys_append] at rest
  rcases rest with ⟨hrows, hcount⟩
  rw [HasEffect, newEvents_cons h, List.map_append, List.length_append]
  constructor
  · rw [hrows, List.append_assoc]
  · rw [hcount, Nat.add_assoc]

theorem pageFrom_hasEffect (source : PageSource φ) (owner : String) (mode : Mode)
    (cursor : Option Int64) (count : Nat) {s : Shared φ} (hs : s.store.isOpen = true) :
    HasEffect owner mode s.store.events count (s.pages source (pageFrom owner mode cursor count))
      (s.exec source (pageFrom owner mode cursor count)).1
      (s.exec source (pageFrom owner mode cursor count)).2.store.events := by
  induction cursor, count using pageFrom.induct generalizing s with
  | case1 cursor count ih =>
    have hstore := fetchPage_store source s owner cursor
    rw [exec_pageFrom, pages_pageFrom]
    generalize s.fetchPage source owner cursor = fetched at hstore ⊢
    rcases fetched with ⟨e | page, s₁⟩
    · rw [← hstore]
      exact HasEffect.nil _ _ _
    · rw [← hstore] at hs ⊢
      simp only [exec_takePage_of_open page hs]
      cases hcursor : cursorAfter owner mode s₁.store.events.keys cursor page with
      | none =>
        simp only [digested_events]
        exact HasEffect.last page _ _ _
      | some next =>
        have hrest := ih (newOn owner mode s₁.store.events.keys page.items).length next
          (isBefore_of_cursorAfter hcursor) ((digested_isOpen owner mode s₁ page).trans hs)
        rw [digested_events] at hrest
        exact HasEffect.cons (cursorAfter_eq_some_iff.1 hcursor).1 hrest

def holding (s : Shared φ) (owner : String) : Shared φ := { s with locked := owner :: s.locked }

theorem exec_syncAddress (a : String) (mode : Mode) (s : Shared φ) :
    s.exec source (syncAddress a mode) =
      let (outcome, s') := (holding s (normalizeAddress a)).exec source
        (pageFrom (normalizeAddress a) mode none 0)
      (⟨normalizeAddress a, outcome.count, outcome.failure⟩,
        { s' with locked := s'.locked.erase (normalizeAddress a) }) := by
  simp only [syncAddress, Shared.exec_bind]
  rfl

theorem pages_syncAddress (a : String) (mode : Mode) (s : Shared φ) :
    s.pages source (syncAddress a mode) = (holding s (normalizeAddress a)).pages source
      (pageFrom (normalizeAddress a) mode none 0) := by
  simp only [syncAddress, Shared.pages_bind]
  exact List.append_nil _

/-- A run of one address appends the new events of the items that it scanned, in the order in which
the feed gave them, and reports their number, however it ends. -/
theorem syncAddress_appends_new_events (source : PageSource φ) (a : String) (mode : Mode)
    {s : Shared φ} (hs : s.store.isOpen = true) :
    let new := newEvents (normalizeAddress a) mode s.store.events.keys
      (s.pages source (syncAddress a mode))
    (s.exec source (syncAddress a mode)).2.store.events =
        s.store.events ++ new.map Row.ofEvent ∧
      (s.exec source (syncAddress a mode)).1.count = new.length := by
  obtain ⟨hrows, hcount⟩ := pageFrom_hasEffect source (normalizeAddress a) mode none 0
    (s := holding s (normalizeAddress a)) hs
  rw [exec_syncAddress, pages_syncAddress]
  rw [Nat.zero_add] at hcount
  exact ⟨hrows, hcount⟩

def bareItem (id : String) : Item :=
  ⟨some id, some "eth", none, none, false, none, none, [], [], none, TxInfo.empty, []⟩

def timedItem (id : String) (time : Float) : Item := { bareItem id with timeAt := some time }

def bareEvent (id : String) : Event := ⟨id, "eth", "0xab", none, none, false, bareItem id⟩

theorem normalizeAddress_ab : normalizeAddress "0xab" = "0xab" := by decide +kernel

/-- A feed that gives one and the same page, with a repeated item and one without an id. -/
def samePage : PageSource Unit :=
  ⟨fun _ _ s => (.answered false (.ok ⟨[bareItem "b", bareItem "b", bareItem "", bareItem "a",
    bareItem "c"], [], [], []⟩), s)⟩

def tableOf (es : List Event) : Shared Unit :=
  ⟨⟨true, es.map Row.ofEvent, [], [], []⟩, [], 0, [], false, ()⟩

theorem pages_samePage : (tableOf [bareEvent "a"]).pages samePage (syncAddress " 0xAB " .catchUp) =
    [⟨[bareItem "b", bareItem "b", bareItem "", bareItem "a", bareItem "c"], [], [], []⟩] := by
  rw [syncAddress, pageFrom]
  rfl

theorem syncAddress_samePage : (tableOf [bareEvent "a"]).store.isOpen = true ∧
    ((tableOf [bareEvent "a"]).exec samePage (syncAddress " 0xAB " .catchUp)).2.store.events =
        [bareEvent "a", bareEvent "b"].map Row.ofEvent ∧
      ((tableOf [bareEvent "a"]).exec samePage (syncAddress " 0xAB " .catchUp)).1.count = 1 := by
  have h := syncAddress_appends_new_events samePage " 0xAB " .catchUp
    (s := tableOf [bareEvent "a"]) rfl
  rw [pages_samePage] at h
  exact ⟨rfl, h⟩

end AddressLedger.Sync
