import AddressLedger.Proofs.Feed.Ledger
import AddressLedger.Proofs.Sync.Walk

/-!
# Filling gaps

A run that fills gaps over the feed of a ledger with distinct whole seconds receives every item of
it, whatever is stored, and stores what was missing. The pages follow each other without a gap, as
every item after the end of a page lies before the whole seconds of its last item. The last item may
come again if it lies before its own whole seconds; with pages of one item the run then stops.
-/
namespace AddressLedger.Sync
open Catalog Feed Service Store

variable {φ : Type} {source : PageSource φ} {owner : String} {mode : Mode} {l : Ledger} {n : Nat}
  {known : List EventKey} {cursor : Option Int64} {pages : List Page}
  {failure : Option SyncError}

theorem isKnown_of_event {i : Item} {e : Event} (h : Event.ofItem? owner i = some e)
    (known : List EventKey) : isKnown owner known i = decide (e.key ∈ known) := by
  simp [isKnown, h]

theorem nodup_events (l : Ledger) (owner : String) :
    (l.items.filterMap (Event.ofItem? owner)).Nodup := by
  have hitems : l.items.Nodup := .of_map _ l.isDistinct
  apply List.Pairwise.filterMap _ _ (List.Pairwise.and_mem.1 hitems)
  rintro i j ⟨hi, hj, hne⟩ e he f hf rfl
  exact hne (Ledger.eq_of_key_eq hi hj he hf rfl)

theorem mem_novel_iff {items : List Item} (hitems : ∀ i ∈ items, i ∈ l.items) {e : Event} :
    e ∈ novel known (items.filterMap (Event.ofItem? owner)) ↔
      e.key ∉ known ∧ ∃ i ∈ items, Event.ofItem? owner i = some e := by
  constructor
  · intro h
    exact ⟨key_notMem_of_mem_novel h, List.mem_filterMap.1 ((novel_sublist _ _).mem h)⟩
  · rintro ⟨hkey, i, hi, he⟩
    have hmem : e.key ∈ known ++ (items.filterMap (Event.ofItem? owner)).map Event.key :=
      List.mem_append_right _ (List.mem_map_of_mem (List.mem_filterMap.2 ⟨i, hi, he⟩))
    rw [← mem_append_novel_iff, List.mem_append] at hmem
    obtain ⟨f, hf, hsame⟩ := List.mem_map.1 (hmem.resolve_left hkey)
    obtain ⟨j, hj, hfj⟩ := List.mem_filterMap.1 ((novel_sublist _ _).mem hf)
    obtain rfl := Ledger.eq_of_key_eq (hitems i hi) (hitems j hj) he hfj hsame.symm
    rw [he, Option.some.injEq] at hfj
    rwa [hfj]

/-- A run over the feed of a ledger is a walk that does not fail. -/
theorem walk_of_serves (hserves : Serves source owner l n) (mode : Mode) {s : Shared φ}
    (hopen : s.store.isOpen = true) (hrunning : s.stopped = false) :
    (s.exec source (pageFrom owner mode none 0)).1.failure = none ∧
      Walk (l.Allows n) owner mode s.store.events.keys none
        (s.pages source (pageFrom owner mode none 0)) none := by
  have hwalk := pageFrom_walk (· = false) (fun s cursor hs => hserves.fetchPage hs cursor) mode
    none 0 hopen hrunning
  have hend := hwalk.failure_eq_none (by simp [Ledger.Answers])
  rw [hend] at hwalk
  exact ⟨hend, hwalk.mono fun _ _ => Ledger.Answers.allows⟩

theorem mem_older_of_isBefore {next : Int64} (hbefore : isBefore next cursor = true) {i : Item}
    (hi : i ∈ l.older (some next)) : i ∈ l.older cursor := by
  cases cursor with
  | none => exact Ledger.older_none ▸ (Ledger.mem_older.1 hi).1
  | some c =>
    have hmem := (Ledger.mem_older.1 hi).1
    have hless : next.toInt < c.toInt := Int64.lt_iff_toInt_lt.1 (by simpa [isBefore] using hbefore)
    have htime := (Ledger.isOlder_iff hmem next).1 (Ledger.mem_older.1 hi).2
    exact Ledger.mem_older.2
      ⟨hmem, (Ledger.isOlder_iff hmem c).2 (htime.trans (by exact_mod_cast hless))⟩

theorem Walk.mem_older (h : Walk (l.Allows n) owner mode known cursor pages failure) :
    ∀ page ∈ pages, ∀ i ∈ page.items, i ∈ l.older cursor := by
  have holder {cursor : Option Int64} {page : Page} (hanswer : l.Allows n cursor (.ok page)) :
      ∀ i ∈ page.items, i ∈ l.older cursor := by
    intro i hi
    rw [hanswer _ rfl] at hi
    exact Ledger.mem_older_of_mem_page hi
  induction h with
  | failed => simp
  | exhausted hanswer | caughtUp hanswer | stuck hanswer => simpa using holder hanswer
  | next hanswer _ _ _ hbefore _ ih =>
    rw [List.forall_mem_cons]
    refine ⟨holder hanswer, ?_⟩
    intro page hpage i hi
    exact mem_older_of_isBefore hbefore (ih page hpage i hi)

theorem Walk.mem_items (h : Walk (l.Allows n) owner mode known cursor pages failure) :
    ∀ page ∈ pages, ∀ i ∈ page.items, i ∈ l.items :=
  fun page hpage i hi => (Ledger.mem_older.1 (h.mem_older page hpage i hi)).1

/-- The time decreases if items follow a page: it has a later item, or its last item does not lie
before its own whole seconds. -/
theorem isBefore_oldest (hdistinct : l.HasDistinctSeconds)
    (hearly : 2 ≤ n ∨ ∀ i ∈ l.items.dropLast, i.isEarly = false) {oldest i : Item}
    (hlast : (l.page n cursor).getLast? = some oldest) (hi : i ∈ (l.older cursor).drop n) :
    isBefore (Number.seconds oldest.time) cursor = true := by
  cases cursor with
  | none => rfl
  | some c =>
    have hless := Ledger.seconds_lt_of_mem_drop hdistinct hlast hi
    have hitem := Ledger.oldest_mem_items hlast
    have htime : oldest.time < c.toInt :=
      (Ledger.isOlder_iff hitem c).1
        (Ledger.mem_older.1 (Ledger.mem_older_of_mem_page (Ledger.oldest_mem hlast))).2
    suffices hne : Number.seconds oldest.time ≠ c by
      simpa [isBefore] using Int64.lt_of_le_of_ne (Number.seconds_le_of_lt htime) hne
    rintro rfl
    obtain hn | hearly := hearly
    · -- Another item of the page has the same whole seconds, between its last item and the cursor.
      obtain ⟨j, hj, hne⟩ := Ledger.exists_mem_page_ne hn hlast hi
      have hjolder := Ledger.mem_older.1 (Ledger.mem_older_of_mem_page hj)
      have hup := Number.seconds_mono (Ledger.time_le_of_mem_page hlast hj)
      have hdown := Number.seconds_le_of_lt ((Ledger.isOlder_iff hjolder.1 _).1 hjolder.2)
      apply hne
      apply Ledger.eq_of_timestamp_eq hdistinct hjolder.1 hitem
      rw [Ledger.timestamp_eq hjolder.1, Ledger.timestamp_eq hitem, Int64.le_antisymm hdown hup]
    · -- The last item of the page lies before its own whole seconds.
      have hrest := (Ledger.mem_older.1 (List.mem_of_mem_drop hi)).1
      have hsteady := hearly oldest (Ledger.mem_dropLast_of_seconds_lt hitem hrest hless)
      rw [Item.isEarly, Ledger.timestamp_eq hitem, Bool.eq_false_iff] at hsteady
      exact hsteady ((Ledger.isOlder_iff hitem _).2 htime)

/-- A run that fills gaps to its end receives all that is older than its cursor. -/
theorem Walk.covers (hn : 1 ≤ n) (hdistinct : l.HasDistinctSeconds)
    (hearly : 2 ≤ n ∨ ∀ i ∈ l.items.dropLast, i.isEarly = false)
    (h : Walk (l.Allows n) owner .fillGaps known cursor pages failure) (hend : failure = none)
    {i : Item} (hi : i ∈ l.older cursor) : ∃ page ∈ pages, i ∈ page.items := by
  induction h with
  | failed => cases hend
  | @exhausted _ cursor page hanswer hempty =>
    rw [hanswer _ rfl] at hempty
    rw [Ledger.older_eq_nil_of_page hn hempty] at hi
    cases hi
  | caughtUp _ hcaught => simp [catchesUp] at hcaught
  | @stuck _ cursor page oldest hanswer hcaught hlast hstuck =>
    rw [hanswer _ rfl] at hlast
    obtain hi | hi := Ledger.mem_page_or_mem_drop (n := n) hi
    · exact ⟨page, List.mem_singleton_self _, by rwa [hanswer _ rfl]⟩
    · have hstop := hstuck _ (Ledger.timestamp_eq (Ledger.oldest_mem_items hlast))
      rw [isBefore_oldest hdistinct hearly hlast hi] at hstop
      cases hstop
  | @next _ cursor page oldest next pages _ hanswer hcaught hlast htime hbefore rest ih =>
    rw [hanswer _ rfl] at hlast
    obtain hi | hi := Ledger.mem_page_or_mem_drop (n := n) hi
    · exact ⟨page, List.mem_cons_self, by rwa [hanswer _ rfl]⟩
    · have hmem := (Ledger.mem_older.1 (List.mem_of_mem_drop hi)).1
      have hless := Ledger.seconds_lt_of_mem_drop hdistinct hlast hi
      rw [Ledger.seconds_oldest hlast htime] at hless
      have hnext : i ∈ l.older (some next) :=
        Ledger.mem_older.2 ⟨hmem, (Ledger.isOlder_iff hmem _).2 (Number.lt_of_seconds_lt hless)⟩
      obtain ⟨page', hpage', hi'⟩ := ih hend hnext
      exact ⟨page', List.mem_cons_of_mem _ hpage', hi'⟩

theorem mem_newEvents_fillGaps (hitems : ∀ page ∈ pages, ∀ i ∈ page.items, i ∈ l.items)
    {e : Event} :
    e ∈ newEvents owner .fillGaps known pages ↔
      e.key ∉ known ∧ ∃ page ∈ pages, ∃ i ∈ page.items, Event.ofItem? owner i = some e := by
  have hflat : ∀ i ∈ pages.flatMap Page.items, i ∈ l.items := by
    intro i hi
    obtain ⟨page, hpage, hi⟩ := List.mem_flatMap.1 hi
    exact hitems page hpage i hi
  rw [newEvents, scanned, mem_novel_iff hflat]
  simp only [List.mem_flatMap]
  apply and_congr_right
  intro _
  constructor
  · rintro ⟨i, ⟨page, hpage, hi⟩, he⟩
    exact ⟨page, hpage, i, hi, he⟩
  · rintro ⟨page, hpage, i, hi, he⟩
    exact ⟨i, ⟨page, hpage, hi⟩, he⟩

theorem isKnown_of_received (hitems : ∀ page ∈ pages, ∀ i ∈ page.items, i ∈ l.items) {page : Page}
    (hpage : page ∈ pages) {i : Item} (hi : i ∈ page.items) :
    isKnown owner (known ++ (newEvents owner .fillGaps known pages).map Event.key) i = true := by
  obtain ⟨e, he⟩ := Ledger.exists_event (hitems page hpage i hi) owner
  rw [isKnown_of_event he, decide_eq_true_eq, List.mem_append]
  by_cases hkey : e.key ∈ known
  · exact .inl hkey
  · have hnew := (mem_newEvents_fillGaps hitems).2 ⟨hkey, page, hpage, i, hi, he⟩
    exact .inr (List.mem_map_of_mem hnew)

/-- After a run that fills gaps to its end every item of the ledger is known. -/
theorem Walk.isKnown_after (hn : 1 ≤ n) (hdistinct : l.HasDistinctSeconds)
    (hearly : 2 ≤ n ∨ ∀ i ∈ l.items.dropLast, i.isEarly = false)
    (h : Walk (l.Allows n) owner .fillGaps known none pages failure) (hend : failure = none)
    {i : Item} (hi : i ∈ l.items) :
    isKnown owner (known ++ (newEvents owner .fillGaps known pages).map Event.key) i = true := by
  rw [← Ledger.older_none] at hi
  obtain ⟨page, hpage, hi⟩ := h.covers hn hdistinct hearly hend hi
  exact isKnown_of_received h.mem_items hpage hi

/-- A list of new events without repetition that has those of all unknown items of a ledger has as
many events as there are such items. -/
theorem length_of_mem_iff {es : List Event} (hnodup : es.Nodup)
    (hes : ∀ e, e ∈ es ↔ e.key ∉ known ∧ ∃ i ∈ l.items, Event.ofItem? owner i = some e) :
    es.length = l.items.countP fun i => !isKnown owner known i := by
  have hperm : es.Perm ((l.items.filterMap (Event.ofItem? owner)).filter (·.key ∉ known)) := by
    rw [List.perm_ext_iff_of_nodup hnodup ((nodup_events l owner).filter _)]
    intro e
    rw [hes, List.mem_filter, List.mem_filterMap, decide_eq_true_eq, and_comm]
  rw [hperm.length_eq, List.filter_filterMap, List.length_filterMap_eq_countP]
  apply List.countP_congr
  intro i hi
  obtain ⟨e, he⟩ := Ledger.exists_event hi owner
  rw [isKnown_of_event he, he]
  by_cases hkey : e.key ∈ known <;> simp [Option.filter, hkey]

def IsStored (l : Ledger) (owner : String) (rows : Events) : Prop :=
  ∀ i ∈ l.items, isKnown owner rows.keys i = true

/-- A run over a ledger succeeded, every item is stored after it, and it counted the items that were
not stored before. -/
def Completes (l : Ledger) (owner : String) (before : Events) (count : Nat)
    (failure : Option SyncError) (after : Events) : Prop :=
  failure = none ∧ IsStored l owner after ∧
    count = l.items.countP fun i => !isKnown owner before.keys i

theorem pageFrom_completes (hn : 1 ≤ n) (hdistinct : l.HasDistinctSeconds)
    (hearly : 2 ≤ n ∨ ∀ i ∈ l.items.dropLast, i.isEarly = false)
    (hserves : Serves source owner l n) {s : Shared φ} (hopen : s.store.isOpen = true)
    (hrunning : s.stopped = false) :
    Completes l owner s.store.events (s.exec source (pageFrom owner .fillGaps none 0)).1.count
      (s.exec source (pageFrom owner .fillGaps none 0)).1.failure
      (s.exec source (pageFrom owner .fillGaps none 0)).2.store.events := by
  obtain ⟨hend, hwalk⟩ := walk_of_serves hserves .fillGaps hopen hrunning
  obtain ⟨hrows, hcount⟩ := pageFrom_hasEffect source owner .fillGaps none 0 hopen
  generalize s.pages source (pageFrom owner .fillGaps none 0) = pages at hwalk hrows hcount
  have hnew : ∀ e, e ∈ newEvents owner .fillGaps s.store.events.keys pages ↔
      e.key ∉ s.store.events.keys ∧ ∃ i ∈ l.items, Event.ofItem? owner i = some e := by
    intro e
    rw [mem_newEvents_fillGaps hwalk.mem_items]
    apply and_congr_right
    intro _
    constructor
    · rintro ⟨page, hpage, i, hi, he⟩
      exact ⟨i, hwalk.mem_items page hpage i hi, he⟩
    · rintro ⟨i, hi, he⟩
      rw [← Ledger.older_none] at hi
      obtain ⟨page, hpage, hi⟩ := hwalk.covers hn hdistinct hearly rfl hi
      exact ⟨page, hpage, i, hi, he⟩
  refine ⟨hend, ?_, ?_⟩
  · intro i hi
    rw [hrows, Events.keys_append]
    exact hwalk.isKnown_after hn hdistinct hearly rfl hi
  · rw [hcount, Nat.zero_add]
    exact length_of_mem_iff (nodup_novel _ _) hnew

/-- A run that fills gaps completes a ledger with distinct whole seconds, whatever is stored before
and however large the pages are. With pages of one item, only the last item of the ledger may lie
before its own whole seconds. -/
theorem syncAddress_fills_gaps (l : Ledger) {n : Nat} (hn : 1 ≤ n)
    (hdistinct : l.HasDistinctSeconds)
    (hearly : 2 ≤ n ∨ ∀ i ∈ l.items.dropLast, i.isEarly = false) (a : String)
    {source : PageSource φ} (hserves : Serves source (normalizeAddress a) l n) {s : Shared φ}
    (hopen : s.store.isOpen = true) (hrunning : s.stopped = false) :
    Completes l (normalizeAddress a) s.store.events
      (s.exec source (syncAddress a .fillGaps)).1.count
      (s.exec source (syncAddress a .fillGaps)).1.failure
      (s.exec source (syncAddress a .fillGaps)).2.store.events := by
  rw [exec_syncAddress]
  exact pageFrom_completes hn hdistinct hearly hserves (s := holding s (normalizeAddress a)) hopen
    hrunning

def descendingLedger : Ledger where
  items := [timedItem "a" 2.5, timedItem "b" 1, timedItem "c" (-0.5)]
  isNamed := by decide
  isTimed := by decide
  isDistinct := by decide
  newestFirst := by decide +kernel

theorem syncAddress_fills_gaps_around_stored :
    descendingLedger.HasDistinctSeconds ∧
    (∀ i ∈ descendingLedger.items.dropLast, i.isEarly = false) ∧
    Serves (descendingLedger.source 1) (normalizeAddress " 0xAB ") descendingLedger 1 ∧
    (tableOf [bareEvent "b"]).store.isOpen = true ∧ (tableOf [bareEvent "b"]).stopped = false ∧
    ((tableOf [bareEvent "b"]).exec (descendingLedger.source 1)
      (syncAddress " 0xAB " .fillGaps)).1.count = 2 ∧
    Completes descendingLedger (normalizeAddress " 0xAB ") (tableOf [bareEvent "b"]).store.events
      ((tableOf [bareEvent "b"]).exec (descendingLedger.source 1)
        (syncAddress " 0xAB " .fillGaps)).1.count
      ((tableOf [bareEvent "b"]).exec (descendingLedger.source 1)
        (syncAddress " 0xAB " .fillGaps)).1.failure
      ((tableOf [bareEvent "b"]).exec (descendingLedger.source 1)
        (syncAddress " 0xAB " .fillGaps)).2.store.events := by
  have hdistinct : descendingLedger.HasDistinctSeconds := by decide +kernel
  have hearly : ∀ i ∈ descendingLedger.items.dropLast, i.isEarly = false := by decide +kernel
  have hserves := descendingLedger.serves_source 1 (normalizeAddress " 0xAB ")
  have h := syncAddress_fills_gaps descendingLedger (by decide) hdistinct (.inr hearly) " 0xAB "
    hserves (s := tableOf [bareEvent "b"]) rfl rfl
  have htwo : (descendingLedger.items.countP fun i => !isKnown (normalizeAddress " 0xAB ")
      (tableOf [bareEvent "b"]).store.events.keys i) = 2 := by decide +kernel
  exact ⟨hdistinct, hearly, hserves, rfl, rfl, h.2.2.trans htwo, h⟩

/-- Two items that lie before their own whole seconds. -/
def earlyLedger : Ledger where
  items := [timedItem "a" (-1.5), timedItem "b" (-2.5)]
  isNamed := by decide
  isTimed := by decide
  isDistinct := by decide
  newestFirst := by decide +kernel

def afterEarlyItem : Shared Unit :=
  appended (holding (tableOf []) "0xab") (newOn "0xab" .fillGaps [] [timedItem "a" (-1.5)])

theorem exec_earlyLedger :
    (tableOf []).exec (earlyLedger.source 1) (syncAddress "0xab" .fillGaps) =
      (⟨"0xab", 1, none⟩, { afterEarlyItem with locked := [] }) := by
  have hfirst : (holding (tableOf []) "0xab").exec (earlyLedger.source 1)
      (pageFrom "0xab" .fillGaps none 0) =
        afterEarlyItem.exec (earlyLedger.source 1) (pageFrom "0xab" .fillGaps (some (-1)) 1) := by
    rw [pageFrom]
    rfl
  have hsecond : afterEarlyItem.exec (earlyLedger.source 1)
      (pageFrom "0xab" .fillGaps (some (-1)) 1) = (⟨1, none⟩, afterEarlyItem) := by
    rw [pageFrom]
    with_unfolding_all rfl
  rw [exec_syncAddress, normalizeAddress_ab, hfirst, hsecond]
  rfl

/-- With pages of one item a run comes back to an item that lies before its own whole seconds, and
stops there. -/
theorem fillGaps_stops_at_early_item :
    earlyLedger.HasDistinctSeconds ∧
    Serves (earlyLedger.source 1) (normalizeAddress "0xab") earlyLedger 1 ∧
    (tableOf []).store.isOpen = true ∧ (tableOf []).stopped = false ∧
    ((tableOf []).exec (earlyLedger.source 1) (syncAddress "0xab" .fillGaps)).1.failure = none ∧
    ¬ Completes earlyLedger (normalizeAddress "0xab") (tableOf []).store.events
      ((tableOf []).exec (earlyLedger.source 1) (syncAddress "0xab" .fillGaps)).1.count
      ((tableOf []).exec (earlyLedger.source 1) (syncAddress "0xab" .fillGaps)).1.failure
      ((tableOf []).exec (earlyLedger.source 1)
        (syncAddress "0xab" .fillGaps)).2.store.events := by
  have hdistinct : earlyLedger.HasDistinctSeconds := by decide +kernel
  have hmissing : isKnown (normalizeAddress "0xab") afterEarlyItem.store.events.keys
      (timedItem "b" (-2.5)) = false := by decide +kernel
  rw [exec_earlyLedger]
  refine ⟨hdistinct, earlyLedger.serves_source 1 _, rfl, rfl, rfl, ?_⟩
  rintro ⟨-, hstored, -⟩
  have hb := hstored (timedItem "b" (-2.5)) (List.mem_cons_of_mem _ List.mem_cons_self)
  rw [hmissing] at hb
  cases hb

end AddressLedger.Sync
