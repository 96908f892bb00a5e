import AddressLedger.Proofs.Sync.GapFill

/-!
# The size of pages

What a first run stores of a ledger, exactly: all items but those that a page cuts off, when it ends
within their second before them. The cursor is a whole second, and what is asked for next lies
strictly before it. So two sizes of pages give the same rows exactly if they cut off the same items.
Where no item lies before its own whole seconds, a run of either mode comes back to no item.
-/
namespace AddressLedger.Sync
open Catalog Feed Service Store

/-- Whether a page ends within the second of an item that is not on it. -/
def EndsWithin (page : Page) (i : Item) : Prop :=
  ∃ oldest, page.items.getLast? = some oldest ∧ oldest.timestamp = i.timestamp ∧ i ∉ page.items

variable {φ : Type} {source : PageSource φ} {owner : String} {mode : Mode} {l : Ledger} {n : Nat}
  {known : List EventKey} {cursor : Option Int64} {pages : List Page}
  {failure : Option SyncError} {i oldest : Item}

/-- What is older than a cursor is told by whole seconds. -/
theorem isOlder_iff_seconds_lt (hsteady : l.IsSteady) (hi : i ∈ l.items) (c : Int64) :
    i.isOlder (some c) = true ↔ Number.seconds i.time < c := by
  rw [Ledger.isOlder_iff hi]
  constructor
  · intro h
    have hless := (hsteady.seconds_le_time hi).trans_lt h
    exact Int64.lt_iff_toInt_lt.2 (by exact_mod_cast hless)
  · exact Number.lt_of_seconds_lt

theorem seconds_lt_of_mem_older (hsteady : l.IsSteady) {c : Int64} (hi : i ∈ l.older (some c)) :
    Number.seconds i.time < c :=
  (isOlder_iff_seconds_lt hsteady (Ledger.mem_older.1 hi).1 c).1 (Ledger.mem_older.1 hi).2

theorem isBefore_of_isSteady (hsteady : l.IsSteady)
    (hlast : (l.page n cursor).getLast? = some oldest) :
    isBefore (Number.seconds oldest.time) cursor = true := by
  cases cursor with
  | none => rfl
  | some c =>
    have hless := seconds_lt_of_mem_older hsteady
      (Ledger.mem_older_of_mem_page (Ledger.oldest_mem hlast))
    simpa [isBefore] using hless

theorem notMem_older_of_mem_page (hsteady : l.IsSteady)
    (hlast : (l.page n cursor).getLast? = some oldest) (hi : i ∈ l.page n cursor) :
    i ∉ l.older (some (Number.seconds oldest.time)) := by
  intro h
  have hmono := Number.seconds_mono (Ledger.time_le_of_mem_page hlast hi)
  exact Int64.not_lt.2 hmono (seconds_lt_of_mem_older hsteady h)

/-- Items that are not on a page are as unknown after it as before. -/
theorem isKnown_append_newOn {items : List Item} (hitems : ∀ j ∈ items, j ∈ l.items)
    (hi : i ∈ l.items) (hnot : i ∉ items) (hunknown : isKnown owner known i = false) :
    isKnown owner (known ++ (newOn owner .fillGaps known items).map Event.key) i = false := by
  obtain ⟨e, he⟩ := Ledger.exists_event hi owner
  rw [isKnown_of_event he, decide_eq_false_iff_not] at hunknown ⊢
  rw [List.mem_append, not_or]
  refine ⟨hunknown, ?_⟩
  rw [List.mem_map]
  rintro ⟨f, hf, hkey⟩
  obtain ⟨-, j, hj, hfj⟩ := (mem_novel_iff hitems).1 hf
  obtain rfl := Ledger.eq_of_key_eq hi (hitems j hj) he hfj hkey.symm
  exact hnot hj

/-- Where all that is asked for is unknown, what is asked for after a page is unknown too. -/
theorem isKnown_after_page (hsteady : l.IsSteady) {page : Page} {next : Int64}
    (hpage : page.items = l.page n cursor) (hlast : page.items.getLast? = some oldest)
    (htime : oldest.timestamp = some next) (hbefore : isBefore next cursor = true)
    (hunknown : ∀ i ∈ l.older cursor, isKnown owner known i = false) :
    ∀ i ∈ l.older (some next), isKnown owner
      (known ++ (newOn owner .fillGaps known page.items).map Event.key) i = false := by
  intro i hi
  rw [hpage] at hlast ⊢
  apply isKnown_append_newOn (l := l) _ (Ledger.mem_older.1 hi).1
  · rw [← Ledger.seconds_oldest hlast htime] at hi
    exact fun hmem => notMem_older_of_mem_page hsteady hlast hmem hi
  · exact hunknown i (mem_older_of_isBefore hbefore hi)
  · exact fun j hj => (Ledger.mem_older.1 (Ledger.mem_older_of_mem_page hj)).1

/-- A run that asks for unknown items only goes as one that fills gaps. -/
theorem Walk.fillGaps (hsteady : l.IsSteady)
    (h : Walk (l.Allows n) owner mode known cursor pages failure)
    (hunknown : ∀ i ∈ l.older cursor, isKnown owner known i = false) :
    Walk (l.Allows n) owner .fillGaps known cursor pages failure ∧
      newEvents owner mode known pages = newEvents owner .fillGaps known pages := by
  induction h with
  | failed hanswer =>
    rw [newEvents_nil, newEvents_nil]
    exact ⟨.failed hanswer, rfl⟩
  | @exhausted known _ page hanswer hempty =>
    have hcaught (mode : Mode) : catchesUp owner known mode page.items = false := by
      simp [catchesUp, hempty]
    refine ⟨.exhausted hanswer hempty, ?_⟩
    rw [newEvents_cons (hcaught _), newEvents_cons (hcaught _), newEvents_nil, newEvents_nil,
      newOn_of_not_catchesUp (hcaught mode)]
  | @caughtUp known _ page hanswer hcaught =>
    simp only [catchesUp, Bool.and_eq_true, List.any_eq_true] at hcaught
    rcases hcaught with ⟨-, i, hi, hknown⟩
    rw [hanswer _ rfl] at hi
    rw [hunknown i (Ledger.mem_older_of_mem_page hi)] at hknown
    cases hknown
  | stuck hanswer hcaught hlast hstuck =>
    refine ⟨.stuck hanswer rfl hlast hstuck, ?_⟩
    rw [newEvents_cons hcaught, newEvents_cons rfl, newEvents_nil, newEvents_nil,
      newOn_of_not_catchesUp hcaught]
  | next hanswer hcaught hlast htime hbefore rest ih =>
    rw [newOn_of_not_catchesUp hcaught] at ih
    obtain ⟨hrest, hnew⟩ :=
      ih (isKnown_after_page hsteady (hanswer _ rfl) hlast htime hbefore hunknown)
    refine ⟨.next hanswer rfl hlast htime hbefore hrest, ?_⟩
    rw [newEvents_cons hcaught, newEvents_cons rfl, newOn_of_not_catchesUp hcaught, hnew]

theorem Walk.items_eq {page : Page}
    (h : Walk (l.Allows n) owner mode known cursor (page :: pages) failure) :
    page.items = l.page n cursor := by
  cases h with
  | exhausted hanswer | caughtUp hanswer | stuck hanswer | next hanswer => exact hanswer _ rfl

theorem Walk.exists_first_page (h : Walk (l.Allows n) owner mode known cursor pages failure)
    (hreceived : failure = none ∨ pages ≠ []) : ∃ page ∈ pages, page.items = l.page n cursor := by
  cases pages with
  | nil =>
    cases h
    simp at hreceived
  | cons page pages => exact ⟨page, List.mem_cons_self, h.items_eq⟩

theorem not_endsWithin_of_le (hsteady : l.IsSteady) {page : Page} {next : Int64}
    (hpage : ∀ j ∈ page.items, j ∈ l.older (some next)) (hi : i ∈ l.items)
    (hle : next ≤ Number.seconds i.time) : ¬ EndsWithin page i := by
  rintro ⟨oldest, hlast, htime, -⟩
  have holder := hpage oldest (List.mem_of_getLast? hlast)
  have hless := seconds_lt_of_mem_older hsteady holder
  rw [Ledger.timestamp_eq (Ledger.mem_older.1 holder).1, Ledger.timestamp_eq hi,
    Option.some.injEq] at htime
  rw [htime] at hless
  exact Int64.not_lt.2 hle hless

/-- A page ends within the second of an item after it if its last item is of that second. -/
theorem endsWithin_iff_of_mem_drop {page : Page} (hpage : page.items = l.page n cursor)
    (hlast : (l.page n cursor).getLast? = some oldest) (hi : i ∈ (l.older cursor).drop n) :
    EndsWithin page i ↔ ¬Number.seconds i.time < Number.seconds oldest.time := by
  have hmem := (Ledger.mem_older.1 (List.mem_of_mem_drop hi)).1
  have holdest := Ledger.timestamp_eq (Ledger.oldest_mem_items hlast)
  constructor
  · rintro ⟨last, hlast', htime, -⟩ hless
    rw [hpage, hlast, Option.some.injEq] at hlast'
    rw [← hlast', holdest, Ledger.timestamp_eq hmem, Option.some.injEq] at htime
    rw [htime] at hless
    exact Int64.lt_irrefl hless
  · intro hnot
    have hle := Number.seconds_mono (Ledger.time_le_of_mem_drop hlast hi)
    refine ⟨oldest, ?_, ?_, ?_⟩
    · rw [hpage, hlast]
    · rw [holdest, Ledger.timestamp_eq hmem, Int64.le_antisymm hle (Int64.not_lt.1 hnot)]
    · rw [hpage]
      exact Ledger.notMem_page_of_mem_drop hi

/-- Of what is older than its cursor, a run receives all that no page cuts off. -/
theorem Walk.receives_iff (hn : 1 ≤ n) (hsteady : l.IsSteady)
    (h : Walk (l.Allows n) owner .fillGaps known cursor pages failure) (hend : failure = none)
    (hi : i ∈ l.older cursor) :
    (∃ page ∈ pages, i ∈ page.items) ↔ ¬∃ page ∈ pages, EndsWithin page i := by
  induction h with
  | failed => cases hend
  | exhausted hanswer hempty =>
    rw [hanswer _ rfl] at hempty
    rw [Ledger.older_eq_nil_of_page hn hempty] at hi
    cases hi
  | caughtUp _ hcaught => simp [catchesUp] at hcaught
  | stuck hanswer _ hlast hstuck =>
    rw [hanswer _ rfl] at hlast
    have hstop := hstuck _ (Ledger.timestamp_eq (Ledger.oldest_mem_items hlast))
    rw [isBefore_of_isSteady hsteady hlast] at hstop
    cases hstop
  | @next _ cursor page oldest next pages _ hanswer _ hlast htime hbefore rest ih =>
    have hpage := hanswer _ rfl
    rw [hpage] at hlast
    have hnext := Ledger.seconds_oldest hlast htime
    have hmem := (Ledger.mem_older.1 hi).1
    have hlater : ∀ page' ∈ pages, ∀ j ∈ page'.items, j ∈ l.older (some next) := rest.mem_older
    simp only [List.mem_cons, exists_eq_or_imp]
    obtain hi | hi := Ledger.mem_page_or_mem_drop (n := n) hi
    · have hle := Number.seconds_mono (Ledger.time_le_of_mem_page hlast hi)
      rw [hnext] at hle
      rw [← hpage] at hi
      refine iff_of_true (.inl hi) (not_or.2 ⟨?_, ?_⟩)
      · rintro ⟨-, -, -, hnot⟩
        exact hnot hi
      · rintro ⟨page', hpage', hends⟩
        exact not_endsWithin_of_le hsteady (hlater page' hpage') hmem hle hends
    · have hnot : i ∉ page.items := by
        rw [hpage]
        exact Ledger.notMem_page_of_mem_drop hi
      rw [or_iff_right hnot, endsWithin_iff_of_mem_drop hpage hlast hi, hnext]
      by_cases hless : Number.seconds i.time < next
      · rw [or_iff_right (not_not.2 hless)]
        have holder := (isOlder_iff_seconds_lt hsteady hmem next).2 hless
        exact ih hend (Ledger.mem_older.2 ⟨hmem, holder⟩)
      · -- What is asked for next is older than the second of the item.
        refine iff_of_false ?_ (not_not.2 (.inl hless))
        rintro ⟨page', hpage', hi⟩
        exact hless (seconds_lt_of_mem_older hsteady (hlater page' hpage' i hi))

/-- Whether a run can begin over an empty event table. -/
structure IsFresh (s : Shared φ) : Prop where
  isOpen : s.store.isOpen = true
  running : s.stopped = false
  empty : s.store.events = []

/-- A run over an empty table goes as one that fills gaps, whatever its mode is. -/
theorem pageFrom_of_empty (hsteady : l.IsSteady) {s : Shared φ} (hopen : s.store.isOpen = true)
    (hempty : s.store.events = [])
    (h : Walk (l.Allows n) owner mode s.store.events.keys none
      (s.pages source (pageFrom owner mode none 0)) failure) :
    Walk (l.Allows n) owner .fillGaps [] none (s.pages source (pageFrom owner mode none 0))
        failure ∧
      (s.exec source (pageFrom owner mode none 0)).2.store.events =
        (newEvents owner .fillGaps [] (s.pages source (pageFrom owner mode none 0))).map
          Row.ofEvent := by
  obtain ⟨hrows, -⟩ := pageFrom_hasEffect source owner mode none 0 hopen
  rw [hempty] at h hrows
  have hunknown : ∀ i ∈ l.older none, isKnown owner (Events.keys []) i = false := by
    simp [isKnown, Events.keys]
  obtain ⟨hfill, hnew⟩ := h.fillGaps hsteady hunknown
  rw [hnew] at hrows
  exact ⟨hfill, hrows⟩

theorem walk_of_isFresh (hsteady : l.IsSteady) (hserves : Serves source owner l n) (mode : Mode)
    {s : Shared φ} (hs : IsFresh s) :
    Walk (l.Allows n) owner .fillGaps [] none (s.pages source (pageFrom owner mode none 0)) none ∧
      (s.exec source (pageFrom owner mode none 0)).2.store.events =
        (newEvents owner .fillGaps [] (s.pages source (pageFrom owner mode none 0))).map
          Row.ofEvent :=
  pageFrom_of_empty hsteady hs.isOpen hs.empty (walk_of_serves hserves mode hs.isOpen hs.running).2

/-- A first run stores the items that no page cuts off. -/
theorem mem_events_pageFrom_iff (hn : 1 ≤ n) (hsteady : l.IsSteady)
    (hserves : Serves source owner l n) (mode : Mode) {s : Shared φ} (hs : IsFresh s) (row : Row) :
    row ∈ (s.exec source (pageFrom owner mode none 0)).2.store.events ↔
      ∃ i ∈ l.items,
        (¬∃ page ∈ s.pages source (pageFrom owner mode none 0), EndsWithin page i) ∧
          (Event.ofItem? owner i).map Row.ofEvent = some row := by
  obtain ⟨hwalk, hrows⟩ := walk_of_isFresh hsteady hserves mode hs
  rw [hrows, List.mem_map]
  constructor
  · rintro ⟨e, he, rfl⟩
    obtain ⟨-, page, hpage, i, hi, he⟩ := (mem_newEvents_fillGaps hwalk.mem_items).1 he
    have holder := hwalk.mem_older page hpage i hi
    refine ⟨i, hwalk.mem_items page hpage i hi,
      (hwalk.receives_iff hn hsteady rfl holder).1 ⟨page, hpage, hi⟩, ?_⟩
    rw [he]
    rfl
  · rintro ⟨i, hi, hnot, hrow⟩
    obtain ⟨e, he, rfl⟩ := Option.map_eq_some_iff.1 hrow
    rw [← Ledger.older_none] at hi
    obtain ⟨page, hpage, hi⟩ := (hwalk.receives_iff hn hsteady rfl hi).2 hnot
    exact ⟨e, (mem_newEvents_fillGaps hwalk.mem_items).2
      ⟨List.not_mem_nil, page, hpage, i, hi, he⟩, rfl⟩

theorem mem_events_syncAddress_iff (hn : 1 ≤ n) (hsteady : l.IsSteady) (a : String)
    (hserves : Serves source (normalizeAddress a) l n) (mode : Mode) {s : Shared φ}
    (hs : IsFresh s) (row : Row) :
    row ∈ (s.exec source (syncAddress a mode)).2.store.events ↔
      ∃ i ∈ l.items,
        (¬∃ page ∈ s.pages source (syncAddress a mode), EndsWithin page i) ∧
          (Event.ofItem? (normalizeAddress a) i).map Row.ofEvent = some row := by
  rw [exec_syncAddress, pages_syncAddress]
  exact mem_events_pageFrom_iff hn hsteady hserves mode (s := holding s (normalizeAddress a))
    ⟨hs.isOpen, hs.running, hs.empty⟩ row

theorem eq_of_row_eq {j : Item} (hi : i ∈ l.items) (hj : j ∈ l.items) {row : Row}
    (hrow : (Event.ofItem? owner i).map Row.ofEvent = some row)
    (hrow' : (Event.ofItem? owner j).map Row.ofEvent = some row) : i = j := by
  obtain ⟨e, he, rfl⟩ := Option.map_eq_some_iff.1 hrow
  obtain ⟨f, hf, heq⟩ := Option.map_eq_some_iff.1 hrow'
  apply Ledger.eq_of_key_eq hi hj he hf
  rw [← Row.key_ofEvent e, ← Row.key_ofEvent f, heq]

theorem exists_row_iff {P : Item → Prop} (hi : i ∈ l.items) {row : Row}
    (hrow : (Event.ofItem? owner i).map Row.ofEvent = some row) :
    (∃ j ∈ l.items, P j ∧ (Event.ofItem? owner j).map Row.ofEvent = some row) ↔ P i := by
  constructor
  · rintro ⟨j, hj, hP, hrow'⟩
    rwa [eq_of_row_eq hi hj hrow hrow']
  · exact fun hP => ⟨i, hi, hP, hrow⟩

theorem same_rows_iff {P Q : Item → Prop} :
    (∀ row, (∃ i ∈ l.items, P i ∧ (Event.ofItem? owner i).map Row.ofEvent = some row) ↔
        ∃ i ∈ l.items, Q i ∧ (Event.ofItem? owner i).map Row.ofEvent = some row) ↔
      ∀ i ∈ l.items, P i ↔ Q i := by
  constructor
  · intro h i hi
    obtain ⟨e, he⟩ := Ledger.exists_event hi owner
    have hrow : (Event.ofItem? owner i).map Row.ofEvent = some (Row.ofEvent e) := by
      rw [he]
      rfl
    exact (exists_row_iff hi hrow).symm.trans ((h _).trans (exists_row_iff hi hrow))
  · intro h row
    exact exists_congr fun i => and_congr_right fun hi => and_congr_left fun _ => h i hi

/-- First runs over pages of two sizes store the same rows exactly if their pages cut off the same
items of the ledger. -/
theorem same_rows_iff_same_cuts (l : Ledger) (hsteady : l.IsSteady) {n m : Nat} (hn : 1 ≤ n)
    (hm : 1 ≤ m) (a : String) (mode mode' : Mode) {φ ψ : Type} {source : PageSource φ}
    {source' : PageSource ψ} (hserves : Serves source (normalizeAddress a) l n)
    (hserves' : Serves source' (normalizeAddress a) l m) {s : Shared φ} {t : Shared ψ}
    (hs : IsFresh s) (ht : IsFresh t) :
    (∀ row, row ∈ (s.exec source (syncAddress a mode)).2.store.events ↔
        row ∈ (t.exec source' (syncAddress a mode')).2.store.events) ↔
      ∀ i ∈ l.items,
        ((∃ page ∈ s.pages source (syncAddress a mode), EndsWithin page i) ↔
          ∃ page ∈ t.pages source' (syncAddress a mode'), EndsWithin page i) := by
  simp only [mem_events_syncAddress_iff hn hsteady a hserves mode hs,
    mem_events_syncAddress_iff hm hsteady a hserves' mode' ht, same_rows_iff, not_iff_not]

def sharedSecondLedger : Ledger where
  items := [timedItem "a" 10.5, timedItem "b" 10.25, timedItem "c" 9]
  isNamed := by decide
  isTimed := by decide
  isDistinct := by decide
  newestFirst := by decide +kernel

theorem tableOf_nil_isFresh : IsFresh (tableOf []) := ⟨rfl, rfl, rfl⟩

/-- Pages of one item lose the second item of a second, pages of two do not. -/
theorem sharedSecond_lost_by_small_pages :
    sharedSecondLedger.IsSteady ∧
    Serves (sharedSecondLedger.source 1) (normalizeAddress "0xab") sharedSecondLedger 1 ∧
    Serves (sharedSecondLedger.source 2) (normalizeAddress "0xab") sharedSecondLedger 2 ∧
    IsFresh (tableOf []) ∧
    ¬ ∀ row, row ∈ ((tableOf []).exec (sharedSecondLedger.source 1)
        (syncAddress "0xab" .catchUp)).2.store.events ↔
      row ∈ ((tableOf []).exec (sharedSecondLedger.source 2)
        (syncAddress "0xab" .fillGaps)).2.store.events := by
  have hsteady : sharedSecondLedger.IsSteady := by decide +kernel
  have hone := sharedSecondLedger.serves_source 1 (normalizeAddress "0xab")
  have htwo := sharedSecondLedger.serves_source 2 (normalizeAddress "0xab")
  refine ⟨hsteady, hone, htwo, tableOf_nil_isFresh, ?_⟩
  rw [same_rows_iff_same_cuts sharedSecondLedger hsteady (by decide) (by decide) "0xab" .catchUp
    .fillGaps hone htwo tableOf_nil_isFresh tableOf_nil_isFresh]
  intro h
  have hb : timedItem "b" 10.25 ∈ sharedSecondLedger.items :=
    List.mem_cons_of_mem _ List.mem_cons_self
  have hfresh : IsFresh (holding (tableOf []) (normalizeAddress "0xab")) := ⟨rfl, rfl, rfl⟩
  obtain ⟨hwalk, -⟩ := walk_of_isFresh hsteady hone .catchUp hfresh
  obtain ⟨hwalk', -⟩ := walk_of_isFresh hsteady htwo .fillGaps hfresh
  obtain ⟨page, hpage, hitems⟩ := hwalk.exists_first_page (.inl rfl)
  obtain ⟨page', hpage', hitems'⟩ := hwalk'.exists_first_page (.inl rfl)
  have hcut : EndsWithin page (timedItem "b" 10.25) := by
    refine ⟨timedItem "a" 10.5, ?_, ?_, ?_⟩
    · rw [hitems]
      rfl
    · decide +kernel
    · rw [hitems]
      change timedItem "b" 10.25 ∉ [timedItem "a" 10.5]
      simp [timedItem, bareItem]
  have hon : timedItem "b" 10.25 ∈ page'.items := by
    rw [hitems']
    exact List.mem_cons_of_mem _ List.mem_cons_self
  have hcut' := (h _ hb).1 ⟨page, by rwa [pages_syncAddress], hcut⟩
  rw [pages_syncAddress] at hcut'
  rw [← Ledger.older_none] at hb
  exact (hwalk'.receives_iff (by decide) hsteady rfl hb).1 ⟨page', hpage', hon⟩ hcut'

end AddressLedger.Sync
