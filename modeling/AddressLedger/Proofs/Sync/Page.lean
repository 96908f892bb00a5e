import AddressLedger.Proofs.Catalog.Writes
import AddressLedger.Proofs.Store.Insertion
import AddressLedger.Sync.Run
import Mathlib.Data.List.TakeWhile

/-!
# One page of a run

What a run does with a page that it has received: it writes the reference data, scans the items for
events that are not stored, inserts these, and finds the cursor of the next request, if there is to
be one. A run is a request and this, again and again.
-/
namespace AddressLedger.Sync
open Catalog Feed Service Store

variable {φ : Type} {source : PageSource φ} {owner : String} {mode : Mode}
  {cursor : Option Int64}

theorem records_eq_nil_iff {p : Page} : p.records = [] ↔ p.hasReferenceData = false := by
  simp [Page.records, Page.hasReferenceData, and_assoc]

theorem exec_learn (p : Page) {s : Shared φ} (hs : s.store.isOpen = true) :
    s.exec source (learn p).run = (.ok (), p.records.foldl upserted s) := by
  rw [learn]
  cases hdata : p.hasReferenceData with
  | true =>
    rw [if_pos rfl, Shared.exec_run_bind, exec_upsertPage p hs]
    rfl
  | false =>
    rw [records_eq_nil_iff.2 hdata]
    rfl

theorem exec_learn_of_closed (p : Page) {s : Shared φ} (hs : s.store.isOpen = false) :
    s.exec source (learn p).run =
      (if p.hasReferenceData then .error .unavailable else .ok (), s) := by
  rw [learn]
  cases hdata : p.hasReferenceData with
  | false => rfl
  | true =>
    simp only [if_true, upsertPage, Shared.exec_run_bind]
    have hall : s.exec source (upsertAll p.records).run = (.error .unavailable, s) := by
      cases hrecords : p.records with
      | nil =>
        rw [records_eq_nil_iff, hdata] at hrecords
        cases hrecords
      | cons record records =>
        have hwrite : s.exec source (ask (.call (.writeRecord record))).run =
            (.error .unavailable, s) := by
          change Shared.perform source (.writeRecord record) s = _
          simp [Shared.perform, Store.writeRecord, Store.whenOpen, hs]
        simp only [upsertAll, upsert, Shared.exec_run_bind, hwrite]
    rw [hall]

theorem learn_within (p : Page) : (learn p).run.Within WritesCatalog := by
  rw [learn]
  split
  · exact Procedure.Within.run_bind (upsertPage_within p) fun _ => trivial
  · trivial

theorem learn_isLocal (p : Page) : (learn p).run.Within Shared.IsLocal := by
  apply (learn_within p).mono
  intro a h
  cases a <;> trivial

def isKnown (owner : String) (known : List EventKey) (i : Item) : Bool :=
  (Event.ofItem? owner i).any fun e => e.key ∈ known

/-- The items of a page that a run scans. -/
def seen (owner : String) (known : List EventKey) : Mode → List Item → List Item
  | .fillGaps, items => items
  | .catchUp, items => items.takeWhile fun i => !isKnown owner known i

def catchesUp (owner : String) (known : List EventKey) (mode : Mode) (items : List Item) : Bool :=
  mode = .catchUp && items.any (isKnown owner known)

def foundOn (owner : String) (known : List EventKey) (mode : Mode) (items : List Item) : Scan :=
  ⟨((seen owner known mode items).filterMap (Event.ofItem? owner)).filter fun e => e.key ∉ known,
    catchesUp owner known mode items⟩

theorem exec_hasEvent (key : EventKey) {s : Shared φ} (hs : s.store.isOpen = true) :
    s.exec source (ask (.call (.hasEvent key))).run =
      (.ok (decide (key ∈ s.store.events.keys)), s) := by
  change Shared.perform source (.hasEvent key) s = _
  simp only [Shared.perform, Store.hasEvent, Store.whenOpen, hs, if_true]
  congr 2
  rw [Bool.eq_iff_iff, Events.contains_iff, decide_eq_true_iff]

theorem exec_scan (items : List Item) {s : Shared φ} (hs : s.store.isOpen = true) :
    s.exec source (scan owner mode items).run =
      (.ok (foundOn owner s.store.events.keys mode items), s) := by
  induction items with
  | nil => cases mode <;> rfl
  | cons item items ih =>
    rw [scan.eq_def]
    cases he : Event.ofItem? owner item with
    | none =>
      simp only [he, ih]
      cases mode <;> simp [foundOn, seen, catchesUp, isKnown, he]
    | some e =>
      simp only [he, Shared.exec_run_bind, exec_hasEvent e.key hs]
      by_cases hk : e.key ∈ s.store.events.keys
      · cases mode with
        | catchUp => simp [foundOn, seen, catchesUp, isKnown, he, hk]
        | fillGaps => simp [foundOn, seen, catchesUp, he, hk, ih]
      · simp only [hk, decide_false, Bool.false_eq_true, if_false, Shared.exec_run_bind, ih]
        cases mode <;> simp [foundOn, seen, catchesUp, isKnown, he, hk]

def appended (s : Shared φ) (es : List Event) : Shared φ :=
  { s with store := { s.store with events := s.store.events ++ es.map Row.ofEvent } }

theorem exec_insertBatch (batch : List Event) {s : Shared φ} (hs : s.store.isOpen = true) :
    s.exec source (insertBatch batch).run =
      (.ok (novel s.store.events.keys batch).length,
        appended s (novel s.store.events.keys batch)) := by
  rw [insertBatch]
  cases batch with
  | nil => simp [appended, novel]
  | cons e es =>
    change Shared.perform source (.insertEvents (e :: es)) s = _
    simp [Shared.perform, Store.insertEvents, Store.whenOpen, Events.insertAll_eq, hs, appended]

def newOn (owner : String) (mode : Mode) (known : List EventKey) (items : List Item) : List Event :=
  novel known ((seen owner known mode items).filterMap (Event.ofItem? owner))

theorem exec_processItems (items : List Item) {s : Shared φ} (hs : s.store.isOpen = true) :
    s.exec source (processItems owner mode items).run =
      (.ok ((newOn owner mode s.store.events.keys items).length,
          catchesUp owner s.store.events.keys mode items),
        appended s (newOn owner mode s.store.events.keys items)) := by
  have hnovel : novel s.store.events.keys (foundOn owner s.store.events.keys mode items).batch =
      newOn owner mode s.store.events.keys items :=
    novel_filter (fun e he => by simpa using he) _
  rw [processItems, Shared.exec_run_bind, exec_scan items hs]
  simp only [Shared.exec_run_bind, exec_insertBatch _ hs, hnovel]
  rfl

/-- A closed store refuses a page at its first item with an id and a chain, in either mode. -/
theorem exec_scan_of_closed (items : List Item) {s : Shared φ} (hs : s.store.isOpen = false) :
    s.exec source (scan owner mode items).run =
      (if (items.filterMap (Event.ofItem? owner)).isEmpty then .ok ⟨[], false⟩
        else .error .unavailable, s) := by
  induction items with
  | nil => rfl
  | cons item items ih =>
    rw [scan.eq_def]
    cases hevent : Event.ofItem? owner item with
    | none => simpa [hevent] using ih
    | some event =>
      have hask : s.exec source (ask (.call (.hasEvent event.key))).run =
          (.error .unavailable, s) := by
        change Shared.perform source (.hasEvent event.key) s = _
        simp [Shared.perform, Store.hasEvent, Store.whenOpen, hs]
      simp only [hevent, Shared.exec_run_bind, hask]
      rw [List.filterMap_cons_some hevent]
      rfl

theorem exec_processItems_of_closed (items : List Item) {s : Shared φ}
    (hs : s.store.isOpen = false) :
    s.exec source (processItems owner mode items).run =
      (if (items.filterMap (Event.ofItem? owner)).isEmpty then .ok (0, false)
        else .error .unavailable, s) := by
  rw [processItems, Shared.exec_run_bind, exec_scan_of_closed items hs]
  cases (items.filterMap (Event.ofItem? owner)).isEmpty <;> rfl

/-- An access to the events that the scan of a page makes. -/
def UsesEvents : Access → Prop
  | .hasEvent _ | .insertEvents _ => True
  | _ => False

theorem scan_within (items : List Item) : (scan owner mode items).run.Within UsesEvents := by
  induction items with
  | nil => trivial
  | cons item items ih =>
    rw [scan.eq_def]
    cases he : Event.ofItem? owner item with
    | none => simpa only [he] using ih
    | some e =>
      simp only [he]
      refine Procedure.Within.run_bind ⟨trivial, fun _ => trivial⟩ fun stored => ?_
      split
      · cases mode with
        | catchUp => trivial
        | fillGaps => exact ih
      · exact Procedure.Within.run_bind ih fun _ => trivial

theorem processItems_within (items : List Item) :
    (processItems owner mode items).run.Within UsesEvents := by
  apply Procedure.Within.run_bind (scan_within items)
  intro found
  refine Procedure.Within.run_bind ?_ fun _ => trivial
  rw [insertBatch]
  split
  · trivial
  · exact ⟨trivial, fun _ => trivial⟩

theorem processItems_isLocal (items : List Item) :
    (processItems owner mode items).run.Within Shared.IsLocal := by
  apply (processItems_within items).mono
  intro a h
  cases a <;> trivial

theorem seen_of_not_catchesUp {known : List EventKey} {items : List Item}
    (h : catchesUp owner known mode items = false) : seen owner known mode items = items := by
  cases mode with
  | fillGaps => rfl
  | catchUp =>
    have hnone : items.any (isKnown owner known) = false := by simpa [catchesUp] using h
    rw [seen, List.takeWhile_eq_self_iff]
    intro i hi
    simpa using List.any_eq_false.1 hnone i hi

/-- A page that does not end the run is treated alike in both modes. -/
theorem newOn_of_not_catchesUp {known : List EventKey} {items : List Item}
    (h : catchesUp owner known mode items = false) :
    newOn owner mode known items = newOn owner .fillGaps known items := by
  rw [newOn, seen_of_not_catchesUp h]
  rfl

theorem isKnown_of_ofItem?_eq_none {known : List EventKey} {i : Item}
    (h : Event.ofItem? owner i = none) :
    isKnown owner known i = false := by
  simp [isKnown, h]

theorem catchesUp_of_no_events {known : List EventKey} {items : List Item}
    (h : items.filterMap (Event.ofItem? owner) = []) :
    catchesUp owner known mode items = false := by
  have hnone : items.any (isKnown owner known) = false := by
    rw [List.any_eq_false]
    intro i hi
    simp [isKnown_of_ofItem?_eq_none (List.filterMap_eq_nil_iff.1 h i hi)]
  simp [catchesUp, hnone]

theorem newOn_of_no_events {known : List EventKey} {items : List Item}
    (h : items.filterMap (Event.ofItem? owner) = []) :
    newOn owner mode known items = [] := by
  rw [newOn, seen_of_not_catchesUp (catchesUp_of_no_events h), h]
  rfl

/-- What a run does with a page: the number of new events, and the cursor of the next request, if
there is to be one. -/
def takePage (owner : String) (mode : Mode) (cursor : Option Int64) (page : Page) :
    StoreProcedure (Nat × Option Int64) := do
  learn page
  let (new, caughtUp) ← processItems owner mode page.items
  return (new, if caughtUp then none
    else (page.items.getLast?.bind Item.timestamp).filter (isBefore · cursor))

/-- A run is a request and what it does with the page, again and again. -/
theorem pageFrom_eq (owner : String) (mode : Mode) (cursor : Option Int64) (count : Nat) :
    pageFrom owner mode cursor count = (do
      match ← Procedure.call (.fetchPage owner cursor) with
      | .error e => return ⟨count, some (.feed e)⟩
      | .ok page =>
        match ← (takePage owner mode cursor page).run with
        | .error e => return ⟨count, some (.store e)⟩
        | .ok (new, none) => return ⟨count + new, none⟩
        | .ok (new, some next) => pageFrom owner mode (some next) (count + new)) := by
  rw [pageFrom]
  congr 1
  funext answer
  cases answer with
  | error e => rfl
  | ok page =>
    simp only [takePage, ExceptT.run_bind, bind_assoc]
    congr 1
    funext result
    cases result with
    | error e => rfl
    | ok _ =>
      cases hlast : page.items.getLast? with
      | none =>
        rw [List.getLast?_eq_none_iff.1 hlast]
        rfl
      | some oldest =>
        simp only [bind_assoc]
        congr 1
        funext result
        rcases result with e | ⟨new, caughtUp⟩
        · rfl
        · cases caughtUp with
          | true => rfl
          | false =>
            cases htime : oldest.timestamp with
            | none => simp [htime]
            | some next =>
              by_cases hbefore : isBefore next cursor = true
              · simp [htime, hbefore, Option.filter_some]
              · simp [htime, hbefore, Option.filter_some]

theorem takePage_isLocal (page : Page) :
    (takePage owner mode cursor page).run.Within Shared.IsLocal := by
  apply Procedure.Within.run_bind (learn_isLocal page)
  intro _
  apply Procedure.Within.run_bind (processItems_isLocal page.items)
  exact fun _ => trivial

/-- A run goes on after a page from the time of its last item only, and to what is before. -/
theorem next_of_takePage {σ : Type} {perform : (a : Access) → σ → a.Answer × σ} {page : Page}
    {s s' : σ} {new : Nat} {next : Int64}
    (h : (takePage owner mode cursor page).run.run perform s = (.ok (new, some next), s')) :
    ∃ oldest, page.items.getLast? = some oldest ∧ oldest.timestamp = some next ∧
      isBefore next cursor = true := by
  obtain ⟨_, s₁, -, h⟩ := Procedure.run_run_bind_eq_ok h
  obtain ⟨⟨new', caughtUp⟩, s₂, -, h⟩ := Procedure.run_run_bind_eq_ok h
  cases caughtUp with
  | true => cases h
  | false =>
    have hnext : (page.items.getLast?.bind Item.timestamp).filter (isBefore · cursor) = some next :=
      congrArg Prod.snd (Except.ok.inj (congrArg Prod.fst h))
    obtain ⟨htime, hbefore⟩ := Option.filter_eq_some_iff.1 hnext
    obtain ⟨oldest, hlast, htime⟩ := Option.bind_eq_some_iff.1 htime
    exact ⟨oldest, hlast, htime, hbefore⟩

/-- Whether a run comes to the store with a page: for reference data or for an event. -/
def needsStore (owner : String) (page : Page) : Bool :=
  page.hasReferenceData || !(page.items.filterMap (Event.ofItem? owner)).isEmpty

def cursorAfter (owner : String) (mode : Mode) (known : List EventKey) (cursor : Option Int64)
    (page : Page) : Option Int64 :=
  if catchesUp owner known mode page.items then none
  else (page.items.getLast?.bind Item.timestamp).filter fun next => isBefore next cursor

/-- The shared state with the reference data of a page and with its new events. -/
def digested (owner : String) (mode : Mode) (s : Shared φ) (page : Page) : Shared φ :=
  appended (page.records.foldl upserted s) (newOn owner mode s.store.events.keys page.items)

/-- A page is stored whole, unless the store is closed and the page comes to it. -/
theorem exec_takePage (page : Page) (s : Shared φ) :
    s.exec source (takePage owner mode cursor page).run =
      if !s.store.isOpen && needsStore owner page then (.error .unavailable, s)
      else (.ok ((newOn owner mode s.store.events.keys page.items).length,
          cursorAfter owner mode s.store.events.keys cursor page), digested owner mode s page) := by
  rw [takePage, Shared.exec_run_bind]
  cases hs : s.store.isOpen with
  | true =>
    have hrows := foldl_upserted_events page.records s
    have hopen := (foldl_upserted_isOpen page.records s).trans hs
    rw [exec_learn page hs]
    simp only [Shared.exec_run_bind, exec_processItems page.items hopen, hrows]
    rfl
  | false =>
    rw [exec_learn_of_closed page hs, needsStore]
    cases hdata : page.hasReferenceData with
    | true => rfl
    | false =>
      simp only [Bool.false_eq_true, if_false, Shared.exec_run_bind,
        exec_processItems_of_closed page.items hs]
      cases hevents : page.items.filterMap (Event.ofItem? owner) with
      | cons event events => rfl
      | nil =>
        rw [cursorAfter, digested, newOn_of_no_events hevents, catchesUp_of_no_events hevents,
          records_eq_nil_iff.2 hdata]
        simp [appended]

theorem exec_takePage_of_open (page : Page) {s : Shared φ} (hs : s.store.isOpen = true) :
    s.exec source (takePage owner mode cursor page).run =
      (.ok ((newOn owner mode s.store.events.keys page.items).length,
        cursorAfter owner mode s.store.events.keys cursor page), digested owner mode s page) := by
  rw [exec_takePage, hs]
  rfl

theorem digested_isOpen (owner : String) (mode : Mode) (s : Shared φ) (page : Page) :
    (digested owner mode s page).store.isOpen = s.store.isOpen :=
  foldl_upserted_isOpen page.records s

theorem digested_stopped (owner : String) (mode : Mode) (s : Shared φ) (page : Page) :
    (digested owner mode s page).stopped = s.stopped :=
  foldl_upserted_stopped page.records s

theorem digested_events (owner : String) (mode : Mode) (s : Shared φ) (page : Page) :
    (digested owner mode s page).store.events =
      s.store.events ++ (newOn owner mode s.store.events.keys page.items).map Row.ofEvent :=
  congrArg (· ++ _) (foldl_upserted_events page.records s)

section cursorAfter

variable {known : List EventKey} {page : Page} {next : Int64}

theorem cursorAfter_eq_some_iff : cursorAfter owner mode known cursor page = some next ↔
    catchesUp owner known mode page.items = false ∧ ∃ oldest, page.items.getLast? = some oldest ∧
      oldest.timestamp = some next ∧ isBefore next cursor = true := by
  rw [cursorAfter]
  cases catchesUp owner known mode page.items with
  | true => simp
  | false =>
    simp only [Bool.false_eq_true, if_false, Option.filter_eq_some_iff, Option.bind_eq_some_iff,
      true_and]
    constructor
    · rintro ⟨⟨oldest, hlast, htime⟩, hbefore⟩
      exact ⟨oldest, hlast, htime, hbefore⟩
    · rintro ⟨oldest, hlast, htime, hbefore⟩
      exact ⟨⟨oldest, hlast, htime⟩, hbefore⟩

theorem isBefore_of_cursorAfter (h : cursorAfter owner mode known cursor page = some next) :
    isBefore next cursor = true := by
  obtain ⟨-, oldest, -, -, hbefore⟩ := cursorAfter_eq_some_iff.1 h
  exact hbefore

/-- Both modes go on after a page that does not end the run. -/
theorem cursorAfter_of_not_catchesUp (h : catchesUp owner known mode page.items = false) :
    cursorAfter owner mode known cursor page = cursorAfter owner .fillGaps known cursor page := by
  rw [cursorAfter, h]
  rfl

end cursorAfter

/-- Both modes do the same with a page that does not end a run, and with any page over a closed
store. -/
theorem exec_takePage_fillGaps {s : Shared φ} {page : Page}
    (h : s.store.isOpen = true → catchesUp owner s.store.events.keys mode page.items = false) :
    s.exec source (takePage owner mode cursor page).run =
      s.exec source (takePage owner .fillGaps cursor page).run := by
  rw [exec_takePage, exec_takePage]
  by_cases hrefused : (!s.store.isOpen && needsStore owner page) = true
  · rw [if_pos hrefused, if_pos hrefused]
  · have hcaught : catchesUp owner s.store.events.keys mode page.items = false := by
      cases hs : s.store.isOpen with
      | true => exact h hs
      | false => exact catchesUp_of_no_events (by simp_all [needsStore])
    rw [if_neg hrefused, if_neg hrefused, cursorAfter_of_not_catchesUp hcaught, digested, digested,
      newOn_of_not_catchesUp hcaught]

theorem pages_fetchPage (s : Shared φ) (address : String) (cursor : Option Int64) :
    s.pages source (.call (.fetchPage address cursor)) =
      match (s.fetchPage source address cursor).1 with
      | .ok page => [page]
      | .error _ => [] := by
  change [Made.mk (.fetchPage address cursor) (s.fetchPage source address cursor).1].filterMap
    Made.page? = _
  cases (s.fetchPage source address cursor).1 <;> rfl

/-- What a run comes to: its request fails, the store refuses the page, or it ends or goes on after
the page. -/
theorem exec_pageFrom (source : PageSource φ) (owner : String) (mode : Mode)
    (cursor : Option Int64) (count : Nat) (s : Shared φ) :
    s.exec source (pageFrom owner mode cursor count) =
      match s.fetchPage source owner cursor with
      | (.error e, s) => (⟨count, some (.feed e)⟩, s)
      | (.ok page, s) =>
        match s.exec source (takePage owner mode cursor page).run with
        | (.error e, s) => (⟨count, some (.store e)⟩, s)
        | (.ok (new, none), s) => (⟨count + new, none⟩, s)
        | (.ok (new, some next), s) =>
          s.exec source (pageFrom owner mode (some next) (count + new)) := by
  rw [pageFrom_eq, Shared.exec_bind, Shared.exec_call, Shared.perform]
  rcases s.fetchPage source owner cursor with ⟨e | page, s⟩
  · rfl
  · simp only [Shared.exec_bind]
    rcases s.exec source (takePage owner mode cursor page).run with ⟨e | ⟨new, next | next⟩, s⟩ <;>
      rfl

theorem trace_pageFrom (source : PageSource φ) (owner : String) (mode : Mode)
    (cursor : Option Int64) (count : Nat) (s : Shared φ) :
    (pageFrom owner mode cursor count).trace (Shared.perform source) s =
      ⟨.fetchPage owner cursor, (s.fetchPage source owner cursor).1⟩ ::
        match s.fetchPage source owner cursor with
        | (.error _, _) => []
        | (.ok page, s) =>
          (takePage owner mode cursor page).run.trace (Shared.perform source) s ++
            match s.exec source (takePage owner mode cursor page).run with
            | (.ok (new, some next), s) =>
              (pageFrom owner mode (some next) (count + new)).trace (Shared.perform source) s
            | _ => [] := by
  rw [pageFrom_eq, Shared.trace_bind, Shared.exec_call, Shared.perform]
  refine congrArg (List.cons _) ?_
  rcases s.fetchPage source owner cursor with ⟨e | page, s⟩
  · rfl
  · simp only [Shared.trace_bind]
    rcases s.exec source (takePage owner mode cursor page).run with ⟨e | ⟨new, next | next⟩, s⟩ <;>
      rfl

theorem pages_pageFrom (source : PageSource φ) (owner : String) (mode : Mode)
    (cursor : Option Int64) (count : Nat) (s : Shared φ) :
    s.pages source (pageFrom owner mode cursor count) =
      match s.fetchPage source owner cursor with
      | (.error _, _) => []
      | (.ok page, s) => page ::
        match s.exec source (takePage owner mode cursor page).run with
        | (.ok (new, some next), s) =>
          s.pages source (pageFrom owner mode (some next) (count + new))
        | _ => [] := by
  rw [pageFrom_eq, Shared.pages_bind, pages_fetchPage, Shared.exec_call, Shared.perform]
  rcases s.fetchPage source owner cursor with ⟨e | page, s⟩
  · rfl
  · simp only [Shared.pages_bind, Shared.pages_of_isLocal (takePage_isLocal page)]
    rcases s.exec source (takePage owner mode cursor page).run with ⟨e | ⟨new, next | next⟩, s⟩ <;>
      rfl

end AddressLedger.Sync
