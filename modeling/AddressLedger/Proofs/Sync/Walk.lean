import AddressLedger.Proofs.Sync.Effect

/-!
# How a run goes

The pages that a run receives over an open store, one after the other, and the ways in which it
ends: a request fails, a page is empty, the run has caught up, or the time does not decrease. What
is said of runs over a feed that keeps to a rule is shown by induction on this.
-/
namespace AddressLedger.Sync
open Catalog Feed Service Store

/-- A run from a cursor on, with the keys that are known, the pages that it receives and its
failure. Requests are answered as `answers` says. -/
inductive Walk (answers : Option Int64 → Except FeedError Page → Prop) (owner : String)
    (mode : Mode) : List EventKey → Option Int64 → List Page → Option SyncError → Prop
  | failed {known : List EventKey} {cursor : Option Int64} {e : FeedError}
      (hanswer : answers cursor (.error e)) :
      Walk answers owner mode known cursor [] (some (.feed e))
  | exhausted {known : List EventKey} {cursor : Option Int64} {page : Page}
      (hanswer : answers cursor (.ok page)) (hempty : page.items = []) :
      Walk answers owner mode known cursor [page] none
  | caughtUp {known : List EventKey} {cursor : Option Int64} {page : Page}
      (hanswer : answers cursor (.ok page))
      (hcaught : catchesUp owner known mode page.items = true) :
      Walk answers owner mode known cursor [page] none
  | stuck {known : List EventKey} {cursor : Option Int64} {page : Page} {oldest : Item}
      (hanswer : answers cursor (.ok page))
      (hcaught : catchesUp owner known mode page.items = false)
      (hlast : page.items.getLast? = some oldest)
      (hstuck : ∀ next, oldest.timestamp = some next → isBefore next cursor = false) :
      Walk answers owner mode known cursor [page] none
  | next {known : List EventKey} {cursor : Option Int64} {page : Page} {oldest : Item}
      {next : Int64} {pages : List Page} {failure : Option SyncError}
      (hanswer : answers cursor (.ok page))
      (hcaught : catchesUp owner known mode page.items = false)
      (hlast : page.items.getLast? = some oldest) (htime : oldest.timestamp = some next)
      (hbefore : isBefore next cursor = true)
      (rest : Walk answers owner mode
        (known ++ (newOn owner mode known page.items).map Event.key) (some next) pages failure) :
      Walk answers owner mode known cursor (page :: pages) failure

variable {φ : Type} {source : PageSource φ} {owner : String} {mode : Mode}
  {answers : Option Int64 → Except FeedError Page → Prop}

theorem Walk.ended {known : List EventKey} {cursor : Option Int64} {page : Page}
    (hanswer : answers cursor (.ok page))
    (hcursor : cursorAfter owner mode known cursor page = none) :
    Walk answers owner mode known cursor [page] none := by
  cases hcaught : catchesUp owner known mode page.items with
  | true => exact .caughtUp hanswer hcaught
  | false =>
    cases hlast : page.items.getLast? with
    | none => exact .exhausted hanswer (List.getLast?_eq_none_iff.1 hlast)
    | some oldest =>
      refine .stuck hanswer hcaught hlast fun next htime => Bool.eq_false_iff.2 fun hbefore => ?_
      have hsome := cursorAfter_eq_some_iff.2 ⟨hcaught, oldest, hlast, htime, hbefore⟩
      rw [hcursor] at hsome
      cases hsome

/-- A run over an open store is a walk, if the feed answers as is said while `running` holds of
whether shutdown was asked for. -/
theorem pageFrom_walk (running : Bool → Prop)
    (hfeed : ∀ (s : Shared φ) (cursor : Option Int64), running s.stopped →
      answers cursor (s.fetchPage source owner cursor).1 ∧
        running (s.fetchPage source owner cursor).2.stopped)
    (mode : Mode) (cursor : Option Int64) (count : Nat) {s : Shared φ}
    (hopen : s.store.isOpen = true) (hrunning : running s.stopped) :
    Walk answers owner mode s.store.events.keys cursor
      (s.pages source (pageFrom owner mode cursor count))
      (s.exec source (pageFrom owner mode cursor count)).1.failure := by
  induction cursor, count using pageFrom.induct generalizing s with
  | case1 cursor count ih =>
    have hstore := fetchPage_store source s owner cursor
    obtain ⟨hanswer, hrunning⟩ := hfeed s cursor hrunning
    rw [exec_pageFrom, pages_pageFrom]
    generalize s.fetchPage source owner cursor = fetched at hstore hanswer hrunning ⊢
    rcases fetched with ⟨e | page, s₁⟩
    · exact .failed hanswer
    · rw [← hstore] at hopen ⊢
      simp only [exec_takePage_of_open page hopen]
      cases hcursor : cursorAfter owner mode s₁.store.events.keys cursor page with
      | none => exact .ended hanswer hcursor
      | some next =>
        obtain ⟨hcaught, oldest, hlast, htime, hbefore⟩ := cursorAfter_eq_some_iff.1 hcursor
        have hrest := ih (newOn owner mode s₁.store.events.keys page.items).length next hbefore
          ((digested_isOpen owner mode s₁ page).trans hopen)
          ((digested_stopped owner mode s₁ page).symm ▸ hrunning)
        rw [digested_events, Events.keys_append] at hrest
        exact .next hanswer hcaught hlast htime hbefore hrest

theorem Walk.failure_eq_none {known : List EventKey} {cursor : Option Int64} {pages : List Page}
    {failure : Option SyncError} (hfeed : ∀ cursor e, ¬answers cursor (.error e))
    (h : Walk answers owner mode known cursor pages failure) : failure = none := by
  induction h with
  | failed hanswer => exact (hfeed _ _ hanswer).elim
  | next _ _ _ _ _ _ ih => exact ih
  | _ => rfl

theorem Walk.mono {answers' : Option Int64 → Except FeedError Page → Prop}
    (hanswers : ∀ cursor answer, answers cursor answer → answers' cursor answer)
    {known : List EventKey} {cursor : Option Int64} {pages : List Page}
    {failure : Option SyncError} (h : Walk answers owner mode known cursor pages failure) :
    Walk answers' owner mode known cursor pages failure := by
  induction h with
  | failed hanswer => exact .failed (hanswers _ _ hanswer)
  | exhausted hanswer hempty => exact .exhausted (hanswers _ _ hanswer) hempty
  | caughtUp hanswer hcaught => exact .caughtUp (hanswers _ _ hanswer) hcaught
  | stuck hanswer hcaught hlast hstuck =>
    exact .stuck (hanswers _ _ hanswer) hcaught hlast hstuck
  | next hanswer hcaught hlast htime hbefore _ ih =>
    exact .next (hanswers _ _ hanswer) hcaught hlast htime hbefore ih

end AddressLedger.Sync
