import AddressLedger.Proofs.Sync.Effect
import Mathlib.Algebra.Group.Nat.Defs
import Mathlib.Data.List.Chain

/-!
# The requests of a run

A run asks for the latest page first, and then each time for what is older than the last item of the
page before, at a time that decreases. This is so whatever its accesses are answered. No request is
made twice, and there are no more requests than there are times.
-/
namespace AddressLedger.Service
open Feed

structure PageCall where
  address : String
  cursor : Option Int64
  answer : Except FeedError Page

def Made.pageCall? : Made → Option PageCall
  | ⟨.fetchPage address cursor, answer⟩ => some ⟨address, cursor, answer⟩
  | _ => none

namespace Procedure

variable {α β σ : Type} {perform : (a : Access) → σ → a.Answer × σ}

def pageCalls (perform : (a : Access) → σ → a.Answer × σ) (p : Procedure α) (s : σ) :
    List PageCall :=
  (p.trace perform s).filterMap Made.pageCall?

theorem pageCalls_bind (p : Procedure α) (k : α → Procedure β) (s : σ) :
    (p >>= k).pageCalls perform s =
      p.pageCalls perform s ++ (k (p.run perform s).1).pageCalls perform (p.run perform s).2 := by
  rw [pageCalls, trace_bind, List.filterMap_append]
  rfl

theorem pageCalls_of_isLocal {p : Procedure α} (h : p.Within Shared.IsLocal) (s : σ) :
    p.pageCalls perform s = [] := by
  rw [pageCalls, List.filterMap_eq_nil_iff]
  intro made hm
  have hlocal := h.mem_trace hm
  rcases made with ⟨a, answer⟩
  cases a with
  | fetchPage address cursor => exact hlocal.elim
  | _ => rfl

theorem pageCalls_fetchPage_bind (address : String) (cursor : Option Int64)
    (k : Except FeedError Page → Procedure α) (s : σ) :
    (call (.fetchPage address cursor) >>= k).pageCalls perform s =
      ⟨address, cursor, (perform (.fetchPage address cursor) s).1⟩ ::
        (k (perform (.fetchPage address cursor) s).1).pageCalls perform
          (perform (.fetchPage address cursor) s).2 := by
  rw [pageCalls_bind]
  rfl

theorem pageCalls_bind_of_isLocal {p : Procedure α} (h : p.Within Shared.IsLocal)
    (k : α → Procedure β) (s : σ) :
    (p >>= k).pageCalls perform s =
      (k (p.run perform s).1).pageCalls perform (p.run perform s).2 := by
  rw [pageCalls_bind, pageCalls_of_isLocal h, List.nil_append]

end Procedure

end AddressLedger.Service

namespace AddressLedger.Sync
open Feed Service

/-- How a request comes after another one: it asks for what is older than the last item that the
other received, and this lies before all that the other asked for. -/
def LeadsTo (c d : PageCall) : Prop :=
  ∃ page oldest next, c.answer = .ok page ∧ page.items.getLast? = some oldest ∧
    oldest.timestamp = some next ∧ d.cursor = some next ∧ isBefore next c.cursor = true

/-- The requests of a run from a cursor on. -/
inductive PagesBack (owner : String) : Option Int64 → List PageCall → Prop
  | last (cursor : Option Int64) (answer : Except FeedError Page) :
      PagesBack owner cursor [⟨owner, cursor, answer⟩]
  | next {cursor : Option Int64} {page : Page} {oldest : Item} {next : Int64}
      {calls : List PageCall} (hlast : page.items.getLast? = some oldest)
      (htime : oldest.timestamp = some next) (hbefore : isBefore next cursor = true)
      (rest : PagesBack owner (some next) calls) :
      PagesBack owner cursor (⟨owner, cursor, .ok page⟩ :: calls)

variable {σ : Type} {owner : String} {cursor : Option Int64} {calls : List PageCall}

theorem pageFrom_pagesBack (perform : (a : Access) → σ → a.Answer × σ) (owner : String)
    (mode : Mode) (cursor : Option Int64) (count : Nat) (s : σ) :
    PagesBack owner cursor ((pageFrom owner mode cursor count).pageCalls perform s) := by
  induction cursor, count using pageFrom.induct generalizing s with
  | case1 cursor count ih =>
    rw [pageFrom_eq, Procedure.pageCalls_fetchPage_bind]
    rcases perform (.fetchPage owner cursor) s with ⟨e | page, s₁⟩
    · exact .last cursor _
    · dsimp only
      rw [Procedure.pageCalls_bind_of_isLocal (takePage_isLocal page)]
      rcases htaken : (takePage owner mode cursor page).run.run perform s₁ with
        ⟨e | ⟨new, _ | next⟩, s₂⟩
      · exact .last cursor _
      · exact .last cursor _
      · obtain ⟨oldest, hlast, htime, hbefore⟩ := next_of_takePage htaken
        exact .next hlast htime hbefore (ih new next hbefore s₂)

theorem PagesBack.head (h : PagesBack owner cursor calls) :
    calls.head?.map PageCall.cursor = some cursor := by
  cases h <;> rfl

theorem PagesBack.address (h : PagesBack owner cursor calls) :
    ∀ call ∈ calls, call.address = owner := by
  induction h with
  | last cursor answer => simp
  | next hlast htime hbefore rest ih => simpa using ih

theorem PagesBack.isChain (h : PagesBack owner cursor calls) : calls.IsChain LeadsTo := by
  induction h with
  | last cursor answer => exact .singleton _
  | @next cursor page oldest next calls hlast htime hbefore rest ih =>
    cases calls with
    | nil => exact .singleton _
    | cons call calls =>
      have hcursor : call.cursor = some next := by simpa using rest.head
      exact .cons_cons ⟨page, oldest, next, rfl, hlast, htime, hcursor, hbefore⟩ ih

/-- Each request uses up one of the times that may still come. -/
theorem PagesBack.length_le (h : PagesBack owner cursor calls) :
    calls.length ≤ remaining cursor + 1 := by
  induction h with
  | last cursor answer => simp
  | next hlast htime hbefore rest ih =>
    have hless := remaining_lt hbefore
    rw [List.length_cons]
    omega

def AsksBefore (c d : PageCall) : Prop :=
  ∃ next, d.cursor = some next ∧ isBefore next c.cursor = true

theorem LeadsTo.asksBefore {c d : PageCall} (h : LeadsTo c d) : AsksBefore c d := by
  rcases h with ⟨-, -, next, -, -, -, hcursor, hbefore⟩
  exact ⟨next, hcursor, hbefore⟩

theorem AsksBefore.trans {c d e : PageCall} (h : AsksBefore c d) (h' : AsksBefore d e) :
    AsksBefore c e := by
  rcases h with ⟨next, hd, hnext⟩
  rcases h' with ⟨last, he, hlast⟩
  refine ⟨last, he, ?_⟩
  have hless : last < next := by simpa [isBefore, hd] using hlast
  cases hc : c.cursor with
  | none => rfl
  | some current =>
    have hless' : next < current := by simpa [isBefore, hc] using hnext
    simpa [isBefore] using Int64.lt_trans hless hless'

theorem AsksBefore.cursor_ne {c d : PageCall} (h : AsksBefore c d) : c.cursor ≠ d.cursor := by
  rcases h with ⟨next, hd, hnext⟩
  intro heq
  rw [heq, hd] at hnext
  simp [isBefore, Int64.lt_irrefl] at hnext

instance : Trans AsksBefore AsksBefore AsksBefore := ⟨AsksBefore.trans⟩

theorem PagesBack.nodup (h : PagesBack owner cursor calls) :
    (calls.map fun call => (call.address, call.cursor)).Nodup := by
  have hdescend := List.isChain_iff_pairwise.1 (h.isChain.imp fun _ _ => LeadsTo.asksBefore)
  rw [List.Nodup, List.pairwise_map]
  apply hdescend.imp
  intro c d hcd heq
  exact hcd.cursor_ne (congrArg Prod.snd heq)

/-- A run makes finitely many requests, whatever its accesses are answered. The first has no time;
each later one has the time of the last item of the page before, which is less than the time
before. No request is made twice. -/
theorem pageFrom_requests_descend (perform : (a : Access) → σ → a.Answer × σ) (owner : String)
    (mode : Mode) (s : σ) :
    let calls := (pageFrom owner mode none 0).pageCalls perform s
    calls.length ≤ 2 ^ 64 + 1 ∧ calls.head?.map PageCall.cursor = some none ∧
      calls.IsChain LeadsTo ∧ (∀ call ∈ calls, call.address = owner) ∧
      (calls.map fun call => (call.address, call.cursor)).Nodup := by
  have h := pageFrom_pagesBack perform owner mode none 0 s
  exact ⟨h.length_le, h.head, h.isChain, h.address, h.nodup⟩

/-- A run makes no request twice. -/
theorem syncAddress_asks_once (perform : (a : Access) → σ → a.Answer × σ) (a : String) (mode : Mode)
    (s : σ) : (((syncAddress a mode).pageCalls perform s).map fun call =>
      (call.address, call.cursor)).Nodup := by
  have hcalls : ∃ s', (syncAddress a mode).pageCalls perform s =
      (pageFrom (normalizeAddress a) mode none 0).pageCalls perform s' := by
    have hlock : (Procedure.call (.lock (normalizeAddress a))).Within Shared.IsLocal :=
      ⟨trivial, fun _ => trivial⟩
    rw [syncAddress, Procedure.pageCalls_bind_of_isLocal hlock, Procedure.pageCalls_bind]
    exact ⟨_, List.append_nil _⟩
  obtain ⟨s', hcalls⟩ := hcalls
  rw [hcalls]
  exact (pageFrom_pagesBack perform (normalizeAddress a) mode none 0 s').nodup

end AddressLedger.Sync
