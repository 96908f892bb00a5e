import AddressLedger.Service.Procedure

/-!
# What a procedure does when it runs alone

The accesses that it makes, in their order and with their answers, and the pages among these. A
procedure that keeps to a class of accesses, whatever it is answered, makes no others.
-/
namespace AddressLedger.Service
open Catalog Feed Store

structure Made where
  access : Access
  answer : access.Answer

def Made.page? : Made → Option Page
  | ⟨.fetchPage _ _, .ok page⟩ => some page
  | _ => none

namespace Procedure

variable {α β σ : Type} {perform : (a : Access) → σ → a.Answer × σ} {allowed : Access → Prop}

instance : LawfulMonad Procedure := LawfulMonad.mk' Procedure bind_done (fun _ _ => rfl) bind_bind

def trace (perform : (a : Access) → σ → a.Answer × σ) : Procedure α → σ → List Made
  | done _, _ => []
  | access a next, s =>
    ⟨a, (perform a s).1⟩ :: (next (perform a s).1).trace perform (perform a s).2

theorem trace_bind (p : Procedure α) (k : α → Procedure β) (s : σ) :
    (p >>= k).trace perform s =
      p.trace perform s ++ (k (p.run perform s).1).trace perform (p.run perform s).2 := by
  induction p generalizing s with
  | done result => rfl
  | access a next ih =>
    rw [access_bind, trace, trace, ih, run]
    rfl

/-- Whether all accesses that a procedure can come to make are of a class. -/
def Within (allowed : Access → Prop) : Procedure α → Prop
  | done _ => True
  | access a next => allowed a ∧ ∀ answer, (next answer).Within allowed

theorem Within.bind {p : Procedure α} {k : α → Procedure β} (hp : p.Within allowed)
    (hk : ∀ result, (k result).Within allowed) : (p >>= k).Within allowed := by
  induction p with
  | done result => exact hk result
  | access a next ih => exact ⟨hp.1, fun answer => ih answer (hp.2 answer)⟩

theorem Within.mono {allowed' : Access → Prop} {p : Procedure α} (h : p.Within allowed)
    (weaken : ∀ a, allowed a → allowed' a) : p.Within allowed' := by
  induction p with
  | done result => trivial
  | access a next ih => exact ⟨weaken a h.1, fun answer => ih answer (h.2 answer)⟩

theorem Within.mem_trace {p : Procedure α} (h : p.Within allowed) {s : σ} {made : Made}
    (hm : made ∈ p.trace perform s) : allowed made.access := by
  induction p generalizing s with
  | done result => simp [trace] at hm
  | access a next ih =>
    rw [trace, List.mem_cons] at hm
    obtain rfl | hm := hm
    · exact h.1
    · exact ih _ (h.2 _) hm

end Procedure

theorem fetchPage_store {φ : Type} (source : PageSource φ) (s : Shared φ) (address : String)
    (cursor : Option Int64) : (s.fetchPage source address cursor).2.store = s.store := by
  rw [Shared.fetchPage]
  split
  · rfl
  · split <;> rfl

namespace Shared

variable {φ α β : Type} {source : PageSource φ}

def pages (source : PageSource φ) (p : Procedure α) (s : Shared φ) : List Page :=
  (p.trace (perform source) s).filterMap Made.page?

theorem exec_bind (p : Procedure α) (k : α → Procedure β) (s : Shared φ) :
    exec source (p >>= k) s = exec source (k (exec source p s).1) (exec source p s).2 :=
  Procedure.run_bind (perform source) p k s

theorem trace_bind (p : Procedure α) (k : α → Procedure β) (s : Shared φ) :
    (p >>= k).trace (perform source) s = p.trace (perform source) s ++
      (k (exec source p s).1).trace (perform source) (exec source p s).2 :=
  Procedure.trace_bind p k s

theorem pages_bind (p : Procedure α) (k : α → Procedure β) (s : Shared φ) :
    pages source (p >>= k) s =
      pages source p s ++ pages source (k (exec source p s).1) (exec source p s).2 := by
  rw [pages, trace_bind, List.filterMap_append]
  rfl

@[simp] theorem exec_done (result : α) (s : Shared φ) :
    exec source (.done result) s = (result, s) := rfl

theorem exec_call (a : Access) (s : Shared φ) :
    exec source (.call a) s = perform source a s := rfl

theorem exec_access (a : Access) (next : a.Answer → Procedure α) (s : Shared φ) :
    exec source (.access a next) s =
      exec source (next (perform source a s).1) (perform source a s).2 := rfl

@[simp] theorem pages_done (result : α) (s : Shared φ) :
    pages source (.done result) s = [] := rfl

/-- An access other than a request for a page. -/
def IsLocal : Access → Prop
  | .fetchPage _ _ => False
  | _ => True

theorem pages_of_isLocal {p : Procedure α} (h : p.Within IsLocal) (s : Shared φ) :
    pages source p s = [] := by
  rw [pages, List.filterMap_eq_nil_iff]
  intro made hm
  have hlocal := h.mem_trace hm
  rcases made with ⟨a, answer⟩
  cases a with
  | fetchPage address cursor => exact hlocal.elim
  | _ => rfl

theorem perform_isOpen (source : PageSource φ) (a : Access) (s : Shared φ) :
    (s.perform source a).2.store.isOpen = s.store.isOpen := by
  cases a with
  | fetchPage address cursor => rw [perform, fetchPage_store]
  | insertEvents es =>
    simp only [perform, Store.insertEvents]
    split <;> rfl
  | writeRecord record =>
    simp only [perform, Store.writeRecord]
    split
    · cases record <;> rfl
    · rfl
  | _ => rfl

theorem exec_isOpen (p : Procedure α) (s : Shared φ) :
    (exec source p s).2.store.isOpen = s.store.isOpen := by
  induction p generalizing s with
  | done result => rfl
  | access a next ih => exact (ih _ _).trans (perform_isOpen source a s)

/-- Shutdown is not taken back. -/
theorem perform_stopped (source : PageSource φ) (a : Access) {s : Shared φ}
    (h : s.stopped = true) : (s.perform source a).2.stopped = true := by
  cases a with
  | fetchPage address cursor => rwa [perform, Shared.fetchPage, if_pos h]
  | _ => exact h

theorem exec_stopped (p : Procedure α) {s : Shared φ} (h : s.stopped = true) :
    (exec source p s).2.stopped = true := by
  induction p generalizing s with
  | done result => exact h
  | access a next ih => exact ih _ (perform_stopped source a h)

theorem exec_run_bind (x : StoreProcedure α) (k : α → StoreProcedure β) (s : Shared φ) :
    exec source (x >>= k).run s =
      match exec source x.run s with
      | (.ok result, s) => exec source (k result).run s
      | (.error e, s) => (.error e, s) := by
  rw [ExceptT.run_bind, exec_bind]
  rcases exec source x.run s with ⟨_ | _, s⟩ <;> rfl

theorem trace_run_bind (x : StoreProcedure α) (k : α → StoreProcedure β)
    (s : Shared φ) :
    (x >>= k).run.trace (perform source) s = x.run.trace (perform source) s ++
      match exec source x.run s with
      | (.ok result, s) => (k result).run.trace (perform source) s
      | (.error _, _) => [] := by
  rw [ExceptT.run_bind, trace_bind]
  rcases exec source x.run s with ⟨_ | _, s⟩ <;> rfl

@[simp] theorem exec_run_pure (result : α) (s : Shared φ) :
    exec source (pure result : StoreProcedure α).run s = (.ok result, s) := rfl

@[simp] theorem exec_run_ask (p : Procedure (Except StoreError α)) (s : Shared φ) :
    exec source (ask p).run s = exec source p s := rfl

@[simp] theorem exec_run_lift (p : Procedure α) (s : Shared φ) :
    exec source (ExceptT.lift p : StoreProcedure α).run s =
      (.ok (exec source p s).1, (exec source p s).2) := by
  rw [ExceptT.run_lift, map_eq_pure_bind, exec_bind]
  rfl

end Shared

def noPages : PageSource Unit := ⟨fun _ _ s => (.abandoned, s)⟩

theorem Procedure.Within.run_bind {α β : Type} {allowed : Access → Prop} {x : StoreProcedure α}
    {k : α → StoreProcedure β} (hx : x.run.Within allowed)
    (hk : ∀ result, (k result).run.Within allowed) : (x >>= k).run.Within allowed := by
  rw [ExceptT.run_bind]
  apply hx.bind
  intro result
  cases result with
  | ok result => exact hk result
  | error e => trivial

theorem Procedure.Within.run_lift {α : Type} {allowed : Access → Prop} {p : Procedure α}
    (h : p.Within allowed) : (ExceptT.lift p : StoreProcedure α).run.Within allowed := by
  rw [ExceptT.run_lift, map_eq_pure_bind]
  exact h.bind fun _ => trivial

theorem Procedure.Within.run_map {α β : Type} {allowed : Access → Prop} {x : StoreProcedure α}
    (h : x.run.Within allowed) (f : α → β) : (f <$> x).run.Within allowed := by
  rw [map_eq_pure_bind]
  exact h.run_bind fun _ => trivial

/-- A procedure that the store has not ended has come through both of its parts. -/
theorem Procedure.run_run_bind_eq_ok {α β σ : Type} {perform : (a : Access) → σ → a.Answer × σ}
    {x : StoreProcedure α} {k : α → StoreProcedure β} {s s' : σ} {result : β}
    (h : (x >>= k).run.run perform s = (.ok result, s')) :
    ∃ a s₁, x.run.run perform s = (.ok a, s₁) ∧ (k a).run.run perform s₁ = (.ok result, s') := by
  rw [ExceptT.run_bind, Procedure.run_bind] at h
  rcases hx : x.run.run perform s with ⟨e | a, s₁⟩
  · rw [hx] at h
    cases h
  · rw [hx] at h
    exact ⟨a, s₁, rfl, h⟩

end AddressLedger.Service
