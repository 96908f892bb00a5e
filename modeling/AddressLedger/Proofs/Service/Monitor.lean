import AddressLedger.Proofs.Service.Trace
import AddressLedger.Service.Interleaving

/-!
# Following calls under way

The accesses that the turns of a pool make, each with the call that makes it, and monitors that move
with the accesses of one call. A call whose procedure follows a monitor when it starts follows it at
every point of every interleaving, in the state to which its own accesses have taken the monitor.
-/
namespace AddressLedger.Service
open Catalog Feed Store

variable {φ α β μ ν : Type}

/-- A state that moves with answered accesses, and the accesses that it admits. -/
structure Monitor (μ : Type) where
  next : μ → Made → μ
  admits : μ → Access → Prop

def steady (allowed : Access → Prop) : Monitor Unit := ⟨fun _ _ => (), fun _ => allowed⟩

def Monitor.prod (m : Monitor μ) (n : Monitor ν) : Monitor (μ × ν) where
  next x e := (m.next x.1 e, n.next x.2 e)
  admits x a := m.admits x.1 a ∧ n.admits x.2 a

namespace Procedure

/-- Whether a procedure makes admitted accesses only, whatever it is answered, and how it ends. -/
def Follows (m : Monitor μ) (post : α → μ → Prop) : Procedure α → μ → Prop
  | done result, x => post result x
  | access a next, x => m.admits x a ∧ ∀ answer, (next answer).Follows m post (m.next x ⟨a, answer⟩)

variable {m : Monitor μ}

theorem Follows.bind {p : Procedure α} {k : α → Procedure β} {post : β → μ → Prop} {x : μ}
    (h : p.Follows m (fun result y => (k result).Follows m post y) x) :
    (p >>= k).Follows m post x := by
  induction p generalizing x with
  | done result => exact h
  | access a next ih => exact ⟨h.1, fun answer => ih answer (h.2 answer)⟩

theorem Follows.mono {p : Procedure α} {post post' : α → μ → Prop} {x : μ}
    (h : p.Follows m post x) (weaken : ∀ result y, post result y → post' result y) :
    p.Follows m post' x := by
  induction p generalizing x with
  | done result => exact weaken result x h
  | access a next ih => exact ⟨h.1, fun answer => ih answer (h.2 answer)⟩

theorem Follows.and {n : Monitor ν} {p : Procedure α} {post : α → μ → Prop} {post' : α → ν → Prop}
    {x : μ} {y : ν} (h : p.Follows m post x) (h' : p.Follows n post' y) :
    p.Follows (m.prod n) (fun result z => post result z.1 ∧ post' result z.2) (x, y) := by
  induction p generalizing x y with
  | done result => exact ⟨h, h'⟩
  | access a next ih => exact ⟨⟨h.1, h'.1⟩, fun answer => ih answer (h.2 answer) (h'.2 answer)⟩

theorem Within.follows {allowed : Access → Prop} {p : Procedure α} (hp : p.Within allowed) {x : μ}
    (h : ∀ a, allowed a → m.admits x a ∧ ∀ answer, m.next x ⟨a, answer⟩ = x) :
    p.Follows m (fun _ y => y = x) x := by
  induction p with
  | done result => rfl
  | access a next ih =>
    obtain ⟨hadmits, hnext⟩ := h a hp.1
    refine ⟨hadmits, fun answer => ?_⟩
    rw [hnext answer]
    exact ih answer (hp.2 answer)

theorem Follows.within {allowed : Access → Prop} {p : Procedure α} {post : α → μ → Prop} {x : μ}
    (h : p.Follows m post x) (hadmits : ∀ y a, m.admits y a → allowed a) : p.Within allowed := by
  induction p generalizing x with
  | done result => trivial
  | access a next ih => exact ⟨hadmits x a h.1, fun answer => ih answer (h.2 answer)⟩

/-- A procedure that the store may end: what follows a failure is the end. -/
theorem Follows.run_bind {x : StoreProcedure α} {k : α → StoreProcedure β}
    {post : Except StoreError β → μ → Prop} {y : μ}
    (h : x.run.Follows m (fun result y => match result with
      | .ok result => (k result).run.Follows m post y
      | .error e => post (.error e) y) y) :
    (x >>= k).run.Follows m post y := by
  rw [ExceptT.run_bind]
  apply Follows.bind
  apply h.mono
  intro result y hy
  cases result with
  | ok result => exact hy
  | error e => exact hy

theorem Follows.run_lift {p : Procedure α} {post : Except StoreError α → μ → Prop} {x : μ}
    (h : p.Follows m (fun result y => post (.ok result) y) x) :
    (ExceptT.lift p : StoreProcedure α).run.Follows m post x := by
  rw [ExceptT.run_lift, map_eq_pure_bind]
  exact Follows.bind h

def FollowsAlways (m : Monitor μ) (p : Procedure α) : Prop := ∀ x, p.Follows m (fun _ _ => True) x

namespace FollowsAlways

theorem done (result : α) : FollowsAlways m (.done result) := fun _ => trivial

theorem bind {p : Procedure α} {k : α → Procedure β} (hp : p.FollowsAlways m)
    (hk : ∀ result, (k result).FollowsAlways m) : (p >>= k).FollowsAlways m :=
  fun x => Follows.bind ((hp x).mono fun result y _ => hk result y)

theorem of_within {allowed : Access → Prop} {p : Procedure α} (hp : p.Within allowed)
    (h : ∀ x a, allowed a → m.admits x a) : p.FollowsAlways m := by
  induction p with
  | done result => exact done result
  | access a next ih => exact fun x => ⟨h x a hp.1, fun answer => ih answer (hp.2 answer) _⟩

theorem of_call {a : Access} (h : ∀ x, m.admits x a) : FollowsAlways m (.call a) :=
  fun x => ⟨h x, fun _ => trivial⟩

theorem run_bind {x : StoreProcedure α} {k : α → StoreProcedure β} (hx : x.run.FollowsAlways m)
    (hk : ∀ result, (k result).run.FollowsAlways m) : (x >>= k).run.FollowsAlways m := by
  rw [ExceptT.run_bind]
  apply bind hx
  intro result
  cases result with
  | ok result => exact hk result
  | error e => exact done _

theorem run_map {x : StoreProcedure α} (hx : x.run.FollowsAlways m) (f : α → β) :
    (f <$> x).run.FollowsAlways m := by
  rw [map_eq_pure_bind]
  exact run_bind hx fun _ => done _

end FollowsAlways

end Procedure

namespace Pool

variable {source : PageSource φ}

def made (source : PageSource φ) (p : Pool φ α) : Turn → Option (Nat × Made)
  | .call i =>
    match p.calls[i]? with
    | some (.access a _) =>
      if p.isStarted i && p.shared.admits a then
        some (i, ⟨a, (p.shared.perform source a).1⟩)
      else none
    | _ => none
  | .expire _ | .shutdown => none

/-- The accesses that turns make, each with the call that makes it. -/
def log (source : PageSource φ) (p : Pool φ α) : List Turn → List (Nat × Made)
  | [] => []
  | t :: turns => (p.made source t).toList ++ (p.turn source t).log source turns

theorem log_append (source : PageSource φ) (p : Pool φ α) (turns more : List Turn) :
    p.log source (turns ++ more) = p.log source turns ++ (p.run source turns).log source more := by
  induction turns generalizing p with
  | nil => rfl
  | cons t turns ih =>
    rw [List.cons_append, log, log, ih, List.append_assoc]
    rfl

def ofCall (i : Nat) (entries : List (Nat × Made)) : List Made :=
  (entries.filter fun entry => entry.1 = i).map Prod.snd

/-- What may happen to the shared state between the accesses of the calls. -/
inductive Drift (s : Shared φ) : Shared φ → Prop
  | none : Drift s s
  | expire (key : Key) : Drift s (s.forget key)
  | stop : Drift s { s with stopped := true }

theorem Drift.store_eq {s s' : Shared φ} (h : Drift s s') : s'.store = s.store := by
  cases h <;> rfl

/-- A turn makes no access and leaves the calls as they are, or it makes the next access of an
unfinished call. -/
theorem turn_cases (source : PageSource φ) (p : Pool φ α) (t : Turn) :
    (p.made source t = none ∧ (p.turn source t).calls = p.calls ∧
      Drift p.shared (p.turn source t).shared) ∨
    ∃ i a next, p.calls[i]? = some (.access a next) ∧
      p.made source t = some (i, ⟨a, (p.shared.perform source a).1⟩) ∧
      (p.turn source t).calls = p.calls.set i (next (p.shared.perform source a).1) ∧
      (p.turn source t).shared = (p.shared.perform source a).2 := by
  cases t with
  | expire key => exact .inl ⟨rfl, rfl, .expire key⟩
  | shutdown => exact .inl ⟨rfl, rfl, .stop⟩
  | call i =>
    simp only [made, turn, advance]
    cases hc : p.calls[i]? with
    | none => exact .inl ⟨rfl, rfl, .none⟩
    | some call =>
      cases call with
      | done result => exact .inl ⟨rfl, rfl, .none⟩
      | access a next =>
        by_cases hgo : (p.isStarted i && p.shared.admits a) = true
        · simp only [hgo, if_true]
          exact .inr ⟨i, a, next, hc, rfl, rfl, rfl⟩
        · simp only [hgo]
          exact .inl ⟨rfl, rfl, .none⟩

@[simp] theorem ofCall_append (i : Nat) (entries more : List (Nat × Made)) :
    ofCall i (entries ++ more) = ofCall i entries ++ ofCall i more := by
  simp [ofCall]

theorem ofCall_self (i : Nat) (e : Made) : ofCall i [(i, e)] = [e] := by simp [ofCall]

theorem ofCall_other {i j : Nat} (h : j ≠ i) (e : Made) : ofCall i [(j, e)] = [] := by
  simp [ofCall, h]

theorem mem_ofCall {i : Nat} {e : Made} {entries : List (Nat × Made)} :
    e ∈ ofCall i entries ↔ (i, e) ∈ entries := by
  simp [ofCall]

theorem ofCall_eq_nil_iff {i : Nat} {entries : List (Nat × Made)} :
    ofCall i entries = [] ↔ i ∉ entries.map Prod.fst := by
  rw [ofCall, List.map_eq_nil_iff, List.filter_eq_nil_iff]
  simp only [decide_eq_true_eq, List.mem_map, not_exists, not_and]

def moved (m : Monitor μ) (state : Nat → μ) (entry : Nat × Made) (i : Nat) : μ :=
  if i = entry.1 then m.next (state i) entry.2 else state i

def states (m : Monitor μ) (state : Nat → μ) (entries : List (Nat × Made)) : Nat → μ :=
  entries.foldl (moved m) state

def Follows (m : Monitor μ) (post : α → μ → Prop) (p : Pool φ α) (state : Nat → μ) : Prop :=
  ∀ i (call : Procedure α), p.calls[i]? = some call → call.Follows m post (state i)

variable {m : Monitor μ} {post : α → μ → Prop}

@[simp] theorem moved_self (state : Nat → μ) (i : Nat) (e : Made) :
    moved m state (i, e) i = m.next (state i) e := by
  simp [moved]

theorem moved_other {i j : Nat} (h : j ≠ i) (state : Nat → μ) (e : Made) :
    moved m state (i, e) j = state j := by
  simp [moved, h]

theorem foldl_prod_fst (m : Monitor μ) (n : Monitor ν) (x : μ × ν) (made : List Made) :
    (made.foldl (m.prod n).next x).1 = made.foldl m.next x.1 := by
  induction made generalizing x with
  | nil => rfl
  | cons e made ih => exact ih _

theorem states_append (state : Nat → μ) (entries more : List (Nat × Made)) :
    states m state (entries ++ more) = states m (states m state entries) more :=
  List.foldl_append

/-- The monitor of a call moves with the accesses of this call only. -/
theorem states_apply (state : Nat → μ) (entries : List (Nat × Made)) (i : Nat) :
    states m state entries i = (ofCall i entries).foldl m.next (state i) := by
  induction entries generalizing state with
  | nil => rfl
  | cons entry entries ih =>
    rcases entry with ⟨j, e⟩
    have hsplit : ofCall i ((j, e) :: entries) = ofCall i [(j, e)] ++ ofCall i entries :=
      ofCall_append i [(j, e)] entries
    rw [states, List.foldl_cons, ← states, ih, hsplit]
    by_cases h : j = i
    · rw [h, ofCall_self, moved_self]
      rfl
    · rw [ofCall_other h, moved_other (Ne.symm h)]
      rfl

theorem Follows.set {p : Pool φ α} {state : Nat → μ} (h : p.Follows m post state) {i : Nat}
    {a : Access} {next : a.Answer → Procedure α} (hi : p.calls[i]? = some (.access a next))
    (answer : a.Answer) {q : Pool φ α} (hq : q.calls = p.calls.set i (next answer)) :
    q.Follows m post (moved m state (i, ⟨a, answer⟩)) := by
  intro j call hj
  rw [hq] at hj
  by_cases hji : j = i
  · subst hji
    have hlt : j < p.calls.length := (List.getElem?_eq_some_iff.mp hi).1
    rw [List.getElem?_set_self hlt, Option.some.injEq] at hj
    rw [← hj, moved_self]
    exact (h j _ hi).2 answer
  · rw [List.getElem?_set_ne (Ne.symm hji)] at hj
    rw [moved_other hji]
    exact h j call hj

theorem Follows.turn (source : PageSource φ) {p : Pool φ α} {state : Nat → μ}
    (h : p.Follows m post state) (t : Turn) :
    (p.turn source t).Follows m post (states m state (p.made source t).toList) := by
  rcases turn_cases source p t with ⟨hmade, hcalls, -⟩ | ⟨i, a, next, hi, hmade, hcalls, -⟩
  · rw [hmade]
    exact fun i call hcall => h i call (hcalls ▸ hcall)
  · rw [hmade]
    exact h.set hi _ hcalls

/-- What every admitted access of a log and every drift keep, about what the calls share and about
their monitors, all turns keep; and every call goes on to follow the monitor. -/
theorem Follows.run (source : PageSource φ) (inv : Shared φ → (Nat → μ) → Prop)
    (turns : List Turn) {p : Pool φ α} {state : Nat → μ} (h : p.Follows m post state)
    (step : ∀ s state i a, (i, ⟨a, (s.perform source a).1⟩) ∈ p.log source turns →
      m.admits (state i) a → inv s state →
      inv (s.perform source a).2 (moved m state (i, ⟨a, (s.perform source a).1⟩)))
    (drift : ∀ s s' state, Drift s s' → inv s state → inv s' state)
    (hinv : inv p.shared state) :
    inv (p.run source turns).shared (states m state (p.log source turns)) ∧
      (p.run source turns).Follows m post (states m state (p.log source turns)) := by
  induction turns generalizing p state with
  | nil => exact ⟨hinv, h⟩
  | cons t turns ih =>
    rw [Pool.run, List.foldl_cons, ← Pool.run, log] at *
    have hturn := h.turn source t
    rcases turn_cases source p t with ⟨hmade, -, hdrift⟩ | ⟨i, a, next, hi, hmade, -, hshared⟩
    · simp only [hmade, Option.toList_none, List.nil_append] at *
      exact ih hturn step (drift _ _ _ hdrift hinv)
    · simp only [hmade, Option.toList_some, List.singleton_append] at *
      apply ih hturn (fun s state j b hb => step s state j b (.tail _ hb))
      rw [hshared]
      exact step _ _ _ _ (.head _) (h i _ hi).1 hinv

end Pool

end AddressLedger.Service
