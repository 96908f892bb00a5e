import AddressLedger.Proofs.Service.Underway

/-!
# Calls that share a lock

Among the calls under way some take the lock of one owner, do their work and give it back, and the
others leave this lock alone. At most one of the calls of the owner is at work at any time, and they
come to work in the order in which they take the lock.
-/
namespace AddressLedger.Service
open Catalog Feed Store

variable {φ α : Type} {source : PageSource φ} {owner : String} {own spares : Access → Prop}

inductive Stage
  | waiting
  | inside
  | left
  /-- The call has nothing to do with the lock. -/
  | apart
  deriving DecidableEq

/-- An access that neither takes a lock nor gives one back. -/
def KeepsLocks : Access → Prop
  | .lock _ | .unlock _ => False
  | _ => True

namespace Stage

def next : Stage → Made → Stage
  | waiting, ⟨.lock _, _⟩ => inside
  | inside, ⟨.unlock _, _⟩ => left
  | stage, _ => stage

/-- The accesses of a call at each stage: its own work inside, and what spares the owner apart. -/
def admits (owner : String) (own spares : Access → Prop) : Stage → Access → Prop
  | waiting, a => a = .lock owner
  | inside, a => a = .unlock owner ∨ KeepsLocks a ∧ own a
  | left, _ => False
  | apart, a => (∃ other ≠ owner, a = .lock other ∨ a = .unlock other) ∨ KeepsLocks a ∧ spares a

def IsOut : Stage → Prop
  | left | apart => True
  | _ => False

theorem admits_cases {stage : Stage} {a : Access} (h : stage.admits owner own spares a) :
    (stage = waiting ∧ a = .lock owner) ∨ (stage = inside ∧ a = .unlock owner) ∨
      (stage = inside ∧ KeepsLocks a ∧ own a) ∨
      (stage = apart ∧ apart.admits owner own spares a) := by
  cases stage with
  | waiting => exact .inl ⟨rfl, h⟩
  | inside =>
    rcases h with h | h
    · exact .inr (.inl ⟨rfl, h⟩)
    · exact .inr (.inr (.inl ⟨rfl, h⟩))
  | left => exact h.elim
  | apart => exact .inr (.inr (.inr ⟨rfl, h⟩))

theorem next_of_keepsLocks (stage : Stage) {a : Access} (h : KeepsLocks a) (answer : a.Answer) :
    stage.next ⟨a, answer⟩ = stage := by
  cases a with
  | lock address => exact h.elim
  | unlock address => exact h.elim
  | _ => cases stage <;> rfl

end Stage

def turnstile (owner : String) (own spares : Access → Prop) : Monitor Stage :=
  ⟨Stage.next, Stage.admits owner own spares⟩

theorem fetchPage_locked (source : PageSource φ) (s : Shared φ) (address : String)
    (cursor : Option Int64) : (s.fetchPage source address cursor).2.locked = s.locked := by
  rw [Shared.fetchPage]
  split
  · rfl
  · split <;> rfl

theorem perform_locked (source : PageSource φ) {a : Access} (h : KeepsLocks a) (s : Shared φ) :
    (s.perform source a).2.locked = s.locked := by
  cases a with
  | fetchPage address cursor => exact fetchPage_locked source s address cursor
  | lock address => exact h.elim
  | unlock address => exact h.elim
  | _ => rfl

/-- A call that has nothing to do with the lock leaves it as it is. -/
theorem count_locked_of_apart (source : PageSource φ) {a : Access}
    (h : Stage.apart.admits owner own spares a) (s : Shared φ) :
    (s.perform source a).2.locked.count owner = s.locked.count owner := by
  rcases h with ⟨other, hne, rfl | rfl⟩ | ⟨hk, -⟩
  · exact List.count_cons_of_ne hne
  · exact List.count_erase_of_ne hne.symm
  · rw [perform_locked source hk]

namespace Pool

variable {p : Pool φ α}

theorem Drift.locked_eq {s s' : Shared φ} (h : Drift s s') : s'.locked = s.locked := by
  cases h <;> rfl

end Pool

def Made.locks (owner : String) : Made → Bool
  | ⟨.lock address, _⟩ => address = owner
  | _ => false

def lockOrder (owner : String) (entries : List (Nat × Made)) : List Nat :=
  (entries.filter fun entry => entry.2.locks owner).map Prod.fst

theorem lockOrder_append (owner : String) (entries more : List (Nat × Made)) :
    lockOrder owner (entries ++ more) = lockOrder owner entries ++ lockOrder owner more := by
  simp [lockOrder]

theorem lockOrder_none (owner : String) :
    lockOrder owner (none : Option (Nat × Made)).toList = [] := rfl

theorem lockOrder_of_not_locks {e : Made} (h : e.locks owner = false) (i : Nat) :
    lockOrder owner [(i, e)] = [] := by
  simp [lockOrder, h]

theorem lockOrder_of_locks (owner : String) (i : Nat) :
    lockOrder owner [(i, ⟨.lock owner, ()⟩)] = [i] := by
  simp [lockOrder, Made.locks]

theorem not_locks_of_keepsLocks {a : Access} (h : KeepsLocks a) (answer : a.Answer) :
    Made.locks owner ⟨a, answer⟩ = false := by
  cases a with
  | lock address => exact h.elim
  | _ => rfl

theorem not_locks_of_apart {a : Access} (h : Stage.apart.admits owner own spares a)
    (answer : a.Answer) : Made.locks owner ⟨a, answer⟩ = false := by
  rcases h with ⟨other, hne, rfl | rfl⟩ | ⟨hk, -⟩
  · simpa [Made.locks] using hne
  · rfl
  · exact not_locks_of_keepsLocks hk answer

/-- The calls that have taken the lock, in their order, with where they began and where they are:
the last one may be inside, and all others have left. -/
structure Passage (owner : String) (stages : Nat → Stage) (p : Pool φ α) (state : Nat → Stage)
    (order : List Nat) : Prop where
  nodup : order.Nodup
  entered : ∀ i ∈ order, i < p.calls.length ∧ p.isStarted i = true ∧ stages i = .waiting
  outside : ∀ i ∉ order, state i = stages i ∧ (stages i = .waiting ∨ stages i = .apart)
  door : (p.shared.locked.count owner = 0 ∧ ∀ i ∈ order, state i = .left) ∨
    ∃ before i, order = before ++ [i] ∧ p.shared.locked.count owner = 1 ∧ state i = .inside ∧
      ∀ j ∈ before, state j = .left

namespace Passage

variable {p q : Pool φ α} {stages state : Nat → Stage} {order : List Nat} {i : Nat} {a : Access}

theorem start {stages : Nat → Stage} (hstages : ∀ i, stages i = .waiting ∨ stages i = .apart)
    (hfree : owner ∉ p.shared.locked) : Passage owner stages p stages [] where
  nodup := .nil
  entered := by simp
  outside i _ := ⟨rfl, hstages i⟩
  door := .inl ⟨List.count_eq_zero.2 hfree, by simp⟩

theorem stage_of_mem (h : Passage owner stages p state order) (hi : i ∈ order) :
    state i = .left ∨ state i = .inside := by
  rcases h.door with ⟨-, hleft⟩ | ⟨before, j, rfl, -, hinside, hleft⟩
  · exact .inl (hleft i hi)
  · rcases List.mem_append.1 hi with hbefore | hlast
    · exact .inl (hleft i hbefore)
    · rw [List.mem_singleton.1 hlast]
      exact .inr hinside

theorem notMem_of_waiting (h : Passage owner stages p state order) (hi : state i = .waiting) :
    i ∉ order := by
  intro hmem
  rcases h.stage_of_mem hmem with hstage | hstage <;> simp [hi] at hstage

theorem notMem_of_apart (h : Passage owner stages p state order) (hi : state i = .apart) :
    i ∉ order := by
  intro hmem
  rcases h.stage_of_mem hmem with hstage | hstage <;> simp [hi] at hstage

theorem last_of_inside (h : Passage owner stages p state order) (hi : state i = .inside) :
    ∃ before, order = before ++ [i] ∧ p.shared.locked.count owner = 1 ∧
      ∀ j ∈ before, state j = .left := by
  by_cases hmem : i ∈ order
  · rcases h.door with ⟨-, hleft⟩ | ⟨before, j, rfl, hcount, -, hleft⟩
    · simp [hleft i hmem] at hi
    · rcases List.mem_append.1 hmem with hbefore | hlast
      · simp [hleft i hbefore] at hi
      · obtain rfl := List.mem_singleton.1 hlast
        exact ⟨before, rfl, hcount, hleft⟩
  · obtain ⟨hsame, hfirst⟩ := h.outside i hmem
    rw [← hsame, hi] at hfirst
    simp at hfirst

/-- While the lock is free, every call that has taken it has given it back. -/
theorem left_of_free (h : Passage owner stages p state order) (hfree : owner ∉ p.shared.locked) :
    ∀ j ∈ order, state j = .left := by
  rcases h.door with ⟨-, hleft⟩ | ⟨before, j, -, hcount, -, -⟩
  · exact hleft
  · rw [List.count_eq_zero.2 hfree] at hcount
    cases hcount

theorem turn_of_same (h : Passage owner stages p state order) {t : Turn}
    (hcount : (p.turn source t).shared.locked.count owner = p.shared.locked.count owner) :
    Passage owner stages (p.turn source t) state order where
  nodup := h.nodup
  entered j hj := by
    obtain ⟨hlt, hstarted, hfirst⟩ := h.entered j hj
    rw [Pool.length_turn]
    exact ⟨hlt, Pool.isStarted_turn source t hstarted, hfirst⟩
  outside := h.outside
  door := by
    rw [hcount]
    exact h.door

theorem moved_eq_self {m : Monitor Stage} {e : Made} (h : m.next (state i) e = state i) :
    Pool.moved m state (i, e) = state := by
  funext j
  by_cases hj : j = i
  · rw [hj, Pool.moved_self, h]
  · exact Pool.moved_other hj state e

theorem turn_of_lock (h : Passage owner stages p state order) {t : Turn}
    (hi : state i = .waiting) (hlt : i < p.calls.length) (hstarted : p.isStarted i = true)
    (hfree : owner ∉ p.shared.locked)
    (hlocked : (p.turn source t).shared.locked = owner :: p.shared.locked) :
    Passage owner stages (p.turn source t)
      (Pool.moved (turnstile owner own spares) state (i, ⟨.lock owner, ()⟩)) (order ++ [i]) := by
  have hnot := h.notMem_of_waiting hi
  obtain ⟨hsame, -⟩ := h.outside i hnot
  constructor
  · rw [List.nodup_append]
    refine ⟨h.nodup, List.pairwise_singleton _ i, ?_⟩
    rintro j hj k hk rfl
    exact hnot (List.mem_singleton.1 hk ▸ hj)
  · intro j hj
    rw [Pool.length_turn]
    rcases List.mem_append.1 hj with hj | hj
    · obtain ⟨hlt, hstarted, hfirst⟩ := h.entered j hj
      exact ⟨hlt, Pool.isStarted_turn source t hstarted, hfirst⟩
    · rw [List.mem_singleton.1 hj]
      exact ⟨hlt, Pool.isStarted_turn source t hstarted, hsame ▸ hi⟩
  · intro j hj
    simp only [List.mem_append, List.mem_singleton, not_or] at hj
    rw [Pool.moved_other hj.2]
    exact h.outside j hj.1
  · refine .inr ⟨order, i, rfl, ?_, ?_, fun j hj => ?_⟩
    · rw [hlocked, List.count_cons_self, List.count_eq_zero.2 hfree]
    · rw [Pool.moved_self, hi]
      rfl
    · rw [Pool.moved_other (by rintro rfl; exact hnot hj)]
      exact h.left_of_free hfree j hj

theorem turn_of_unlock (h : Passage owner stages p state order) {t : Turn}
    (hi : state i = .inside)
    (hlocked : (p.turn source t).shared.locked = p.shared.locked.erase owner) :
    Passage owner stages (p.turn source t)
      (Pool.moved (turnstile owner own spares) state (i, ⟨.unlock owner, ()⟩)) order := by
  obtain ⟨before, rfl, hcount, hleft⟩ := h.last_of_inside hi
  have hmem : i ∈ before ++ [i] := by simp
  constructor
  · exact h.nodup
  · intro j hj
    obtain ⟨hlt, hstarted, hfirst⟩ := h.entered j hj
    rw [Pool.length_turn]
    exact ⟨hlt, Pool.isStarted_turn source t hstarted, hfirst⟩
  · intro j hj
    rw [Pool.moved_other (by rintro rfl; exact hj hmem)]
    exact h.outside j hj
  · refine .inl ⟨?_, fun j hj => ?_⟩
    · rw [hlocked, List.count_erase_self, hcount]
    · by_cases hji : j = i
      · rw [hji, Pool.moved_self, hi]
        rfl
      · rw [Pool.moved_other hji]
        rcases List.mem_append.1 hj with hj | hj
        · exact hleft j hj
        · exact absurd (List.mem_singleton.1 hj) hji

/-- When all calls have ended, every one that waited has taken the lock. -/
theorem mem_iff_of_done (h : Passage owner stages p state order)
    (hp : p.Follows (turnstile owner own spares) (fun _ stage => stage.IsOut) state)
    (hdone : ∀ i < p.calls.length, ∃ result, p.calls[i]? = some (.done result)) :
    i ∈ order ↔ i < p.calls.length ∧ stages i = .waiting := by
  constructor
  · intro hi
    obtain ⟨hlt, -, hfirst⟩ := h.entered i hi
    exact ⟨hlt, hfirst⟩
  · rintro ⟨hlt, hfirst⟩
    refine Decidable.byContradiction fun hnot => ?_
    obtain ⟨result, hresult⟩ := hdone i hlt
    have hout : Stage.IsOut (state i) := hp i _ hresult
    rw [(h.outside i hnot).1, hfirst] at hout
    exact hout

/-- After a turn the calls that have taken the lock are those from before, with the one that took it
in this turn, if any. -/
theorem turn {post : α → Stage → Prop} (h : Passage owner stages p state order)
    (hp : p.Follows (turnstile owner own spares) post state) (t : Turn) :
    Passage owner stages (p.turn source t)
      (Pool.states (turnstile owner own spares) state (p.made source t).toList)
      (order ++ lockOrder owner (p.made source t).toList) := by
  rcases Pool.turn_cases source p t with ⟨hmade, -, hdrift⟩ | ⟨i, a, next, hi, hmade, -, hshared⟩
  · rw [hmade, lockOrder_none, List.append_nil]
    exact h.turn_of_same (by rw [hdrift.locked_eq])
  · obtain ⟨hstarted, hadmitted⟩ := Pool.isStarted_of_made hmade
    have hadmits : (state i).admits owner own spares a := (hp i _ hi).1
    have hlt : i < p.calls.length := (List.getElem?_eq_some_iff.1 hi).1
    rw [hmade, Option.toList_some]
    have hsame (hnext : (state i).next ⟨a, (p.shared.perform source a).1⟩ = state i)
        (hlocks : Made.locks owner ⟨a, (p.shared.perform source a).1⟩ = false)
        (hcount : (p.shared.perform source a).2.locked.count owner =
          p.shared.locked.count owner) :
        Passage owner stages (p.turn source t) (Pool.states (turnstile owner own spares) state
          [(i, ⟨a, (p.shared.perform source a).1⟩)])
          (order ++ lockOrder owner [(i, ⟨a, (p.shared.perform source a).1⟩)]) := by
      rw [lockOrder_of_not_locks hlocks, List.append_nil]
      change Passage owner stages _ (Pool.moved (turnstile owner own spares) state _) order
      rw [moved_eq_self hnext]
      exact h.turn_of_same (by rw [hshared, hcount])
    rcases Stage.admits_cases hadmits with ⟨hstage, rfl⟩ | ⟨hstage, rfl⟩ | ⟨-, hk, -⟩ |
      ⟨hstage, hapart⟩
    · have hfree : owner ∉ p.shared.locked := by simpa [Shared.admits] using hadmitted
      have horder : lockOrder owner
          [(i, ⟨.lock owner, (p.shared.perform source (.lock owner)).1⟩)] = [i] :=
        lockOrder_of_locks owner i
      rw [horder]
      exact h.turn_of_lock hstage hlt hstarted hfree (by rw [hshared]; rfl)
    · rw [lockOrder_of_not_locks rfl, List.append_nil]
      exact h.turn_of_unlock hstage (by rw [hshared]; rfl)
    · exact hsame (Stage.next_of_keepsLocks _ hk _) (not_locks_of_keepsLocks hk _)
        (by rw [perform_locked source hk])
    · exact hsame (by rw [hstage]; rfl) (not_locks_of_apart hapart _)
        (count_locked_of_apart source hapart _)

theorem run {post : α → Stage → Prop} (source : PageSource φ)
    (h : Passage owner stages p state order)
    (hp : p.Follows (turnstile owner own spares) post state) (turns : List Turn) :
    Passage owner stages (p.run source turns)
        (Pool.states (turnstile owner own spares) state (p.log source turns))
        (order ++ lockOrder owner (p.log source turns)) ∧
      (p.run source turns).Follows (turnstile owner own spares) post
        (Pool.states (turnstile owner own spares) state (p.log source turns)) := by
  induction turns generalizing p state order with
  | nil =>
    rw [Pool.log, lockOrder, List.filter_nil, List.map_nil, List.append_nil]
    exact ⟨h, hp⟩
  | cons t turns ih =>
    rw [Pool.log, lockOrder_append, Pool.states_append, ← List.append_assoc]
    exact ih (h.turn hp t) (hp.turn source t)

end Passage

end AddressLedger.Service
