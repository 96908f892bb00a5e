import AddressLedger.Proofs.Service.Serial

/-!
# No call waits for ever

A call that is inside can always go on until it has given its lock back, and then a call that waits
for this lock can take it. So from wherever turns have brought calls that each keep to the lock of
their own owner, further turns bring all of them to their ends.
-/
namespace AddressLedger.Service
open Catalog Feed Store

variable {φ α : Type} {source : PageSource φ} {owner : String} {own spares : Access → Prop}
  {p : Pool φ α} {stages state : Nat → Stage} {order : List Nat} {i : Nat}

/-- Whether calls pass one lock, in view of where they began and which have taken it. -/
structure Passes (owner : String) (own spares : Access → Prop) (stages : Nat → Stage)
    (p : Pool φ α) (state : Nat → Stage) (order : List Nat) : Prop where
  passage : Passage owner stages p state order
  follows : p.Follows (turnstile owner own spares) (fun _ stage => stage.IsOut) state

theorem Passes.start (hstages : ∀ i, stages i = .waiting ∨ stages i = .apart)
    (hfree : owner ∉ p.shared.locked)
    (hp : p.Follows (turnstile owner own spares) (fun _ stage => stage.IsOut) stages) :
    Passes owner own spares stages p stages [] :=
  ⟨.start hstages hfree, hp⟩

theorem Passes.turn (source : PageSource φ) (h : Passes owner own spares stages p state order)
    (t : Turn) :
    Passes owner own spares stages (p.turn source t)
      (Pool.states (turnstile owner own spares) state (p.made source t).toList)
      (order ++ lockOrder owner (p.made source t).toList) :=
  ⟨h.passage.turn h.follows t, h.follows.turn source t⟩

/-- Further turns without shutdown by which a call leaves and all others stay where they are. -/
def CanLeave (source : PageSource φ) (owner : String) (own spares : Access → Prop)
    (stages : Nat → Stage) (p : Pool φ α) (state : Nat → Stage) (order : List Nat) (i : Nat) :
    Prop :=
  ∃ turns : List Turn, .shutdown ∉ turns ∧ ∃ state', state' i = .left ∧
    (∀ j ≠ i, state' j = state j) ∧ Passes owner own spares stages (p.run source turns) state' order

/-- A call that is inside goes on until it has left. -/
theorem Passes.canLeave (source : PageSource φ) (h : Passes owner own spares stages p state order)
    (hi : state i = .inside) : CanLeave source owner own spares stages p state order i := by
  obtain ⟨before, horder, -, -⟩ := h.passage.last_of_inside hi
  have hmem : i ∈ order := by simp [horder]
  obtain ⟨call, hcall⟩ : ∃ call, p.calls[i]? = some call :=
    ⟨_, List.getElem?_eq_getElem (h.passage.entered i hmem).1⟩
  induction call generalizing p state with
  | done result =>
    have hout : Stage.IsOut (state i) := h.follows i _ hcall
    rw [hi] at hout
    exact hout.elim
  | access a next ih =>
    have hadmits : (state i).admits owner own spares a := (h.follows i _ hcall).1
    have hstarted := (h.passage.entered i hmem).2.1
    have hturn := h.turn source (.call i)
    rw [hi] at hadmits
    rcases hadmits with rfl | ⟨hk, -⟩
    · obtain ⟨hmade, -⟩ := Pool.made_of_admits source hcall hstarted rfl
      rw [hmade, Option.toList_some, lockOrder_of_not_locks rfl, List.append_nil] at hturn
      refine ⟨[.call i], by simp, _, ?_, fun j hj => Pool.moved_other hj _ _, hturn⟩
      rw [Pool.moved_self, hi]
      rfl
    · have hadmitted : p.shared.admits a = true := by
        cases a with
        | lock address => exact hk.elim
        | _ => rfl
      obtain ⟨hmade, hnext⟩ := Pool.made_of_admits source hcall hstarted hadmitted
      rw [hmade, Option.toList_some, lockOrder_of_not_locks (not_locks_of_keepsLocks hk _),
        List.append_nil] at hturn
      change Passes owner own spares stages _ (Pool.moved _ state (i, _)) order at hturn
      rw [Passage.moved_eq_self (Stage.next_of_keepsLocks _ hk _)] at hturn
      obtain ⟨turns, hturns, state', hleft, hothers, hpasses⟩ := ih _ hturn hi hnext
      exact ⟨.call i :: turns, by simp [hturns], state', hleft, hothers, hpasses⟩

def CanFinish (source : PageSource φ) (p : Pool φ α) (i : Nat) : Prop :=
  ∃ turns : List Turn, .shutdown ∉ turns ∧
    ∃ result, (p.run source turns).calls[i]? = some (.done result)

theorem CanFinish.of_run {turns : List Turn} (hturns : .shutdown ∉ turns)
    (h : CanFinish source (p.run source turns) i) : CanFinish source p i := by
  obtain ⟨more, hmore, hdone⟩ := h
  refine ⟨turns ++ more, by simp [hturns, hmore], ?_⟩
  rwa [Pool.run_append]

theorem Passes.canFinish_of_inside (source : PageSource φ)
    (h : Passes owner own spares stages p state order) (hi : state i = .inside) :
    CanFinish source p i := by
  obtain ⟨turns, hturns, state', hleft, -, hpasses⟩ := h.canLeave source hi
  obtain ⟨before, horder, -, -⟩ := h.passage.last_of_inside hi
  exact ⟨turns, hturns,
    done_of_left hpasses.follows (hpasses.passage.entered i (by simp [horder])).1 hleft⟩

/-- A call that waits for a free lock takes it and goes on. -/
theorem Passes.canFinish_of_free (source : PageSource φ)
    (h : Passes owner own spares stages p state order)
    (hi : state i = .waiting) (hlt : i < p.calls.length) (hstarted : p.isStarted i = true)
    (hfree : owner ∉ p.shared.locked) : CanFinish source p i := by
  have hcall := List.getElem?_eq_getElem hlt
  have hfollows := h.follows i _ hcall
  cases heq : p.calls[i] with
  | done result =>
    rw [heq, hi] at hfollows
    exact hfollows.elim
  | access a next =>
    rw [heq, hi] at hfollows
    rw [heq] at hcall
    obtain rfl : a = .lock owner := hfollows.1
    obtain ⟨hmade, -⟩ := Pool.made_of_admits source hcall hstarted
      (by simpa [Shared.admits] using hfree)
    have hturn := h.turn source (.call i)
    rw [hmade, Option.toList_some] at hturn
    have hinside : Pool.states (turnstile owner own spares) state
        [(i, ⟨.lock owner, (p.shared.perform source (.lock owner)).1⟩)] i = .inside := by
      change Pool.moved _ state (i, _) i = .inside
      rw [Pool.moved_self, hi]
      rfl
    have hturns : Turn.shutdown ∉ [.call i] := by simp
    exact .of_run hturns (hturn.canFinish_of_inside source hinside)

/-- A call that keeps to the lock of its owner can end. -/
theorem Passes.canFinish (source : PageSource φ)
    (h : Passes owner own spares stages p state order)
    (hi : stages i = .waiting) (hlt : i < p.calls.length) (hstarted : p.isStarted i = true) :
    CanFinish source p i := by
  cases hstage : state i with
  | waiting =>
    rcases h.passage.door with ⟨hcount, -⟩ | ⟨before, j, rfl, -, hinside, -⟩
    · exact h.canFinish_of_free source hstage hlt hstarted (List.count_eq_zero.1 hcount)
    · -- Another call is inside: it leaves first, and then the lock is free.
      obtain ⟨turns, hturns, state', hleft, hothers, hpasses⟩ := h.canLeave source hinside
      have hne : i ≠ j := by
        rintro rfl
        rw [hstage] at hinside
        cases hinside
      have hfree : owner ∉ (p.run source turns).shared.locked := by
        rcases hpasses.passage.door with ⟨hcount, -⟩ | ⟨before', k, horder, -, hk, -⟩
        · exact List.count_eq_zero.1 hcount
        · obtain ⟨-, rfl⟩ := List.append_singleton_inj.1 horder
          rw [hleft] at hk
          cases hk
      apply CanFinish.of_run hturns
      apply hpasses.canFinish_of_free source
      · rw [hothers i hne, hstage]
      · rwa [Pool.length_run]
      · exact Pool.isStarted_run source turns hstarted
      · exact hfree
  | inside => exact h.canFinish_of_inside source hstage
  | left => exact ⟨[], by simp, done_of_left h.follows hlt hstage⟩
  | apart =>
    have hsame := (h.passage.outside i (h.passage.notMem_of_apart hstage)).1
    rw [hi, hstage] at hsame
    cases hsame

def HasDoor (p : Pool φ α) (i : Nat) : Prop :=
  ∃ owner own spares stages state order, Passes owner own spares stages p state order ∧
    stages i = .waiting

theorem Passes.hasDoor (h : Passes owner own spares stages p state order)
    (hi : stages i = .waiting) : HasDoor p i :=
  ⟨owner, own, spares, stages, state, order, h, hi⟩

theorem HasDoor.run (source : PageSource φ) (h : HasDoor p i) (turns : List Turn) :
    HasDoor (p.run source turns) i := by
  induction turns generalizing p with
  | nil => exact h
  | cons t turns ih =>
    obtain ⟨owner, own, spares, stages, state, order, hpasses, hi⟩ := h
    exact ih ((hpasses.turn source t).hasDoor hi)

/-- If every call keeps to the lock of its owner, further turns bring all calls to their ends. -/
theorem exists_results (source : PageSource φ) (hlimit : 0 < p.limit)
    (h : ∀ i < p.calls.length, HasDoor p i) (turns : List Turn) :
    ∃ more : List Turn, .shutdown ∉ more ∧
      ∃ results, (p.run source (turns ++ more)).results? = some results := by
  have hsettled : ∀ n ≤ p.calls.length, ∃ more : List Turn, .shutdown ∉ more ∧
      n ≤ (p.run source (turns ++ more)).settled := by
    intro n
    induction n with
    | zero => exact fun _ => ⟨[], by simp, Nat.zero_le _⟩
    | succ n ih =>
      intro hn
      obtain ⟨more, hmore, hle⟩ := ih (Nat.le_of_succ_le hn)
      obtain ⟨owner, own, spares, stages, state, order, hpasses, hfirst⟩ :=
        (h n hn).run source (turns ++ more)
      have hstarted : (p.run source (turns ++ more)).isStarted n = true := by
        simp only [Pool.isStarted, decide_eq_true_eq, Pool.limit_run]
        omega
      obtain ⟨last, hlast, result, hresult⟩ := hpasses.canFinish source hfirst
        (by rwa [Pool.length_run]) hstarted
      refine ⟨more ++ last, by simp [hmore, hlast], ?_⟩
      rw [← List.append_assoc, Pool.run_append, Pool.le_settled_iff]
      intro i hi
      rcases Nat.lt_succ_iff_lt_or_eq.1 hi with hlt | rfl
      · have hmono := Pool.settled_le_run source (p.run source (turns ++ more)) last
        exact Pool.le_settled_iff.1 (Nat.le_trans hle hmono) i hlt
      · exact ⟨result, hresult⟩
  obtain ⟨more, hmore, hle⟩ := hsettled p.calls.length (Nat.le_refl _)
  refine ⟨more, hmore, Pool.exists_results_of_done fun call hcall => ?_⟩
  obtain ⟨i, hi, rfl⟩ := List.getElem_of_mem hcall
  obtain ⟨result, hresult⟩ := Pool.le_settled_iff.1 hle i (by rwa [Pool.length_run] at hi)
  rw [List.getElem?_eq_getElem hi, Option.some.injEq] at hresult
  exact ⟨result, hresult⟩

end AddressLedger.Service
