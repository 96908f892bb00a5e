import AddressLedger.Proofs.Service.Monitor

/-!
# Calls under way

Which calls of a pool may make an access, what becomes of those that have ended, and when all have.
Calls that have ended stay so, and more and more calls may be under way.
-/
namespace AddressLedger.Service.Pool
open Catalog Feed Store

variable {φ α : Type} {source : PageSource φ} {p : Pool φ α}

theorem turn_of_made_eq_none {i : Nat} (h : p.made source (.call i) = none) :
    p.turn source (.call i) = p := by
  simp only [made, turn, advance] at h ⊢
  cases hc : p.calls[i]? with
  | none => rfl
  | some call =>
    cases call with
    | done result => rfl
    | access a next =>
      rw [hc] at h
      by_cases hgo : (p.isStarted i && p.shared.admits a) = true
      · simp [hgo] at h
      · simp [hgo]

theorem made_of_admits (source : PageSource φ) {i : Nat} {a : Access}
    {next : a.Answer → Procedure α} (hi : p.calls[i]? = some (.access a next))
    (hstarted : p.isStarted i = true) (hadmits : p.shared.admits a = true) :
    p.made source (.call i) = some (i, ⟨a, (p.shared.perform source a).1⟩) ∧
      (p.turn source (.call i)).calls[i]? = some (next (p.shared.perform source a).1) := by
  have hlt := (List.getElem?_eq_some_iff.1 hi).1
  have hgo : (p.isStarted i && p.shared.admits a) = true := by simp [hstarted, hadmits]
  simp only [made, turn, advance, hi, hgo, if_true]
  exact ⟨trivial, List.getElem?_set_self hlt⟩

/-- Calls up to a number are finished exactly if the first unfinished one does not come before. -/
theorem le_settled_iff {n : Nat} :
    n ≤ p.settled ↔ ∀ i < n, ∃ result, p.calls[i]? = some (.done result) := by
  rw [settled]
  induction p.calls generalizing n with
  | nil =>
    cases n with
    | zero => simp
    | succ n =>
      refine ⟨fun h => absurd h (Nat.not_succ_le_zero n), fun h => ?_⟩
      obtain ⟨result, hresult⟩ := h 0 (Nat.succ_pos n)
      cases hresult
  | cons call calls ih =>
    cases n with
    | zero => simp
    | succ n =>
      cases call with
      | done result =>
        rw [List.takeWhile_cons_of_pos rfl, List.length_cons, Nat.succ_le_succ_iff, ih]
        constructor
        · intro h i hi
          cases i with
          | zero => exact ⟨result, rfl⟩
          | succ i => exact h i (Nat.lt_of_succ_lt_succ hi)
        · exact fun h i hi => h (i + 1) (Nat.succ_lt_succ hi)
      | access a next =>
        rw [List.takeWhile_cons_of_neg (by simp [Procedure.result?])]
        refine ⟨fun h => absurd h (Nat.not_succ_le_zero n), fun h => ?_⟩
        obtain ⟨result, hresult⟩ := h 0 (Nat.succ_pos n)
        cases hresult

theorem turn_of_done (source : PageSource φ) (t : Turn) {i : Nat} {result : α}
    (h : p.calls[i]? = some (.done result)) :
    (p.turn source t).calls[i]? = some (.done result) := by
  rcases turn_cases source p t with ⟨-, hcalls, -⟩ | ⟨j, a, next, hj, -, hcalls, -⟩
  · rwa [hcalls]
  · have hne : j ≠ i := by
      rintro rfl
      rw [hj] at h
      cases h
    rwa [hcalls, List.getElem?_set_ne hne]

theorem run_of_done (source : PageSource φ) (turns : List Turn) {i : Nat} {result : α}
    (h : p.calls[i]? = some (.done result)) :
    (p.run source turns).calls[i]? = some (.done result) := by
  induction turns generalizing p with
  | nil => exact h
  | cons t turns ih => exact ih (turn_of_done source t h)

theorem run_concat (source : PageSource φ) (p : Pool φ α) (turns : List Turn) (t : Turn) :
    p.run source (turns ++ [t]) = (p.run source turns).turn source t :=
  run_append source p turns [t]

theorem log_concat (source : PageSource φ) (p : Pool φ α) (turns : List Turn) (t : Turn) :
    p.log source (turns ++ [t]) =
      p.log source turns ++ ((p.run source turns).made source t).toList := by
  rw [log_append, log, log, List.append_nil]

theorem limit_turn (source : PageSource φ) (p : Pool φ α) (t : Turn) :
    (p.turn source t).limit = p.limit := by
  cases t with
  | call i =>
    rw [turn, advance]
    split
    · split <;> rfl
    · rfl
  | expire key => rfl
  | shutdown => rfl

theorem length_turn (source : PageSource φ) (p : Pool φ α) (t : Turn) :
    (p.turn source t).calls.length = p.calls.length := by
  rcases turn_cases source p t with ⟨-, hcalls, -⟩ | ⟨j, a, next, -, -, hcalls, -⟩
  · rw [hcalls]
  · rw [hcalls, List.length_set]

theorem length_run (source : PageSource φ) (p : Pool φ α) (turns : List Turn) :
    (p.run source turns).calls.length = p.calls.length := by
  induction turns generalizing p with
  | nil => rfl
  | cons t turns ih => exact (ih _).trans (length_turn source p t)

theorem settled_le_turn (source : PageSource φ) (p : Pool φ α) (t : Turn) :
    p.settled ≤ (p.turn source t).settled := by
  rw [le_settled_iff]
  intro i hi
  obtain ⟨result, hresult⟩ := le_settled_iff.1 (Nat.le_refl _) i hi
  exact ⟨result, turn_of_done source t hresult⟩

/-- A call that may be under way may be so from then on. -/
theorem isStarted_turn (source : PageSource φ) (t : Turn) {i : Nat} (h : p.isStarted i = true) :
    (p.turn source t).isStarted i = true := by
  have hsettled := settled_le_turn source p t
  simp only [isStarted, decide_eq_true_eq, limit_turn] at h ⊢
  omega

theorem settled_le_run (source : PageSource φ) (p : Pool φ α) (turns : List Turn) :
    p.settled ≤ (p.run source turns).settled := by
  induction turns generalizing p with
  | nil => exact Nat.le_refl _
  | cons t turns ih => exact Nat.le_trans (settled_le_turn source p t) (ih _)

theorem limit_run (source : PageSource φ) (p : Pool φ α) (turns : List Turn) :
    (p.run source turns).limit = p.limit := by
  induction turns generalizing p with
  | nil => rfl
  | cons t turns ih => exact (ih _).trans (limit_turn source p t)

theorem isStarted_run (source : PageSource φ) (turns : List Turn) {i : Nat}
    (h : p.isStarted i = true) : (p.run source turns).isStarted i = true := by
  induction turns generalizing p with
  | nil => exact h
  | cons t turns ih => exact ih (isStarted_turn source t h)

/-- A call that makes an access may be under way, and the access can be made. -/
theorem isStarted_of_made {t : Turn} {i : Nat} {e : Made} (h : p.made source t = some (i, e)) :
    p.isStarted i = true ∧ p.shared.admits e.access = true := by
  cases t with
  | call j =>
    simp only [made] at h
    split at h
    · split at h
      · rename_i hgo
        obtain ⟨rfl, rfl⟩ := Prod.mk.inj (Option.some.inj h)
        exact Bool.and_eq_true_iff.1 hgo
      · cases h
    · cases h
  | expire key => cases h
  | shutdown => cases h

theorem lt_of_mem_log {turns : List Turn} {i : Nat} {e : Made} (h : (i, e) ∈ p.log source turns) :
    i < p.calls.length := by
  induction turns generalizing p with
  | nil => cases h
  | cons t turns ih =>
    rw [log, List.mem_append] at h
    rcases h with h | h
    · rcases turn_cases source p t with ⟨hmade, -, -⟩ | ⟨j, a, next, hj, hmade, -, -⟩
      · rw [hmade] at h
        cases h
      · rw [hmade, Option.toList_some, List.mem_singleton, Prod.mk.injEq] at h
        rw [h.1]
        exact (List.getElem?_eq_some_iff.1 hj).1
    · rw [← length_turn source p t]
      exact ih h

def Makes (source : PageSource φ) (p : Pool φ α) (turns : List Turn) (i : Nat) (a : Access)
    (s : Shared φ) : Prop :=
  ∃ before t after, turns = before ++ t :: after ∧ (p.run source before).shared = s ∧
    (p.run source before).made source t = some (i, ⟨a, (s.perform source a).1⟩)

theorem exists_makes {turns : List Turn} {i : Nat} {a : Access} {answer : a.Answer}
    (h : (i, ⟨a, answer⟩) ∈ p.log source turns) :
    ∃ s, p.Makes source turns i a s ∧ (s.perform source a).1 = answer := by
  induction turns generalizing p with
  | nil => cases h
  | cons t turns ih =>
    rw [log, List.mem_append] at h
    rcases h with h | h
    · rcases turn_cases source p t with ⟨hmade, -, -⟩ | ⟨j, b, next, hj, hmade, -, -⟩
      · rw [hmade] at h
        cases h
      · rw [hmade, Option.toList_some, List.mem_singleton] at h
        cases h
        exact ⟨p.shared, ⟨[], t, turns, rfl, rfl, hmade⟩, rfl⟩
    · obtain ⟨s, ⟨before, u, after, hturns, hshared, hmade⟩, hanswer⟩ := ih h
      exact ⟨s, ⟨t :: before, u, after, by rw [hturns]; rfl, hshared, hmade⟩, hanswer⟩

theorem Makes.mem_log {turns : List Turn} {i : Nat} {a : Access} {s : Shared φ}
    (h : p.Makes source turns i a s) : (i, ⟨a, (s.perform source a).1⟩) ∈ p.log source turns := by
  obtain ⟨before, t, after, rfl, -, hmade⟩ := h
  rw [log_append, log, hmade]
  simp

theorem results?_eq_some_iff {results : List α} :
    p.results? = some results ↔ p.calls = results.map .done := by
  rw [results?]
  induction p.calls generalizing results with
  | nil => cases results <;> simp
  | cons call calls ih =>
    cases call with
    | access a next => cases results <;> simp [Procedure.result?]
    | done result =>
      cases results with
      | nil => simp [Procedure.result?, Option.bind_eq_some_iff]
      | cons r results =>
        rw [List.map_cons, List.cons.injEq, ← ih]
        simp only [List.mapM_cons, Procedure.result?, Option.bind_eq_bind, Option.bind_some,
          Option.bind_eq_some_iff, Option.pure_def, Option.some.injEq, List.cons.injEq,
          Procedure.done.injEq]
        constructor
        · rintro ⟨rest, hrest, rfl, rfl⟩
          exact ⟨rfl, hrest⟩
        · rintro ⟨rfl, hrest⟩
          exact ⟨results, hrest, rfl, rfl⟩

theorem result_of_results? {results : List α} (h : p.results? = some results) (i : Nat) :
    (p.calls[i]?).bind Procedure.result? = results[i]? := by
  rw [results?_eq_some_iff.1 h, List.getElem?_map]
  cases results[i]? <;> rfl

theorem done_of_results? {results : List α} (h : p.results? = some results) {i : Nat}
    (hi : i < p.calls.length) : ∃ result, p.calls[i]? = some (.done result) := by
  rw [results?_eq_some_iff.1 h, List.length_map] at hi
  rw [results?_eq_some_iff.1 h]
  exact ⟨results[i], by simp [hi]⟩

theorem exists_results_of_done (h : ∀ call ∈ p.calls, ∃ result, call = .done result) :
    ∃ results, p.results? = some results := by
  simp only [results?_eq_some_iff]
  revert h
  induction p.calls with
  | nil => exact fun _ => ⟨[], rfl⟩
  | cons call calls ih =>
    intro h
    obtain ⟨result, rfl⟩ := h call List.mem_cons_self
    obtain ⟨results, rfl⟩ := ih fun c hc => h c (List.mem_cons_of_mem _ hc)
    exact ⟨result :: results, rfl⟩

end AddressLedger.Service.Pool
