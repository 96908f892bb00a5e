import AddressLedger.Proofs.Service.Turnstile
import Mathlib.Data.List.Basic

/-!
# One after the other

Calls that share a lock do in turns what they do one after the other, in the order in which they
take the lock: the same is answered, and the shared states stay related. The relation is a parameter
and says what the calls of the owner can see; what else goes on must not disturb it.
-/
namespace AddressLedger.Service
open Catalog Feed Store

variable {φ α : Type} {source : PageSource φ} {owner : String} {own spares : Access → Prop}

/-- Calls one after the other, in a given order. -/
def serially (calls : List (Procedure α)) (order : List Nat) : Procedure (List α) :=
  (order.filterMap fun i => calls[i]?).mapM id

section Serially

variable {calls calls' : List (Procedure α)} {order more : List Nat} {s : Shared φ}

theorem serially_congr (h : ∀ i ∈ order, calls[i]? = calls'[i]?) :
    serially calls order = serially calls' order := by
  rw [serially, serially, List.filterMap_congr h]

theorem exec_serially_append (source : PageSource φ) (calls : List (Procedure α))
    (order more : List Nat) (s : Shared φ) :
    s.exec source (serially calls (order ++ more)) =
      let (results, s) := s.exec source (serially calls order)
      let (results', s) := s.exec source (serially calls more)
      (results ++ results', s) := by
  simp only [serially, List.filterMap_append, List.mapM_append, Shared.exec_bind]
  rfl

theorem exec_serially_singleton {i : Nat} {call : Procedure α} (h : calls[i]? = some call) :
    s.exec source (serially calls [i]) =
      ([(s.exec source call).1], (s.exec source call).2) := by
  simp only [serially, List.filterMap_cons, h, List.filterMap_nil, List.mapM_cons, List.mapM_nil,
    id_eq, Shared.exec_bind]
  rfl

theorem exec_serially_of_done (h : ∀ i ∈ order, ∃ result, calls[i]? = some (.done result)) :
    s.exec source (serially calls order) =
      (order.filterMap fun i => (calls[i]?).bind Procedure.result?, s) := by
  induction order with
  | nil => rfl
  | cons i order ih =>
    obtain ⟨result, hi⟩ := h i List.mem_cons_self
    have hrest := ih fun j hj => h j (List.mem_cons_of_mem i hj)
    rw [← List.singleton_append, exec_serially_append, exec_serially_singleton hi]
    simp only [Shared.exec_done, hrest]
    simp [hi, Procedure.result?]

/-- After finished calls the next one makes its access. -/
theorem exec_serially_advance {before : List Nat} {i : Nat} {a : Access}
    {next : a.Answer → Procedure α}
    (hdone : ∀ j ∈ before, ∃ result, calls[j]? = some (.done result))
    (hi : calls[i]? = some (.access a next)) :
    s.exec source (serially calls (before ++ [i])) =
      (s.perform source a).2.exec source
        (serially (calls.set i (next (s.perform source a).1)) (before ++ [i])) := by
  have hsame : ∀ j ∈ before, calls[j]? = (calls.set i (next (s.perform source a).1))[j]? := by
    intro j hj
    rw [List.getElem?_set_ne]
    rintro rfl
    obtain ⟨result, hresult⟩ := hdone i hj
    rw [hi] at hresult
    cases hresult
  have hset : (calls.set i (next (s.perform source a).1))[i]? =
      some (next (s.perform source a).1) :=
    List.getElem?_set_self (List.getElem?_eq_some_iff.1 hi).1
  rw [exec_serially_append, exec_serially_append, ← serially_congr hsame,
    exec_serially_of_done hdone, exec_serially_of_done hdone]
  simp only [exec_serially_singleton hi, exec_serially_singleton hset]
  rfl

end Serially

/-- A relation between two states that the accesses of an owner keep, with equal answers, and that
nothing else disturbs in the second state. Locks do not matter to it. -/
structure Mirror (source : PageSource φ) (own spares : Access → Prop)
    (related : Shared φ → Shared φ → Prop) : Prop where
  own : ∀ {t s a}, related t s → own a → (t.perform source a).1 = (s.perform source a).1 ∧
    related (t.perform source a).2 (s.perform source a).2
  spare : ∀ {t s a}, related t s → spares a → related t (s.perform source a).2
  expire : ∀ {t s}, related t s → ∀ key, related t (s.forget key)
  locks : ∀ {t s}, related t s → ∀ locked locked',
    related { t with locked := locked } { s with locked := locked' }

variable {related : Shared φ → Shared φ → Prop} {post : α → Stage → Prop} {p₀ p : Pool φ α}
  {stages state : Nat → Stage} {order : List Nat}

/-- An access of a call that has nothing to do with the owner. -/
theorem Mirror.apart (hmirror : Mirror source own spares related) {t s : Shared φ}
    (h : related t s) {a : Access} (ha : Stage.apart.admits owner own spares a) :
    related t (s.perform source a).2 := by
  rcases ha with ⟨other, -, rfl | rfl⟩ | ⟨-, hspares⟩
  · exact hmirror.locks h _ _
  · exact hmirror.locks h _ _
  · exact hmirror.spare h hspares

/-- A call of the owner that goes alone from related states. -/
theorem Mirror.exec (hmirror : Mirror source own spares related) {call : Procedure α}
    {stage : Stage} (hcall : call.Follows (turnstile owner own spares) post stage)
    (hstage : stage ≠ .apart) {t s : Shared φ} (h : related t s) :
    (t.exec source call).1 = (s.exec source call).1 ∧
      related (t.exec source call).2 (s.exec source call).2 := by
  induction call generalizing stage t s with
  | done result => exact ⟨rfl, h⟩
  | access a next ih =>
    rcases hcall with ⟨hadmits, hnext⟩
    have hrest (hrelated : related (t.perform source a).2 (s.perform source a).2)
        (hanswer : (t.perform source a).1 = (s.perform source a).1)
        (hmoved : stage.next ⟨a, (s.perform source a).1⟩ ≠ .apart) :
        (t.exec source (.access a next)).1 = (s.exec source (.access a next)).1 ∧
          related (t.exec source (.access a next)).2 (s.exec source (.access a next)).2 := by
      change (Shared.exec source (next (t.perform source a).1) (t.perform source a).2).1 =
          (Shared.exec source (next (s.perform source a).1) (s.perform source a).2).1 ∧
        related (Shared.exec source (next (t.perform source a).1) (t.perform source a).2).2
          (Shared.exec source (next (s.perform source a).1) (s.perform source a).2).2
      rw [hanswer]
      exact ih _ (hnext _) hmoved hrelated
    rcases Stage.admits_cases hadmits with ⟨rfl, rfl⟩ | ⟨rfl, rfl⟩ | ⟨-, hk, hown⟩ | ⟨hapart, -⟩
    · exact hrest (hmirror.locks h _ _) rfl (nomatch ·)
    · exact hrest (hmirror.locks h _ _) rfl (nomatch ·)
    · obtain ⟨hanswer, hrelated⟩ := hmirror.own h hown
      exact hrest hrelated hanswer (by rwa [Stage.next_of_keepsLocks _ hk])
    · exact absurd hapart hstage

theorem Mirror.exec_apart (hmirror : Mirror source own spares related) {call : Procedure α}
    (hcall : call.Follows (turnstile owner own spares) post .apart) {t s : Shared φ}
    (h : related t s) : related t (s.exec source call).2 := by
  induction call generalizing s with
  | done result => exact h
  | access a next ih =>
    rcases hcall with ⟨hadmits, hnext⟩
    exact ih _ (hnext _) (hmirror.apart h hadmits)

theorem Mirror.run_apart (hmirror : Mirror source own spares related)
    (hp : p.Follows (turnstile owner own spares) post fun _ => .apart) {t : Shared φ}
    (h : related t p.shared) {turns : List Turn} (hturns : .shutdown ∉ turns) :
    related t (p.run source turns).shared := by
  induction turns generalizing p with
  | nil => exact h
  | cons u turns ih =>
    rw [List.mem_cons, not_or] at hturns
    have hnext := hp.turn source u
    have hstages : Pool.states (turnstile owner own spares) (fun _ => .apart)
        (p.made source u).toList = fun _ => .apart := by
      funext i
      rw [Pool.states_apply]
      exact List.foldl_fixed' (fun e => rfl) _
    rw [hstages] at hnext
    apply ih hnext _ hturns.2
    cases u with
    | shutdown => exact absurd rfl hturns.1
    | expire key => exact hmirror.expire h key
    | call k =>
      rcases Pool.turn_cases source p (.call k) with ⟨hmade, -, -⟩ | ⟨i, a, next, hi, -, -, hshared⟩
      · rwa [Pool.turn_of_made_eq_none hmade]
      · rw [hshared]
        exact hmirror.apart h (hp i _ hi).1

/-- Where the calls of the owner have come to when they go one after the other: what is left of them
goes on from a related state. -/
structure Replay (source : PageSource φ) (related : Shared φ → Shared φ → Prop) (p₀ p : Pool φ α)
    (stages : Nat → Stage) (order : List Nat) (t : Shared φ) : Prop where
  related : related t p.shared
  exec_eq : p₀.shared.exec source (serially p₀.calls order) = t.exec source (serially p.calls order)
  untouched : ∀ i ∉ order, stages i = .waiting → p.calls[i]? = p₀.calls[i]?

theorem done_of_left {i : Nat} (hp : p.Follows (turnstile owner own spares) post state)
    (hi : i < p.calls.length) (hleft : state i = .left) :
    ∃ result, p.calls[i]? = some (.done result) := by
  have hcall := List.getElem?_eq_getElem hi
  have hfollows := hp i _ hcall
  rw [hleft] at hfollows
  cases heq : p.calls[i] with
  | done result => exact ⟨result, by rw [hcall, heq]⟩
  | access a next =>
    rw [heq] at hfollows
    exact hfollows.1.elim

namespace Replay

variable {t : Shared φ} {i : Nat} {a : Access} {next : a.Answer → Procedure α}

theorem of_spared (h : Replay source related p₀ p stages order t) {q : Pool φ α}
    (hi : stages i = .apart) (hnot : i ∉ order) {call : Procedure α}
    (hcalls : q.calls = p.calls.set i call) (hrelated : related t q.shared) :
    Replay source related p₀ q stages order t where
  related := hrelated
  exec_eq := by
    have hsame : ∀ j ∈ order, p.calls[j]? = q.calls[j]? := by
      intro j hj
      rw [hcalls, List.getElem?_set_ne]
      rintro rfl
      exact hnot hj
    rw [h.exec_eq, serially_congr hsame]
  untouched := by
    intro j hj hwaiting
    rw [hcalls, List.getElem?_set_ne, h.untouched j hj hwaiting]
    rintro rfl
    rw [hi] at hwaiting
    cases hwaiting

/-- The call that has taken the lock last makes an access, after the others have ended. -/
theorem of_access {before : List Nat} (h : Replay source related p₀ p stages (before ++ [i]) t)
    {q : Pool φ α} (hdone : ∀ j ∈ before, ∃ result, p.calls[j]? = some (.done result))
    (hi : p.calls[i]? = some (.access a next))
    (hanswer : (t.perform source a).1 = (p.shared.perform source a).1)
    (hcalls : q.calls = p.calls.set i (next (p.shared.perform source a).1))
    (hrelated : related (t.perform source a).2 q.shared) :
    Replay source related p₀ q stages (before ++ [i]) (t.perform source a).2 where
  related := hrelated
  exec_eq := by rw [h.exec_eq, exec_serially_advance hdone hi, hanswer, hcalls]
  untouched := by
    intro j hj hwaiting
    rw [hcalls, List.getElem?_set_ne, h.untouched j hj hwaiting]
    rintro rfl
    simp at hj

/-- A call whose turn has come is the next one to go. -/
theorem of_waiting (h : Replay source related p₀ p stages order t)
    (hnot : i ∉ order) (hi : stages i = .waiting) :
    Replay source related p₀ p stages (order ++ [i]) t where
  related := h.related
  exec_eq := by
    have hsame : serially p₀.calls [i] = serially p.calls [i] := by
      apply serially_congr
      intro j hj
      rw [List.mem_singleton.1 hj, h.untouched i hnot hi]
    rw [exec_serially_append, exec_serially_append, h.exec_eq, hsame]
  untouched j hj hwaiting := h.untouched j (fun hmem => hj (List.mem_append_left _ hmem)) hwaiting

theorem of_idle (h : Replay source related p₀ p stages order t) {q : Pool φ α}
    (hcalls : q.calls = p.calls) (hrelated : related t q.shared) :
    Replay source related p₀ q stages order t :=
  ⟨hrelated, by rw [hcalls, h.exec_eq], by rw [hcalls]; exact h.untouched⟩

/-- A turn of the pool is followed by the calls that go one after the other. -/
theorem turn (hmirror : Mirror source own spares related)
    (hp : p.Follows (turnstile owner own spares) post state)
    (hpassage : Passage owner stages p state order)
    (h : Replay source related p₀ p stages order t) {u : Turn} (hu : u ≠ .shutdown) :
    ∃ t', Replay source related p₀ (p.turn source u) stages
      (order ++ lockOrder owner (p.made source u).toList) t' := by
  have hdone {before : List Nat} (hsub : ∀ j ∈ before, j ∈ order)
      (hleft : ∀ j ∈ before, state j = .left) :
      ∀ j ∈ before, ∃ result, p.calls[j]? = some (.done result) := fun j hj =>
    done_of_left hp (hpassage.entered j (hsub j hj)).1 (hleft j hj)
  cases u with
  | shutdown => exact absurd rfl hu
  | expire key =>
    refine ⟨t, ?_⟩
    rw [show p.made source (.expire key) = none from rfl, lockOrder_none, List.append_nil]
    exact h.of_idle rfl (hmirror.expire h.related key)
  | call k =>
    rcases Pool.turn_cases source p (.call k) with ⟨hmade, hcalls, -⟩ |
      ⟨i, a, next, hi, hmade, hcalls, hshared⟩
    · rw [hmade, lockOrder_none, List.append_nil, Pool.turn_of_made_eq_none hmade]
      exact ⟨t, h⟩
    · have hadmits : (state i).admits owner own spares a := (hp i _ hi).1
      have hadmitted := (Pool.isStarted_of_made hmade).2
      rw [hmade, Option.toList_some]
      rcases Stage.admits_cases hadmits with ⟨hstage, rfl⟩ | ⟨hstage, rfl⟩ | ⟨hstage, hk, hown⟩ |
        ⟨hstage, hapart⟩
      · have hfree : owner ∉ p.shared.locked := by simpa [Shared.admits] using hadmitted
        have hnot := hpassage.notMem_of_waiting hstage
        have hfirst : stages i = .waiting := (hpassage.outside i hnot).1 ▸ hstage
        have hall := hdone (fun _ hj => hj) (hpassage.left_of_free hfree)
        have horder : lockOrder owner
            [(i, ⟨.lock owner, (p.shared.perform source (.lock owner)).1⟩)] = [i] :=
          lockOrder_of_locks owner i
        rw [horder]
        refine ⟨_, (h.of_waiting hnot hfirst).of_access hall hi rfl hcalls ?_⟩
        rw [hshared]
        exact hmirror.locks h.related _ _
      · obtain ⟨before, rfl, -, hleft⟩ := hpassage.last_of_inside hstage
        rw [lockOrder_of_not_locks rfl, List.append_nil]
        refine ⟨_, h.of_access (hdone (fun _ => List.mem_append_left _) hleft) hi rfl hcalls ?_⟩
        rw [hshared]
        exact hmirror.locks h.related _ _
      · obtain ⟨before, rfl, -, hleft⟩ := hpassage.last_of_inside hstage
        obtain ⟨hanswer, hrelated⟩ := hmirror.own h.related hown
        rw [lockOrder_of_not_locks (not_locks_of_keepsLocks hk _), List.append_nil]
        exact ⟨_, h.of_access (hdone (fun _ => List.mem_append_left _) hleft) hi hanswer hcalls
          (hshared ▸ hrelated)⟩
      · have hnot := hpassage.notMem_of_apart hstage
        have hfirst : stages i = .apart := (hpassage.outside i hnot).1 ▸ hstage
        rw [lockOrder_of_not_locks (not_locks_of_apart hapart _), List.append_nil]
        refine ⟨t, h.of_spared hfirst hnot hcalls ?_⟩
        rw [hshared]
        exact hmirror.apart h.related hapart

theorem run (hmirror : Mirror source own spares related)
    (hp : p.Follows (turnstile owner own spares) post state)
    (hpassage : Passage owner stages p state order)
    (h : Replay source related p₀ p stages order t) {turns : List Turn}
    (hturns : .shutdown ∉ turns) :
    ∃ t', Replay source related p₀ (p.run source turns) stages
      (order ++ lockOrder owner (p.log source turns)) t' := by
  induction turns generalizing p state order t with
  | nil =>
    rw [Pool.log, lockOrder, List.filter_nil, List.map_nil, List.append_nil]
    exact ⟨t, h⟩
  | cons u turns ih =>
    rw [List.mem_cons, not_or] at hturns
    obtain ⟨t', ht'⟩ := h.turn hmirror hp hpassage (Ne.symm hturns.1)
    rw [Pool.log, lockOrder_append, ← List.append_assoc]
    exact ih (hp.turn source u) (hpassage.turn hp u) ht' hturns.2

end Replay

/-- When all calls have ended, those of the owner have taken the lock once each, and have given the
results that they give one after the other in the order in which they took it. -/
theorem Mirror.serial (hmirror : Mirror source own spares related)
    (hp : p.Follows (turnstile owner own spares) (fun _ stage => stage.IsOut) stages)
    (hstages : ∀ i, stages i = .waiting ∨ stages i = .apart) (hrelated : related p.shared p.shared)
    (hfree : owner ∉ p.shared.locked) {turns : List Turn} (hturns : .shutdown ∉ turns)
    {results : List α} (hresults : (p.run source turns).results? = some results) :
    (lockOrder owner (p.log source turns)).Nodup ∧
    (∀ i, i ∈ lockOrder owner (p.log source turns) ↔ i < p.calls.length ∧ stages i = .waiting) ∧
    ∃ t, p.shared.exec source (serially p.calls (lockOrder owner (p.log source turns))) =
        ((lockOrder owner (p.log source turns)).filterMap fun i => results[i]?, t) ∧
      related t (p.run source turns).shared := by
  have hstart : Passage owner stages p stages [] := .start hstages hfree
  obtain ⟨hpassage, hend⟩ := hstart.run source hp turns
  have hreplay : Replay source related p p stages [] p.shared :=
    ⟨hrelated, rfl, fun _ _ _ => rfl⟩
  obtain ⟨t, ht⟩ := hreplay.run hmirror hp hstart hturns
  rw [List.nil_append] at hpassage ht
  have hmem : ∀ i, i ∈ lockOrder owner (p.log source turns) ↔
      i < p.calls.length ∧ stages i = .waiting := by
    intro i
    rw [← Pool.length_run source p turns]
    exact hpassage.mem_iff_of_done hend fun _ => Pool.done_of_results? hresults
  refine ⟨hpassage.nodup, hmem, t, ?_, ht.related⟩
  rw [ht.exec_eq, exec_serially_of_done fun i hi =>
    Pool.done_of_results? hresults (hpassage.entered i hi).1]
  simp only [Pool.result_of_results? hresults]

end AddressLedger.Service
