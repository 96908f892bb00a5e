import AddressLedger.Proofs.Sync.Requests
import AddressLedger.Proofs.Sync.Siblings

/-!
# A run among others as it goes alone

While a run holds the lock of its address, no other call adds rows of this address. So among other
runs, and whatever becomes of the feed, a run does what it does alone from the state in which it has
taken the lock, over a feed that gives it one after the other the answers that it was given.
-/
namespace AddressLedger.Service
open Feed

variable {φ α : Type} {source : PageSource φ}

abbrev Answers : Type := List (Except FeedError Page)

def listed : PageSource Answers :=
  ⟨fun _ _ answers => (.answered false (answers.head?.getD (.error .request)), answers.tail)⟩

def answersOf (made : List Made) : Answers :=
  (made.filterMap Made.pageCall?).map PageCall.answer

/-- A state without shutdown over a feed that gives the answers of a list. -/
def Shared.over (s : Shared φ) (answers : Answers) : Shared Answers :=
  ⟨s.store, s.cache, s.generation, s.locked, false, answers⟩

theorem answersOf_append (made more : List Made) :
    answersOf (made ++ more) = answersOf made ++ answersOf more := by
  simp [answersOf]

theorem answersOf_of_isLocal {a : Access} (ha : Shared.IsLocal a) (answer : a.Answer) :
    answersOf [⟨a, answer⟩] = [] := by
  cases a with
  | fetchPage address cursor => exact ha.elim
  | _ => rfl

theorem perform_over (source : PageSource φ) {a : Access} (ha : Shared.IsLocal a) (s : Shared φ)
    (answers : Answers) : (s.over answers).perform listed a =
      ((s.perform source a).1, (s.perform source a).2.over answers) := by
  cases a with
  | fetchPage address cursor => exact ha.elim
  | _ => rfl

theorem listed_isQuiet : Sync.IsQuiet listed := fun _ _ _ => ⟨_, rfl⟩

namespace Pool

/-- The turns in which a call holds a lock, from that in which it takes it, with its first access of
all, to that in which it gives it back. -/
structure Tenure (source : PageSource φ) (p : Pool φ α) (owner : String) (i : Nat)
    (before during : List Turn) : Prop where
  idle : ofCall i (p.log source before) = []
  takes : ∃ t rest, during = t :: rest ∧
    (p.run source before).made source t = some (i, ⟨.lock owner, ()⟩)
  returns : ∃ most u, during = most ++ [u] ∧
    (p.run source (before ++ most)).made source u = some (i, ⟨.unlock owner, ()⟩)

end Pool

end AddressLedger.Service

namespace AddressLedger.Sync
open Catalog Feed Service Store

variable {φ α : Type} {source : PageSource φ} {owner : String} {s s' s₀ : Shared φ}
  {t : Shared Answers} {a : Access} {first call : Procedure α} {made : List Made}

def Serves (owner : String) (a : Access) : Prop :=
  a = .lock owner ∨ a = .unlock owner ∨ OwnPages owner a

/-- How far a call has come: from the state in which it began it comes there alone too, over a feed
that gives the answers that it was given, and a state of the same rows of the owner. -/
structure GoesAlone (owner : String) (first : Procedure α) (s₀ : Shared φ) (made : List Made)
    (call : Procedure α) (t : Shared Answers) (s : Shared φ) : Prop where
  agrees : AgreesOn owner (t.over []) (s.over [])
  exec_eq : ∀ rest, (s₀.over (answersOf made ++ rest)).exec listed first =
    (t.over rest).exec listed call
  trace_eq : ∀ rest, first.trace (Shared.perform listed) (s₀.over (answersOf made ++ rest)) =
    made ++ call.trace (Shared.perform listed) (t.over rest)

theorem GoesAlone.start (owner : String) (first : Procedure α) (s₀ : Shared φ) :
    GoesAlone owner first s₀ [] first (s₀.over []) s₀ :=
  ⟨.refl owner _, fun _ => rfl, fun _ => rfl⟩

/-- An access of a call for its owner is answered alone as it is among others. -/
theorem AgreesOn.exists_perform (source : PageSource φ)
    (h : AgreesOn owner (t.over []) (s.over [])) (ha : Serves owner a) :
    ∃ t' : Shared Answers, AgreesOn owner (t'.over []) ((s.perform source a).2.over []) ∧
      ∀ rest, (t.over (answersOf [⟨a, (s.perform source a).1⟩] ++ rest)).perform listed a =
        ((s.perform source a).1, t'.over rest) := by
  by_cases hlocal : Shared.IsLocal a
  · have hperform : ((t.over []).perform listed a).1 = (s.perform source a).1 ∧
        AgreesOn owner ((t.over []).perform listed a).2 ((s.perform source a).2.over []) := by
      have hover := perform_over source hlocal s []
      rcases ha with rfl | rfl | ha
      · exact ⟨rfl, h.rows, h.isOpen, rfl⟩
      · exact ⟨rfl, h.rows, h.isOpen, rfl⟩
      · obtain ⟨hanswer, hagrees⟩ := h.own_of_isLocal ha hlocal
        rw [hover] at hanswer hagrees
        exact ⟨hanswer, hagrees⟩
    obtain ⟨hanswer, hagrees⟩ := hperform
    rw [perform_over listed hlocal] at hanswer hagrees
    refine ⟨(t.perform listed a).2, hagrees, fun rest => ?_⟩
    rw [answersOf_of_isLocal hlocal, List.nil_append, perform_over listed hlocal, ← hanswer]
  · cases a with
    | fetchPage address cursor =>
      refine ⟨t, ⟨?_, ?_, rfl⟩, fun rest => rfl⟩
      · rw [Shared.over, Shared.over, Shared.perform, fetchPage_store]
        exact h.rows
      · rw [Shared.over, Shared.over, Shared.perform, fetchPage_store]
        exact h.isOpen
    | _ => exact absurd trivial hlocal

theorem GoesAlone.access (source : PageSource φ) {next : a.Answer → Procedure α}
    (h : GoesAlone owner first s₀ made (.access a next) t s) (ha : Serves owner a) :
    ∃ t', GoesAlone owner first s₀ (made ++ [⟨a, (s.perform source a).1⟩])
      (next (s.perform source a).1) t' (s.perform source a).2 := by
  obtain ⟨t', hagrees, hperform⟩ := h.agrees.exists_perform source ha
  refine ⟨t', hagrees, fun rest => ?_, fun rest => ?_⟩
  · rw [answersOf_append, List.append_assoc, h.exec_eq, Shared.exec_access, hperform]
  · rw [answersOf_append, List.append_assoc, h.trace_eq, List.append_assoc, Procedure.trace,
      hperform, List.singleton_append]

theorem GoesAlone.spare (h : GoesAlone owner first s₀ made call t s)
    (hagrees : AgreesOn owner (s.over []) (s'.over [])) :
    GoesAlone owner first s₀ made call t s' :=
  ⟨⟨h.agrees.rows.trans hagrees.rows, h.agrees.isOpen.trans hagrees.isOpen, rfl⟩, h.exec_eq,
    h.trace_eq⟩

/-- A call that has nothing to do with the owner does not change the owner's rows. -/
theorem agreesOn_over_of_apart (source : PageSource φ) (s : Shared φ)
    (ha : Stage.apart.admits owner (OwnPages owner) (IsOfOther owner) a) :
    AgreesOn owner (s.over []) ((s.perform source a).2.over []) := by
  by_cases hlocal : Shared.IsLocal a
  · have hover := perform_over source hlocal s []
    rcases ha with ⟨other, -, rfl | rfl⟩ | ⟨-, ha⟩
    · exact ⟨rfl, rfl, rfl⟩
    · exact ⟨rfl, rfl, rfl⟩
    · have hagrees := (AgreesOn.refl owner (s.over [])).spare listed_isQuiet ha
      rwa [hover] at hagrees
  · cases a with
    | fetchPage address cursor =>
      refine ⟨?_, ?_, rfl⟩ <;> rw [Shared.over, Shared.over, Shared.perform, fetchPage_store]
    | _ => exact absurd trivial hlocal

theorem agreesOn_over_of_drift (h : Pool.Drift s s') : AgreesOn owner (s.over []) (s'.over []) := by
  cases h <;> exact ⟨rfl, rfl, rfl⟩

/-- A call that holds the lock from its first access to its last has done what it does alone. -/
structure HasGone (source : PageSource φ) (p : Pool φ α) (owner : String) (i : Nat)
    (first : Procedure α) (before during : List Turn) (result : α) : Prop where
  tenure : p.Tenure source owner i before during
  done : (p.run source (before ++ during)).calls[i]? = some (.done result)
  alone : ∃ t, GoesAlone owner first (p.run source before).shared
    (Pool.ofCall i ((p.run source before).log source during)) (.done result) t
    (p.run source (before ++ during)).shared

/-- Where a call that began by waiting for the lock stands after some turns, by its stage. -/
def StandsAs (source : PageSource φ) (p : Pool φ α) (owner : String) (i : Nat)
    (first : Procedure α) (turns : List Turn) : Stage → Prop
  | .waiting => Pool.ofCall i (p.log source turns) = [] ∧
    (p.run source turns).calls[i]? = some first
  | .inside => ∃ before u rest call t, turns = before ++ u :: rest ∧
    Pool.ofCall i (p.log source before) = [] ∧
    (p.run source before).made source u = some (i, ⟨.lock owner, ()⟩) ∧
    (p.run source turns).calls[i]? = some call ∧
    GoesAlone owner first (p.run source before).shared
      (Pool.ofCall i ((p.run source before).log source (u :: rest))) call t
      (p.run source turns).shared
  | .left => ∃ before during after result, turns = before ++ during ++ after ∧
    HasGone source p owner i first before during result
  | .apart => True

variable {p q : Pool φ α} {stages state : Nat → Stage} {order : List Nat} {i : Nat}
  {turns : List Turn} {u : Turn}

/-- While a call is inside, the turns of the others leave the rows of the owner as they are. -/
theorem agreesOn_over_of_other (hpassage : Passage owner stages q state order)
    (hq : q.Follows (turnstile owner (OwnPages owner) (IsOfOther owner))
      (fun _ stage => stage.IsOut) state)
    (hi : state i = .inside) {j : Nat} (hj : j ≠ i) {next : a.Answer → Procedure α}
    (hcall : q.calls[j]? = some (.access a next))
    (hmade : q.made source u = some (j, ⟨a, (q.shared.perform source a).1⟩)) :
    AgreesOn owner (q.shared.over []) ((q.shared.perform source a).2.over []) := by
  obtain ⟨before, horder, hcount, -⟩ := hpassage.last_of_inside hi
  rcases Stage.admits_cases (hq j _ hcall).1 with ⟨-, rfl⟩ | ⟨hstage, -⟩ | ⟨hstage, -⟩ |
    ⟨-, hapart⟩
  · -- The lock is taken, so that no other call can take it.
    have hfree : owner ∉ q.shared.locked := by
      simpa [Shared.admits] using (Pool.isStarted_of_made hmade).2
    rw [List.count_eq_zero.2 hfree] at hcount
    cases hcount
  · obtain ⟨before', horder', -⟩ := hpassage.last_of_inside hstage
    exact absurd (List.append_singleton_inj.1 (horder'.symm.trans horder)).2 hj
  · obtain ⟨before', horder', -⟩ := hpassage.last_of_inside hstage
    exact absurd (List.append_singleton_inj.1 (horder'.symm.trans horder)).2 hj
  · exact agreesOn_over_of_apart source q.shared hapart

theorem StandsAs.idle {first : Procedure α} {stage : Stage}
    (h : StandsAs source p owner i first turns stage)
    (hmade : Pool.ofCall i ((p.run source turns).made source u).toList = [])
    (hcall : ((p.run source turns).turn source u).calls[i]? = (p.run source turns).calls[i]?)
    (hagrees : stage = .inside → AgreesOn owner ((p.run source turns).shared.over [])
      (((p.run source turns).turn source u).shared.over [])) :
    StandsAs source p owner i first (turns ++ [u]) stage := by
  cases stage with
  | waiting =>
    obtain ⟨hlog, hfirst⟩ := h
    refine ⟨?_, ?_⟩
    · rw [Pool.log_concat, Pool.ofCall_append, hlog, hmade, List.append_nil]
    · rw [Pool.run_concat, hcall, hfirst]
  | inside =>
    obtain ⟨before, v, rest, call, t, rfl, hidle, htakes, hrest, halone⟩ := h
    refine ⟨before, v, rest ++ [u], call, t, by simp, hidle, htakes, ?_, ?_⟩
    · rw [Pool.run_concat, hcall, hrest]
    · rw [Pool.run_append] at hmade
      rw [← List.cons_append, Pool.log_concat, Pool.ofCall_append, hmade, List.append_nil,
        Pool.run_concat]
      exact halone.spare (hagrees rfl)
  | left =>
    obtain ⟨before, during, after, result, rfl, hgone⟩ := h
    exact ⟨before, during, after ++ [u], result, by simp, hgone⟩
  | apart => trivial

theorem StandsAs.take {first : Procedure α} (h : StandsAs source p owner i first turns .waiting)
    {next : Unit → Procedure α}
    (hcall : (p.run source turns).calls[i]? = some (.access (.lock owner) next))
    (hmade : (p.run source turns).made source u = some (i, ⟨.lock owner, ()⟩))
    (hnext : ((p.run source turns).turn source u).calls[i]? = some (next ()))
    (hshared : ((p.run source turns).turn source u).shared =
      ((p.run source turns).shared.perform source (.lock owner)).2) :
    StandsAs source p owner i first (turns ++ [u]) .inside := by
  obtain ⟨hidle, hfirst⟩ := h
  obtain rfl : Procedure.access (.lock owner) next = first :=
    Option.some.inj (hcall.symm.trans hfirst)
  obtain ⟨t, ht⟩ := (GoesAlone.start owner _ (p.run source turns).shared).access source
    (.inl rfl)
  refine ⟨turns, u, [], next (), t, rfl, hidle, hmade, ?_, ?_⟩
  · rw [Pool.run_concat, hnext]
  · rw [Pool.log, hmade, Option.toList_some, Pool.log, List.append_nil, Pool.ofCall_self,
      Pool.run_concat, hshared]
    exact ht

theorem StandsAs.serve {first : Procedure α} (h : StandsAs source p owner i first turns .inside)
    {next : a.Answer → Procedure α} (ha : Serves owner a)
    (hcall : (p.run source turns).calls[i]? = some (.access a next))
    (hmade : (p.run source turns).made source u =
      some (i, ⟨a, ((p.run source turns).shared.perform source a).1⟩))
    (hnext : ((p.run source turns).turn source u).calls[i]? =
      some (next ((p.run source turns).shared.perform source a).1))
    (hshared : ((p.run source turns).turn source u).shared =
      ((p.run source turns).shared.perform source a).2) :
    StandsAs source p owner i first (turns ++ [u]) .inside := by
  obtain ⟨before, v, rest, call, t, rfl, hidle, htakes, hrest, halone⟩ := h
  obtain rfl := Option.some.inj (hcall.symm.trans hrest)
  obtain ⟨t', ht'⟩ := halone.access source ha
  refine ⟨before, v, rest ++ [u], _, t', by simp, hidle, htakes,
    (congrArg (·.calls[i]?) (Pool.run_concat source p _ u)).trans hnext, ?_⟩
  have hlog : (p.run source before).run source (v :: rest) = p.run source (before ++ v :: rest) :=
    (Pool.run_append source p before (v :: rest)).symm
  rw [← List.cons_append, Pool.log_concat, hlog, hmade, Pool.ofCall_append, Option.toList_some,
    Pool.ofCall_self, Pool.run_concat, hshared]
  exact ht'

theorem StandsAs.leave {first : Procedure α} {result : α}
    (h : StandsAs source p owner i first (turns ++ [u]) .inside)
    (hmade : (p.run source turns).made source u = some (i, ⟨.unlock owner, ()⟩))
    (hdone : (p.run source (turns ++ [u])).calls[i]? = some (.done result)) :
    StandsAs source p owner i first (turns ++ [u]) .left := by
  obtain ⟨before, v, rest, call, t, hturns, hidle, htakes, hrest, halone⟩ := h
  obtain rfl := Option.some.inj (hdone.symm.trans hrest)
  have hsplit : turns = before ++ (v :: rest).dropLast ∧ u = (v :: rest).getLast (by simp) := by
    rw [← List.dropLast_append_getLast (List.cons_ne_nil v rest), ← List.append_assoc] at hturns
    obtain ⟨hinit, hlast⟩ := List.append_inj' hturns rfl
    exact ⟨hinit, List.singleton_inj.1 hlast⟩
  rw [hsplit.1] at hmade
  refine ⟨before, v :: rest, [], result, by simpa using hturns,
    ⟨hidle, ⟨v, rest, rfl, htakes⟩, ?_⟩, ?_, t, ?_⟩
  · exact ⟨_, u, by rw [hsplit.2, List.dropLast_append_getLast], hmade⟩
  · rwa [← hturns]
  · rwa [← hturns]

/-- A turn takes a call from where it stands to where its stage says. -/
theorem StandsAs.turn {first : Procedure α} (hpassage : Passage owner stages (p.run source turns)
      state order)
    (hp : (p.run source turns).Follows (turnstile owner (OwnPages owner) (IsOfOther owner))
      (fun _ stage => stage.IsOut) state)
    (h : StandsAs source p owner i first turns (state i)) (u : Turn) :
    StandsAs source p owner i first (turns ++ [u])
      (Pool.states (turnstile owner (OwnPages owner) (IsOfOther owner)) state
        ((p.run source turns).made source u).toList i) := by
  have hend := hp.turn source u
  rcases Pool.turn_cases source (p.run source turns) u with ⟨hmade, hcalls, hdrift⟩ |
    ⟨j, a, next, hj, hmade, hcalls, hshared⟩
  · rw [hmade]
    exact h.idle (by rw [hmade]; rfl) (by rw [hcalls]) fun _ => agreesOn_over_of_drift hdrift
  · rw [hmade, Option.toList_some] at hend ⊢
    change StandsAs _ _ _ _ _ _ (Pool.moved _ state _ i)
    by_cases hji : j = i
    · subst hji
      have hlt := (List.getElem?_eq_some_iff.1 hj).1
      have hnext : ((p.run source turns).turn source u).calls[j]? =
          some (next ((p.run source turns).shared.perform source a).1) := by
        rw [hcalls, List.getElem?_set_self hlt]
      have hout := hend j _ hnext
      change Procedure.Follows _ _ _ (Pool.moved _ state _ j) at hout
      rw [Pool.moved_self] at hout ⊢
      rcases Stage.admits_cases (hp j _ hj).1 with ⟨hstage, rfl⟩ | ⟨hstage, rfl⟩ |
        ⟨hstage, hk, hown⟩ | ⟨hstage, -⟩
      · rw [hstage] at h ⊢
        exact h.take hj hmade hnext hshared
      · rw [hstage] at h hout ⊢
        cases hlast : next ((p.run source turns).shared.perform source (.unlock owner)).1 with
        | access b more =>
          rw [hlast] at hout
          exact hout.1.elim
        | done result =>
          have hinside := h.serve (.inr (.inl rfl)) hj hmade hnext hshared
          have hdone : (p.run source (turns ++ [u])).calls[j]? = some (.done result) := by
            rw [Pool.run_concat, hnext, hlast]
          exact hinside.leave hmade hdone
      · rw [hstage] at h ⊢
        have hsame : (turnstile owner (OwnPages owner) (IsOfOther owner)).next .inside
            ⟨a, ((p.run source turns).shared.perform source a).1⟩ = .inside :=
          Stage.next_of_keepsLocks .inside hk _
        rw [hsame]
        exact h.serve (.inr (.inr hown)) hj hmade hnext hshared
      · rw [hstage]
        trivial
    · rw [Pool.moved_other (Ne.symm hji)]
      refine h.idle ?_ ?_ fun hinside => ?_
      · rw [hmade, Option.toList_some, Pool.ofCall_other hji]
      · rw [hcalls, List.getElem?_set_ne hji]
      · rw [hshared]
        exact agreesOn_over_of_other hpassage hp hinside hji hj hmade

theorem StandsAs.run {first : Procedure α} (hfirst : p.calls[i]? = some first)
    (hstages : ∀ j, stages j = .waiting ∨ stages j = .apart) (hi : stages i = .waiting)
    (hfree : owner ∉ p.shared.locked)
    (hp : p.Follows (turnstile owner (OwnPages owner) (IsOfOther owner))
      (fun _ stage => stage.IsOut) stages) (turns : List Turn) :
    StandsAs source p owner i first turns
      (Pool.states (turnstile owner (OwnPages owner) (IsOfOther owner)) stages
        (p.log source turns) i) := by
  induction turns using List.reverseRecOn with
  | nil =>
    rw [show Pool.states _ stages (p.log source []) i = .waiting from hi]
    exact ⟨rfl, hfirst⟩
  | append_singleton turns u ih =>
    obtain ⟨hpassage, hfollows⟩ := (Passage.start hstages hfree).run source hp turns
    rw [Pool.log_concat, Pool.states_append]
    exact ih.turn hpassage hfollows u

/-- A call that began by waiting for the lock and has ended has done what it does alone. -/
theorem exists_hasGone {first : Procedure α} (hfirst : p.calls[i]? = some first)
    (hstages : ∀ j, stages j = .waiting ∨ stages j = .apart) (hi : stages i = .waiting)
    (hfree : owner ∉ p.shared.locked)
    (hp : p.Follows (turnstile owner (OwnPages owner) (IsOfOther owner))
      (fun _ stage => stage.IsOut) stages) {result : α}
    (hdone : (p.run source turns).calls[i]? = some (.done result)) :
    ∃ before during after, turns = before ++ during ++ after ∧
      HasGone source p owner i first before during result := by
  have hstands : StandsAs source p owner i first turns _ :=
    .run hfirst hstages hi hfree hp turns
  obtain ⟨hpassage, hfollows⟩ := (Passage.start hstages hfree).run source hp turns
  have hout : Stage.IsOut _ := hfollows i _ hdone
  cases hstage : Pool.states (turnstile owner (OwnPages owner) (IsOfOther owner)) stages
      (p.log source turns) i with
  | waiting => exact (hstage ▸ hout).elim
  | inside => exact (hstage ▸ hout).elim
  | left =>
    rw [hstage] at hstands
    obtain ⟨before, during, after, result', hturns, hgone⟩ := hstands
    have hsame : (p.run source turns).calls[i]? = some (.done result') := by
      rw [hturns, Pool.run_append]
      exact Pool.run_of_done source after hgone.done
    obtain rfl : result = result' := by
      rw [hdone] at hsame
      injection hsame with hsame
      injection hsame
    exact ⟨before, during, after, hturns, hgone⟩
  | apart =>
    have hsame := (hpassage.outside i (hpassage.notMem_of_apart hstage)).1
    rw [hstage, hi] at hsame
    cases hsame

/-- Alone a call makes the accesses that it has made among others, gives the same result and leaves
the same rows of the owner. -/
theorem HasGone.exec_eq {first : Procedure α} {before during : List Turn} {result : α}
    (h : HasGone source p owner i first before during result) :
    let made := Pool.ofCall i ((p.run source before).log source during)
    let s := (p.run source before).shared.over (answersOf made)
    first.trace (Shared.perform listed) s = made ∧ (s.exec listed first).1 = result ∧
      rowsOf owner (s.exec listed first).2.store.events =
        rowsOf owner (p.run source (before ++ during)).shared.store.events := by
  obtain ⟨t, halone⟩ := h.alone
  have hexec := halone.exec_eq []
  have htrace := halone.trace_eq []
  rw [List.append_nil] at hexec htrace
  intro made s
  rw [hexec, htrace]
  exact ⟨List.append_nil _, rfl, halone.agrees.rows⟩

theorem agreesOn_over_run
    (hp : p.Follows (turnstile owner (OwnPages owner) (IsOfOther owner))
      (fun _ stage => stage.IsOut) fun _ => .apart) (turns : List Turn) :
    AgreesOn owner (p.shared.over []) ((p.run source turns).shared.over []) := by
  refine (hp.run source (fun s state => (∀ i, state i = .apart) ∧
    AgreesOn owner (p.shared.over []) (s.over [])) turns ?_ ?_ ⟨fun _ => rfl, .refl owner _⟩).1.2
  · rintro s state i a - hadmits ⟨hapart, hagrees⟩
    change (state i).admits _ _ _ a at hadmits
    rw [hapart i] at hadmits
    have hnext := agreesOn_over_of_apart source s hadmits
    refine ⟨fun j => ?_, hagrees.rows.trans hnext.rows, hagrees.isOpen.trans hnext.isOpen, rfl⟩
    rw [Pool.moved, hapart j]
    split <;> rfl
  · rintro s s' state hdrift ⟨hapart, hagrees⟩
    have hnext : AgreesOn owner (s.over []) (s'.over []) := agreesOn_over_of_drift hdrift
    exact ⟨hapart, hagrees.rows.trans hnext.rows, hagrees.isOpen.trans hnext.isOpen, rfl⟩

/-- A run that has ended among others has gone as it goes alone. -/
theorem exists_hasGone_of_run {runs : List (String × Mode)} {limit : Nat}
    (hfree : ∀ run ∈ runs, normalizeAddress run.1 ∉ s.locked) {r : SyncResult}
    (hdone : ((runsPool runs limit s).run source turns).calls[i]? = some (.done r)) :
    ∃ a mode, runs[i]? = some (a, mode) ∧ ∃ before during after,
      turns = before ++ during ++ after ∧ HasGone source (runsPool runs limit s)
        (normalizeAddress a) i (syncAddress a mode) before during r := by
  obtain ⟨hlt, -⟩ := List.getElem?_eq_some_iff.1 hdone
  rw [Pool.length_run, runsPool, List.length_map] at hlt
  have hrun := List.getElem?_eq_getElem hlt
  have hfirst : (runsPool runs limit s).calls[i]? =
      some (syncAddress runs[i].1 runs[i].2) := by
    rw [runsPool, List.getElem?_map, hrun]
    rfl
  exact ⟨runs[i].1, runs[i].2, hrun, exists_hasGone hfirst (runStages_cases runs _)
    (runStages_self hrun) (hfree _ (List.getElem_mem hlt)) (runsPool_follows_owner runs limit s _)
    hdone⟩

/-- The rows that runs add are of their addresses. -/
theorem rowsOf_run_of_other {runs : List (String × Mode)} {limit : Nat}
    (hother : ∀ run ∈ runs, normalizeAddress run.1 ≠ owner) (turns : List Turn) :
    rowsOf owner ((runsPool runs limit s).run source turns).shared.store.events =
      rowsOf owner s.store.events := by
  have hstages : runStages runs owner = fun _ => .apart := by
    funext i
    refine if_neg fun hrun => ?_
    obtain ⟨run, hrun, howner⟩ := Option.map_eq_some_iff.1 hrun
    exact hother run (List.mem_of_getElem? hrun) howner
  have hfollows := runsPool_follows_owner runs limit s owner
  rw [hstages] at hfollows
  exact (agreesOn_over_run hfollows turns).rows.symm

end AddressLedger.Sync
