import AddressLedger.Proofs.Catalog.Coherence

/-!
# Cached records that are out of date

Over any interleaving of catalog calls that starts with nothing cached, whatever the cache loses by
itself, a cached record that is not the stored one is about to be dropped: by the call that stored
the record of its key, or by a lookup that cached it and has yet to look at the generation again.
Once no call is under way there is none.
-/
namespace AddressLedger.Catalog
open Feed Service Store

variable {φ : Type} {source : PageSource φ} {s : Shared φ} {key : Key}

/-- Whether a call has made an access of a kind, and dropped the key at no time after it. -/
def MadeSince (key : Key) (kind : Made → Prop) (made : List Made) : Prop :=
  ∃ before e after, made = before ++ e :: after ∧ kind e ∧ ∀ m ∈ after, m.access ≠ .forget key

def IsWriteOf (key : Key) : Made → Prop
  | ⟨.writeRecord record, .ok _⟩ => Key.ofRecord record = key
  | _ => False

def IsKeepOf (key : Key) : Made → Prop
  | ⟨.keep kept _, _⟩ => kept = key
  | _ => False

variable {kind : Made → Prop} {made : List Made} {e : Made}

theorem madeSince_last (h : kind e) : MadeSince key kind (made ++ [e]) :=
  ⟨made, e, [], rfl, h, fun _ hm => absurd hm List.not_mem_nil⟩

theorem MadeSince.append (h : MadeSince key kind made) (hne : e.access ≠ .forget key) :
    MadeSince key kind (made ++ [e]) := by
  obtain ⟨before, found, after, rfl, hfound, hafter⟩ := h
  refine ⟨before, found, after ++ [e], by rw [List.append_assoc]; rfl, hfound, fun m hm => ?_⟩
  rcases List.mem_append.mp hm with hm | hm
  · exact hafter m hm
  · rw [List.mem_singleton.mp hm]
    exact hne

theorem MadeSince.ne_nil (h : MadeSince key kind made) : made ≠ [] := by
  rcases h with ⟨before, found, after, rfl, -⟩
  simp

/-- What the phase of a call says of the accesses that it has made. -/
def Phase.Shows (key : Key) (made : List Made) : Phase → Prop
  | idle => True
  | written owed => owed = key → MadeSince key (IsWriteOf key) made
  | counted owed => owed = key → MadeSince key (IsWriteOf key) made
  | looking _ _ kept => key ∈ kept → MadeSince key (IsKeepOf key) made
  | dropping keys => key ∈ keys → MadeSince key (IsKeepOf key) made

theorem Phase.Shows.next {x : Phase} (h : x.Shows key made) (e : Made) :
    (x.next e).Shows key (made ++ [e]) := by
  rcases e with ⟨a, answer⟩
  cases x with
  | idle =>
    cases a with
    | writeRecord record =>
      cases answer with
      | ok u => exact fun howed => madeSince_last howed
      | error e => trivial
    | generation => exact fun hmem => absurd hmem List.not_mem_nil
    | _ => trivial
  | written owed =>
    cases a with
    | bumpGeneration => exact fun howed => (h howed).append (by simp)
    | _ => trivial
  | counted owed => cases a <;> trivial
  | looking begun loaded kept =>
    cases a with
    | readRecords kind ids =>
      cases answer with
      | ok records => exact fun hmem => (h hmem).append (by simp)
      | error e => trivial
    | keep added record =>
      intro hmem
      rcases List.mem_cons.mp hmem with hadded | hmem
      · exact madeSince_last hadded.symm
      · exact (h hmem).append (by simp)
    | generation =>
      simp only [Phase.next]
      split
      · trivial
      · exact fun hmem => (h hmem).append (by simp)
    | _ => trivial
  | dropping keys =>
    cases a with
    | forget forgotten =>
      intro hmem
      rcases List.mem_filter.mp hmem with ⟨hmem, hne⟩
      apply (h hmem).append
      intro heq
      simp [Access.forget.inj heq] at hne
    | _ => trivial

theorem Phase.Shows.foldl {x : Phase} (h : x.Shows key made) (entries : List Made) :
    (entries.foldl Phase.next x).Shows key (made ++ entries) := by
  induction entries generalizing x made with
  | nil => rwa [List.append_nil]
  | cons e entries ih =>
    rw [List.append_cons]
    exact ih (h.next e)

/-- A call that owes a key has stored its record or cached one, and has not dropped it since. -/
theorem madeSince_of_owes {x : Phase} {generation : Nat} (h : x.Owes generation key)
    (hshows : x.Shows key made) :
    MadeSince key (IsWriteOf key) made ∨ MadeSince key (IsKeepOf key) made := by
  cases x with
  | idle => exact h.elim
  | written owed => exact .inl (hshows h)
  | counted owed => exact .inl (hshows h)
  | looking begun loaded kept => exact .inr (hshows h.2)
  | dropping keys => exact .inr (hshows h)

def catalogPool (s : Shared φ) (limit : Nat) (calls : List CatalogCall) :
    Pool φ (Except StoreError CatalogAnswer) :=
  ⟨calls.map fun call => call.procedure.run, limit, { s with cache := [] }⟩

def phaseAfter (entries : List (Nat × Made)) : Nat → Phase :=
  Pool.states phases (fun _ => .idle) entries

theorem catalogPool_follows (s : Shared φ) (limit : Nat) (calls : List CatalogCall) :
    (catalogPool s limit calls).Follows phases (fun _ x => x.IsQuiet) fun _ => .idle := by
  intro i call hcall
  obtain ⟨catalogCall, -, rfl⟩ := List.mem_map.mp (List.mem_of_getElem? hcall)
  exact catalogCall.procedure_follows

/-- After any turns the catalog is coherent and every call is in its phase. -/
theorem coherent_run (source : PageSource φ) (s : Shared φ) (limit : Nat) (calls : List CatalogCall)
    (turns : List Turn) :
    Coherent ((catalogPool s limit calls).run source turns).shared
        (phaseAfter ((catalogPool s limit calls).log source turns)) ∧
      ((catalogPool s limit calls).run source turns).Follows phases (fun _ x => x.IsQuiet)
        (phaseAfter ((catalogPool s limit calls).log source turns)) := by
  refine (catalogPool_follows s limit calls).run source Coherent turns ?_ ?_ ?_
  · intro s state i a _ hadmits h
    exact h.step hadmits
  · intro s s' state hdrift h
    exact h.drift hdrift
  · exact ⟨fun _ => trivial, fun key r hr => by cases hr⟩

theorem phaseAfter_shows (entries : List (Nat × Made)) (i : Nat) :
    (phaseAfter entries i).Shows key (Pool.ofCall i entries) := by
  rw [phaseAfter, Pool.states_apply]
  have hstart : Phase.Shows key [] .idle := trivial
  exact hstart.foldl _

/-- Whether a call has made an access and is not finished. -/
def IsUnderWay {α : Type} (p : Pool φ α) (entries : List (Nat × Made)) (i : Nat) : Prop :=
  Pool.ofCall i entries ≠ [] ∧ ∀ result, p.calls[i]? ≠ some (.done result)

/-- Whether a call drops a key on its way to its end, however the turns go on. -/
def WillForget {α : Type} (source : PageSource φ) (p : Pool φ α) (i : Nat) (key : Key) : Prop :=
  ∀ turns result, (p.run source turns).calls[i]? = some (.done result) →
    ∃ e ∈ Pool.ofCall i (p.log source turns), e.access = .forget key

theorem not_done_of_owes {α : Type} {p : Pool φ α} {state : Nat → Phase}
    (h : p.Follows phases (fun _ x => x.IsQuiet) state) {i : Nat} {generation : Nat}
    (howes : (state i).Owes generation key) (result : α) : p.calls[i]? ≠ some (.done result) := by
  intro hdone
  have hquiet : (state i).IsQuiet := h i _ hdone
  exact hquiet.not_owes generation key howes

theorem willForget_of_owes {α : Type} {p : Pool φ α} {state : Nat → Phase}
    (h : p.Follows phases (fun _ x => x.IsQuiet) state) {i : Nat}
    (howes : (state i).Owes p.shared.generation key) : WillForget source p i key := by
  intro turns result hdone
  apply Classical.byContradiction
  intro hnone
  have hstep : ∀ (s : Shared φ) (state : Nat → Phase) (j : Nat) (a : Access),
      (j, ⟨a, (s.perform source a).1⟩) ∈ p.log source turns → (state j).admits a →
      (state i).Owes s.generation key →
      (movedBy source s state j a i).Owes (s.perform source a).2.generation key := by
    intro s state j a hmade hadmits howes
    by_cases hj : j = i
    · subst hj
      apply owes_movedBy howes hadmits
      intro hdrop
      exact hnone ⟨_, Pool.mem_ofCall.mpr hmade, hdrop⟩
    · rw [movedBy_other (Ne.symm hj)]
      exact howes.of_le (generation_le_perform source s a)
  have hdrift : ∀ (s s' : Shared φ) (state : Nat → Phase), Pool.Drift s s' →
      (state i).Owes s.generation key → (state i).Owes s'.generation key := by
    intro s s' state hdrift howes
    rwa [generation_drift hdrift]
  have hlater := h.run source
    (fun (s : Shared φ) (state : Nat → Phase) => (state i).Owes s.generation key) turns hstep hdrift
    howes
  exact not_done_of_owes hlater.2 hlater.1 result hdone

/-- A cached record that is not the stored one will be dropped by some call under way, which has
stored the record of its key or cached one, and has not dropped it since. -/
theorem cached_is_stored_or_owed (source : PageSource φ) (s : Shared φ) (limit : Nat)
    (calls : List CatalogCall) (turns : List Turn) :
    let start := catalogPool s limit calls
    let now := start.run source turns
    let made := start.log source turns
    (∀ key r, now.shared.cached? key = some r → now.shared.store.record? key ≠ some r →
      ∃ i, IsUnderWay now made i ∧ WillForget source now i key ∧
        (MadeSince key (IsWriteOf key) (Pool.ofCall i made) ∨
          MadeSince key (IsKeepOf key) (Pool.ofCall i made))) ∧
    ((∀ i, ¬ IsUnderWay now made i) → ∀ key r, now.shared.cached? key = some r →
      now.shared.store.record? key = some r) := by
  intro start now made
  have hrun := coherent_run source s limit calls turns
  have howed : ∀ key r, now.shared.cached? key = some r → now.shared.store.record? key ≠ some r →
      ∃ i, IsUnderWay now made i ∧ WillForget source now i key ∧
        (MadeSince key (IsWriteOf key) (Pool.ofCall i made) ∨
          MadeSince key (IsKeepOf key) (Pool.ofCall i made)) := by
    intro key r hcached hstale
    rcases (hrun.1.cached key r hcached).resolve_left hstale with ⟨i, howes⟩
    have hsince := madeSince_of_owes howes (phaseAfter_shows made i)
    have hbegun : Pool.ofCall i made ≠ [] := hsince.elim MadeSince.ne_nil MadeSince.ne_nil
    exact ⟨i, ⟨hbegun, not_done_of_owes hrun.2 howes⟩, willForget_of_owes hrun.2 howes, hsince⟩
  refine ⟨howed, fun hquiet key r hcached => ?_⟩
  apply Classical.byContradiction
  intro hstale
  rcases howed key r hcached hstale with ⟨i, hunderWay, -⟩
  exact hquiet i hunderWay

def projectKey : Key := ⟨.project, "p"⟩

def projectNamed (name : String) : Record := .project ⟨"p", none, some name, none, none⟩

def oldStore : Store := Store.empty.putRecord (projectNamed "old")

/-- A lookup of the project and a write that renames it. -/
def lateLookup : Pool Unit (Except StoreError CatalogAnswer) :=
  catalogPool ⟨oldStore, [], 0, [], false, ()⟩ 2
    [.resolve .project ["p"], .upsert (projectNamed "new")]

def afterGeneration (pieces : List (List String)) : StoreProcedure CatalogAnswer := do
  let found ← (do
    let found ← (do
      let loaded ← readAll .project pieces
      return .inr ⟨[], loaded, 0⟩ : StoreProcedure (Resolved ⊕ Pending))
    match found with
    | .inl hits => return Keyed.ofList hits
    | .inr pending => .lift (settle .project pending) : StoreProcedure Resolved)
  return .found found

/-- The lookup reads the old record before the write and caches it after the write has ended. -/
def lateTurns : List Turn := [.call 0, .call 1, .call 1, .call 1, .call 0]

theorem lateLookup_begun : lateLookup.run noPages [.call 0, .call 0] =
    ⟨[(afterGeneration [["p"]]).run, (CatalogCall.upsert (projectNamed "new")).procedure.run], 2,
      ⟨oldStore, [], 0, [], false, ()⟩⟩ := by
  rw [← chunked_of_short (List.cons_ne_nil "p" []) (by decide)]
  rfl

theorem lateLookup_run :
    (lateLookup.run noPages ([.call 0, .call 0] ++ lateTurns)).shared.cached? projectKey =
      some (projectNamed "old") ∧
    (lateLookup.run noPages ([.call 0, .call 0] ++ lateTurns)).shared.store.record? projectKey =
      some (projectNamed "new") := by
  rw [Pool.run_append, lateLookup_begun]
  exact ⟨rfl, rfl⟩

theorem lateLookup_owed :
    let now := lateLookup.run noPages ([.call 0, .call 0] ++ lateTurns)
    let made := lateLookup.log noPages ([.call 0, .call 0] ++ lateTurns)
    now.shared.cached? projectKey = some (projectNamed "old") ∧
      now.shared.store.record? projectKey ≠ some (projectNamed "old") ∧
      ∃ i, IsUnderWay now made i ∧ WillForget noPages now i projectKey ∧
        (MadeSince projectKey (IsWriteOf projectKey) (Pool.ofCall i made) ∨
          MadeSince projectKey (IsKeepOf projectKey) (Pool.ofCall i made)) := by
  intro now made
  rcases lateLookup_run with ⟨hcached, hstored⟩
  have hstale : now.shared.store.record? projectKey ≠ some (projectNamed "old") := by
    rw [hstored]
    simp [projectNamed]
  exact ⟨hcached, hstale, (cached_is_stored_or_owed noPages _ 2 _ _).1 _ _ hcached hstale⟩

end AddressLedger.Catalog
