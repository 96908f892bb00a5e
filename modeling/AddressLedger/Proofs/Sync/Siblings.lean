import AddressLedger.Proofs.Sync.Overlap
import AddressLedger.Proofs.Sync.Separation
import AddressLedger.Proofs.Text.Trimmed
import AddressLedger.Sync.Concurrent

/-!
# Several addresses at once

A sync of several addresses runs each distinct one once. The runs share the event table and the
catalog, but none depends on the rows of another's address: whatever turns they take, each reports
what it reports alone, and the table gains what they add alone, taken together.
-/
namespace AddressLedger.Sync
open Catalog Feed Service Store

variable {φ : Type} {source : PageSource φ} {owner : String} {addresses : List String} {mode : Mode}
  {t s s' : Shared φ} {i : Nat}

theorem mem_distinctAddresses {a : String} :
    a ∈ distinctAddresses addresses ↔ a ≠ "" ∧ ∃ x ∈ addresses, normalizeAddress x = a := by
  simp [distinctAddresses, List.mem_eraseDups, and_comm]

theorem distinctAddresses_concat (addresses : List String) (x : String) :
    distinctAddresses (addresses ++ [x]) =
      if normalizeAddress x = "" ∨ normalizeAddress x ∈ distinctAddresses addresses then
        distinctAddresses addresses
      else distinctAddresses addresses ++ [normalizeAddress x] := by
  rw [distinctAddresses, distinctAddresses, List.map_append, List.filter_append,
    List.eraseDups_append]
  by_cases hempty : normalizeAddress x = ""
  · simp [hempty, List.removeAll]
  · by_cases hmem : normalizeAddress x ∈ (addresses.map normalizeAddress).filter (· ≠ "")
    · simp_all [List.removeAll, List.mem_eraseDups]
    · simp_all [List.removeAll, List.mem_eraseDups, List.eraseDups_cons]

/-- The distinct addresses stand in the order in which their normal forms appear first. -/
theorem distinctAddresses_pairwise (addresses : List String) :
    (distinctAddresses addresses).Pairwise fun a b =>
      (addresses.map normalizeAddress).idxOf a < (addresses.map normalizeAddress).idxOf b := by
  induction addresses using List.reverseRecOn with
  | nil => exact .nil
  | append_singleton addresses x ih =>
    have hmem : ∀ a ∈ distinctAddresses addresses, a ∈ addresses.map normalizeAddress := by
      intro a ha
      obtain ⟨-, y, hy, rfl⟩ := mem_distinctAddresses.1 ha
      exact List.mem_map_of_mem hy
    have hold : (distinctAddresses addresses).Pairwise fun a b =>
        ((addresses ++ [x]).map normalizeAddress).idxOf a <
          ((addresses ++ [x]).map normalizeAddress).idxOf b := by
      apply ih.imp_of_mem
      intro a b ha hb hlt
      rw [List.map_append, List.idxOf_append_of_mem (hmem a ha),
        List.idxOf_append_of_mem (hmem b hb)]
      exact hlt
    rw [distinctAddresses_concat]
    split
    · exact hold
    · rename_i hnew
      rw [not_or] at hnew
      rw [List.pairwise_append]
      refine ⟨hold, List.pairwise_singleton _ _, fun a ha b hb => ?_⟩
      obtain rfl := List.mem_singleton.1 hb
      have hnot : normalizeAddress x ∉ addresses.map normalizeAddress := fun h =>
        hnew.2 (mem_distinctAddresses.2 ⟨hnew.1, by simpa using h⟩)
      rw [List.map_append, List.idxOf_append_of_mem (hmem a ha), List.idxOf_append_of_notMem hnot]
      exact Nat.lt_add_right _ (List.idxOf_lt_length_of_mem (hmem a ha))

theorem nodup_distinctAddresses (addresses : List String) : (distinctAddresses addresses).Nodup :=
  (distinctAddresses_pairwise addresses).imp fun hlt heq => by
    rw [heq] at hlt
    exact Nat.lt_irrefl _ hlt

theorem normalizeAddress_of_mem {a : String} (h : a ∈ distinctAddresses addresses) :
    normalizeAddress a = a := by
  obtain ⟨-, x, -, rfl⟩ := mem_distinctAddresses.1 h
  exact normalizeAddress_idem x

/-- A run of another address does nothing that concerns an owner. -/
theorem syncAddress_follows_apart {address : String} (hne : normalizeAddress address ≠ owner)
    (mode : Mode) (own : Access → Prop) :
    (syncAddress address mode).Follows (turnstile owner own (IsOfOther owner))
      (fun _ stage => stage.IsOut) .apart := by
  have hlasts : Lasts (turnstile owner own (IsOfOther owner)) (normalizeAddress address)
      fun _ stage => stage = .apart := by
    apply Lasts.of_pagesFor
    rintro stage rfl a ha
    exact ⟨.inr ⟨keepsLocks_of_pagesFor ha, _, hne, lower_normalizeAddress address, ha⟩,
      fun _ => rfl⟩
  apply syncAddress_follows (x := .apart) hlasts (.inl ⟨_, hne, .inl rfl⟩) rfl
  rintro r stage rfl
  exact ⟨.inl ⟨_, hne, .inr rfl⟩, trivial⟩

def runStages (runs : List (String × Mode)) (owner : String) (i : Nat) : Stage :=
  if runs[i]?.map (fun run => normalizeAddress run.1) = some owner then .waiting else .apart

theorem runStages_cases (runs : List (String × Mode)) (owner : String) (i : Nat) :
    runStages runs owner i = .waiting ∨ runStages runs owner i = .apart := by
  rw [runStages]
  split
  · exact .inl rfl
  · exact .inr rfl

theorem runStages_self {runs : List (String × Mode)} {run : String × Mode}
    (h : runs[i]? = some run) : runStages runs (normalizeAddress run.1) i = .waiting := by
  rw [runStages, h]
  exact if_pos rfl

theorem runsPool_follows_owner (runs : List (String × Mode)) (limit : Nat) (s : Shared φ)
    (owner : String) : (runsPool runs limit s).Follows
      (turnstile owner (OwnPages owner) (IsOfOther owner)) (fun _ stage => stage.IsOut)
      (runStages runs owner) := by
  intro i call hcall
  rw [runsPool, List.getElem?_map] at hcall
  obtain ⟨run, hrun, rfl⟩ := Option.map_eq_some_iff.1 hcall
  rw [runStages, hrun, Option.map_some]
  by_cases howner : normalizeAddress run.1 = owner
  · subst howner
    rw [if_pos rfl]
    exact syncAddress_follows_turnstile run.1 run.2
      (fun _ ha => ⟨lower_normalizeAddress run.1, ha⟩) _
  · rw [if_neg (by simpa using howner)]
    exact syncAddress_follows_apart howner run.2 _

/-- From wherever turns have brought runs, further turns bring them to their ends. -/
theorem exists_results_runsPool (source : PageSource φ) {runs : List (String × Mode)} {limit : Nat}
    (hlimit : 0 < limit) (hfree : ∀ run ∈ runs, normalizeAddress run.1 ∉ s.locked)
    (turns : List Turn) : ∃ more : List Turn, .shutdown ∉ more ∧
      ∃ results, ((runsPool runs limit s).run source (turns ++ more)).results? = some results := by
  apply exists_results source hlimit
  intro i hi
  rw [runsPool, List.length_map] at hi
  have hpasses := Passes.start (runStages_cases runs _) (hfree _ (List.getElem_mem hi))
    (runsPool_follows_owner runs limit s _)
  exact hpasses.hasDoor (runStages_self (List.getElem?_eq_getElem hi))

def firstStages (addresses : List String) (owner : String) (i : Nat) : Stage :=
  if (distinctAddresses addresses)[i]? = some owner then .waiting else .apart

theorem syncPool_eq (limit : Nat) (addresses : List String) (mode : Mode) (s : Shared φ) :
    syncPool limit addresses mode s =
      runsPool ((distinctAddresses addresses).map fun a => (a, mode)) (max 1 limit) s := by
  rw [syncPool, runsPool, List.map_map]
  rfl

theorem firstStages_eq (addresses : List String) (mode : Mode) (owner : String) :
    firstStages addresses owner =
      runStages ((distinctAddresses addresses).map fun a => (a, mode)) owner := by
  funext i
  rw [firstStages, runStages, List.getElem?_map]
  cases ha : (distinctAddresses addresses)[i]? with
  | none => rfl
  | some a =>
    have hnormal := normalizeAddress_of_mem (List.mem_of_getElem? ha)
    rw [Option.map_some, Option.map_some, hnormal]

theorem syncPool_calls (limit : Nat) (addresses : List String) (mode : Mode) (s : Shared φ)
    (i : Nat) : (syncPool limit addresses mode s).calls[i]? =
      ((distinctAddresses addresses)[i]?).map fun a => syncAddress a mode :=
  List.getElem?_map

/-- The run of an address in normal form takes the lock of this address. -/
theorem syncAddress_follows_own {a : String} (hnormal : normalizeAddress a = a) (mode : Mode) :
    (syncAddress a mode).Follows (turnstile a (OwnPages a) (IsOfOther a))
      (fun _ stage => stage.IsOut) .waiting := by
  have hown : ∀ b, PagesFor (normalizeAddress a) b → OwnPages a b := by
    intro b hb
    rw [hnormal] at hb
    exact ⟨by rw [← hnormal, lower_normalizeAddress], hb⟩
  have hfollows := syncAddress_follows_turnstile a mode hown (IsOfOther a)
  rwa [hnormal] at hfollows

theorem syncPool_follows (limit : Nat) (addresses : List String) (mode : Mode) (s : Shared φ)
    (owner : String) : (syncPool limit addresses mode s).Follows
      (turnstile owner (OwnPages owner) (IsOfOther owner)) (fun _ stage => stage.IsOut)
      (firstStages addresses owner) := by
  rw [syncPool_eq, firstStages_eq addresses mode]
  exact runsPool_follows_owner _ _ s owner

theorem firstStages_cases (addresses : List String) (owner : String) (i : Nat) :
    firstStages addresses owner i = .waiting ∨ firstStages addresses owner i = .apart := by
  rw [firstStages_eq addresses .fillGaps]
  exact runStages_cases _ owner i

theorem firstStages_eq_waiting_iff {i j : Nat}
    (hi : (distinctAddresses addresses)[i]? = some owner) :
    firstStages addresses owner j = .waiting ↔ j = i := by
  rw [firstStages]
  split
  · rename_i hj
    simp only [true_iff]
    have hlt := (List.getElem?_eq_some_iff.1 hj).1
    exact (List.getElem?_inj hlt (nodup_distinctAddresses addresses)).1 (hj.trans hi.symm)
  · rename_i hj
    simp only [reduceCtorEq, false_iff]
    rintro rfl
    exact hj hi

/-- What a sync of several addresses gives if each address is treated as if alone: one result for
each distinct one, and the rows from before together with those that the runs add alone. -/
structure IsSeparate (source : PageSource φ) (addresses : List String) (mode : Mode) (s : Shared φ)
    (results : List SyncResult) (rows : Events) : Prop where
  named : results.map SyncResult.address = distinctAddresses addresses
  alone : results =
    (distinctAddresses addresses).map fun a => (s.exec source (syncAddress a mode)).1
  rows : ∀ row, row ∈ rows ↔ row ∈ s.store.events ∨
    ∃ a ∈ distinctAddresses addresses, row ∈ (s.exec source (syncAddress a mode)).2.store.events

/-- The run of another address adds no rows of an owner. -/
theorem mem_events_of_other (hfixed : source.IsFixed) (hquiet : IsQuiet source) {a : String}
    {row : Row} (hne : normalizeAddress a ≠ row.address)
    (hrow : row ∈ (s.exec source (syncAddress a mode)).2.store.events) : row ∈ s.store.events := by
  have hagrees := (agreesOn_mirror hfixed hquiet row.address).exec_apart
    (syncAddress_follows_apart hne mode _) (AgreesOn.refl row.address s)
  exact hagrees.mem_iff.2 hrow

/-- It is enough that the table agrees on each address with the run that is made for it alone, and
on all other owners with the table from before. -/
theorem isSeparate_of_agreesOn (hfixed : source.IsFixed) (hquiet : IsQuiet source)
    {results : List SyncResult} (hresults : results =
      (distinctAddresses addresses).map fun a => (s.exec source (syncAddress a mode)).1)
    (hown : ∀ a ∈ distinctAddresses addresses,
      AgreesOn a (s.exec source (syncAddress a mode)).2 s')
    (hother : ∀ a ∉ distinctAddresses addresses, AgreesOn a s s')
    (hgrows : s.store.events <+: s'.store.events) :
    IsSeparate source addresses mode s results s'.store.events where
  named := by
    rw [hresults, List.map_map]
    have haddress : ∀ a ∈ distinctAddresses addresses,
        (s.exec source (syncAddress a mode)).1.address = a := fun a ha => by
      rw [exec_syncAddress]
      exact normalizeAddress_of_mem ha
    exact (List.map_congr_left haddress).trans (List.map_id' _)
  alone := hresults
  rows := by
    intro row
    constructor
    · intro hrow
      by_cases ha : row.address ∈ distinctAddresses addresses
      · exact .inr ⟨_, ha, (hown _ ha).mem_iff.2 hrow⟩
      · exact .inl ((hother _ ha).mem_iff.2 hrow)
    · rintro (hrow | ⟨a, ha, hrow⟩)
      · exact hgrows.subset hrow
      · by_cases howner : a = row.address
        · subst howner
          exact (hown _ ha).mem_iff.1 hrow
        · rw [← normalizeAddress_of_mem ha] at howner
          exact hgrows.subset (mem_events_of_other hfixed hquiet howner hrow)

/-- Runs that have ended in turns agree on each address with the run made alone. -/
theorem syncPool_agreesOn (hfixed : source.IsFixed) (hquiet : IsQuiet source) (limit : Nat)
    {i : Nat} (hi : (distinctAddresses addresses)[i]? = some owner) (hfree : owner ∉ s.locked)
    {turns : List Turn} (hturns : .shutdown ∉ turns) {results : List SyncResult}
    (hresults : ((syncPool limit addresses mode s).run source turns).results? = some results) :
    results[i]? = some (s.exec source (syncAddress owner mode)).1 ∧
      AgreesOn owner (s.exec source (syncAddress owner mode)).2
        ((syncPool limit addresses mode s).run source turns).shared := by
  obtain ⟨hnodup, hmem, t, hexec, hagrees⟩ := (agreesOn_mirror hfixed hquiet owner).serial
    (syncPool_follows limit addresses mode s owner) (firstStages_cases addresses owner)
    (AgreesOn.refl owner s) hfree hturns hresults
  have hcall : (syncPool limit addresses mode s).calls[i]? = some (syncAddress owner mode) := by
    rw [syncPool_calls, hi]
    rfl
  have horder : lockOrder owner ((syncPool limit addresses mode s).log source turns) = [i] := by
    rw [← List.perm_singleton, List.perm_ext_iff_of_nodup hnodup (List.nodup_singleton i)]
    intro j
    rw [hmem, firstStages_eq_waiting_iff hi, List.mem_singleton]
    constructor
    · exact And.right
    · rintro rfl
      exact ⟨(List.getElem?_eq_some_iff.1 hcall).1, rfl⟩
  rw [horder, exec_serially_singleton hcall, Prod.mk.injEq] at hexec
  obtain ⟨hfirst, rfl⟩ := hexec
  refine ⟨?_, hagrees⟩
  cases hresult : results[i]? with
  | none => simp [hresult] at hfirst
  | some r =>
    simp only [List.filterMap_cons, hresult, List.filterMap_nil, List.cons.injEq] at hfirst
    rw [← hfirst.1]
    rfl

theorem syncPool_agreesOn_other (hfixed : source.IsFixed) (hquiet : IsQuiet source) (limit : Nat)
    (hother : owner ∉ distinctAddresses addresses) {turns : List Turn}
    (hturns : .shutdown ∉ turns) :
    AgreesOn owner s ((syncPool limit addresses mode s).run source turns).shared := by
  have hstages : firstStages addresses owner = fun _ => .apart := by
    funext i
    exact if_neg fun hi => hother (List.mem_of_getElem? hi)
  have hfollows := syncPool_follows limit addresses mode s owner
  rw [hstages] at hfollows
  exact (agreesOn_mirror hfixed hquiet owner).run_apart hfollows (AgreesOn.refl owner s) hturns

theorem syncPool_isSeparate (hfixed : source.IsFixed) (hquiet : IsQuiet source) (limit : Nat)
    (hfree : ∀ a ∈ distinctAddresses addresses, a ∉ s.locked) {turns : List Turn}
    (hturns : .shutdown ∉ turns) {results : List SyncResult}
    (hresults : ((syncPool limit addresses mode s).run source turns).results? = some results) :
    IsSeparate source addresses mode s results
      ((syncPool limit addresses mode s).run source turns).shared.store.events := by
  have hown : ∀ {i a}, (distinctAddresses addresses)[i]? = some a →
      results[i]? = some (s.exec source (syncAddress a mode)).1 ∧ AgreesOn a
        (s.exec source (syncAddress a mode)).2
        ((syncPool limit addresses mode s).run source turns).shared := fun hi =>
    syncPool_agreesOn hfixed hquiet limit hi (hfree _ (List.mem_of_getElem? hi)) hturns hresults
  have hlength : results.length = (distinctAddresses addresses).length := by
    have hcalls := congrArg List.length (Pool.results?_eq_some_iff.1 hresults)
    rw [Pool.length_run, List.length_map] at hcalls
    rw [← hcalls]
    exact List.length_map _
  apply isSeparate_of_agreesOn hfixed hquiet
  · apply List.ext_getElem?
    intro i
    rw [List.getElem?_map]
    cases hi : (distinctAddresses addresses)[i]? with
    | none =>
      rw [List.getElem?_eq_none_iff, ← hlength] at hi
      rw [List.getElem?_eq_none hi]
      rfl
    | some a => exact (hown hi).1
  · intro a ha
    obtain ⟨i, hi⟩ := List.mem_iff_getElem?.1 ha
    exact (hown hi).2
  · exact fun a ha => syncPool_agreesOn_other hfixed hquiet limit ha hturns
  · exact Pool.prefix_run source (syncPool limit addresses mode s) turns

/-- The runs can always be brought to their ends. -/
theorem exists_results_syncPool (limit : Nat)
    (hfree : ∀ a ∈ distinctAddresses addresses, a ∉ s.locked) (turns : List Turn) :
    ∃ more : List Turn, .shutdown ∉ more ∧ ∃ results,
      ((syncPool limit addresses mode s).run source (turns ++ more)).results? = some results := by
  rw [syncPool_eq]
  apply exists_results_runsPool source (Nat.lt_of_lt_of_le Nat.one_pos (Nat.le_max_left 1 limit))
  intro run hrun
  obtain ⟨a, ha, rfl⟩ := List.mem_map.1 hrun
  rw [normalizeAddress_of_mem ha]
  exact hfree a ha

theorem exec_syncEach_cons (a : String) (rest : List String) (s : Shared φ) :
    s.exec source (syncEach mode (a :: rest)) =
      let (r, s) := s.exec source (syncAddress a mode)
      let (results, s) := s.exec source (syncEach mode rest)
      (r :: results, s) := by
  rw [syncEach, Shared.exec_bind, Shared.exec_bind]
  rfl

theorem exec_syncEach_apart (hfixed : source.IsFixed) (hquiet : IsQuiet source) {rest : List String}
    (hne : ∀ a ∈ rest, normalizeAddress a ≠ owner) (h : AgreesOn owner t s) :
    AgreesOn owner t (s.exec source (syncEach mode rest)).2 := by
  induction rest generalizing s with
  | nil => exact h
  | cons a rest ih =>
    rw [exec_syncEach_cons]
    apply ih fun b hb => hne b (List.mem_cons_of_mem a hb)
    exact (agreesOn_mirror hfixed hquiet owner).exec_apart
      (syncAddress_follows_apart (hne a List.mem_cons_self) mode _) h

/-- Each of the runs that are made one after the other goes as it does from a state that agrees on
its address with the first one. -/
theorem exec_syncEach_agreesOn (mode : Mode) (hfixed : source.IsFixed) (hquiet : IsQuiet source)
    {rest : List String} (hnodup : rest.Nodup) (hnormal : ∀ a ∈ rest, normalizeAddress a = a)
    (h : ∀ a ∈ rest, AgreesOn a t s) :
    (s.exec source (syncEach mode rest)).1 =
        rest.map (fun a => (t.exec source (syncAddress a mode)).1) ∧
      ∀ a ∈ rest, AgreesOn a (t.exec source (syncAddress a mode)).2
        (s.exec source (syncEach mode rest)).2 := by
  induction rest generalizing s with
  | nil => exact ⟨rfl, by simp⟩
  | cons a rest ih =>
    rw [List.nodup_cons] at hnodup
    rw [List.forall_mem_cons] at hnormal h
    have hne : ∀ b ∈ rest, normalizeAddress b ≠ a := by
      intro b hb hba
      rw [hnormal.2 b hb] at hba
      exact hnodup.1 (hba ▸ hb)
    obtain ⟨hfirst, hown⟩ := (agreesOn_mirror hfixed hquiet a).exec
      (syncAddress_follows_own hnormal.1 mode) (nomatch ·) h.1
    have hrest : ∀ b ∈ rest, AgreesOn b t (s.exec source (syncAddress a mode)).2 := by
      intro b hb
      have hab : normalizeAddress a ≠ b := by
        rw [hnormal.1]
        rintro rfl
        exact hnodup.1 hb
      exact (agreesOn_mirror hfixed hquiet b).exec_apart
        (syncAddress_follows_apart hab mode _) (h.2 b hb)
    obtain ⟨hresults, hothers⟩ := ih hnodup.2 hnormal.2 hrest
    rw [exec_syncEach_cons, List.map_cons, List.forall_mem_cons, hfirst]
    exact ⟨congrArg _ hresults, exec_syncEach_apart hfixed hquiet hne hown, hothers⟩

theorem syncAll_isSeparate (hfixed : source.IsFixed) (hquiet : IsQuiet source)
    (addresses : List String) (mode : Mode) (s : Shared φ) :
    IsSeparate source addresses mode s (s.exec source (syncAll addresses mode)).1
      (s.exec source (syncAll addresses mode)).2.store.events := by
  obtain ⟨hresults, hown⟩ := exec_syncEach_agreesOn mode hfixed hquiet
    (nodup_distinctAddresses addresses) (fun _ => normalizeAddress_of_mem)
    fun a _ => AgreesOn.refl a s
  apply isSeparate_of_agreesOn hfixed hquiet hresults hown
  · intro owner hother
    apply exec_syncEach_apart hfixed hquiet _ (AgreesOn.refl owner s)
    intro a ha hne
    rw [normalizeAddress_of_mem ha] at hne
    exact hother (hne ▸ ha)
  · exact Shared.prefix_exec source _ s

/-- A sync of several addresses, over a fixed source that answers every request, syncs each distinct
one that is not empty once, in the order of first appearance. In whatever turns the runs go, they
can be brought to their ends, and when they have ended, each reports what it reports alone and the
table has gained what they add alone; the same holds if they go one after the other. -/
theorem siblings_are_independent (hfixed : source.IsFixed) (hquiet : IsQuiet source)
    (addresses : List String) (mode : Mode) (limit : Nat)
    (hfree : ∀ a ∈ distinctAddresses addresses, a ∉ s.locked) {turns : List Turn}
    (hturns : .shutdown ∉ turns) :
    let pool := syncPool limit addresses mode s
    (∀ a, a ∈ distinctAddresses addresses ↔ a ≠ "" ∧ ∃ x ∈ addresses, normalizeAddress x = a) ∧
    ((distinctAddresses addresses).Pairwise fun a b =>
      (addresses.map normalizeAddress).idxOf a < (addresses.map normalizeAddress).idxOf b) ∧
    (∃ more : List Turn, .shutdown ∉ more ∧
      ∃ results, (pool.run source (turns ++ more)).results? = some results) ∧
    (∀ results, (pool.run source turns).results? = some results →
      IsSeparate source addresses mode s results (pool.run source turns).shared.store.events) ∧
    IsSeparate source addresses mode s (s.exec source (syncAll addresses mode)).1
      (s.exec source (syncAll addresses mode)).2.store.events :=
  ⟨fun _ => mem_distinctAddresses, distinctAddresses_pairwise addresses,
    exists_results_syncPool limit hfree turns,
    fun _ hresults => syncPool_isSeparate hfixed hquiet limit hfree hturns hresults,
    syncAll_isSeparate hfixed hquiet addresses mode s⟩

/-- A feed that fails for one address and has two items of each other one. -/
def ailing : PageSource Unit :=
  ⟨fun address _ s => (.answered false (if address = "0xcd" then .error (.status 500 "") else
    .ok ⟨[bareItem "b", bareItem "a"], [], [], []⟩), s)⟩

def twoSiblings : List String := ["0xCD", "", " 0xab ", "0xcd "]

theorem distinctAddresses_twoSiblings : distinctAddresses twoSiblings = ["0xcd", "0xab"] := by
  decide +kernel

theorem reports_alternating :
    ((syncPool 2 twoSiblings .fillGaps (tableOf [bareEvent "a"])).run ailing
      alternating).results?.map (fun results => results.map fun r => (r.count, r.statusName)) =
      some [(0, "partial_error"), (1, "success")] := by
  simp only [syncPool, distinctAddresses_twoSiblings, List.map_cons, List.map_nil, syncAddress]
  rw [pageFrom, pageFrom]
  decide +kernel

/-- The run of one address fails, and that of the other one stores what it stores alone. -/
theorem siblings_alternating :
    ailing.IsFixed ∧ IsQuiet ailing ∧
    (∀ a ∈ distinctAddresses twoSiblings, a ∉ (tableOf [bareEvent "a"]).locked) ∧
    Turn.shutdown ∉ alternating ∧
    let pool := syncPool 2 twoSiblings .fillGaps (tableOf [bareEvent "a"])
    ∃ results, (pool.run ailing alternating).results? = some results ∧
      results.map (fun r => (r.count, r.statusName)) = [(0, "partial_error"), (1, "success")] ∧
      IsSeparate ailing twoSiblings .fillGaps (tableOf [bareEvent "a"]) results
        (pool.run ailing alternating).shared.store.events := by
  have hfixed : ailing.IsFixed := fun _ _ _ _ => rfl
  have hquiet : IsQuiet ailing := fun _ _ _ => ⟨_, rfl⟩
  have hfree : ∀ a ∈ distinctAddresses twoSiblings, a ∉ (tableOf [bareEvent "a"]).locked :=
    fun _ _ => List.not_mem_nil
  have hturns : Turn.shutdown ∉ alternating := by decide +kernel
  obtain ⟨results, hresults, hreports⟩ := Option.map_eq_some_iff.1 reports_alternating
  obtain ⟨-, -, -, hend, -⟩ := siblings_are_independent hfixed hquiet twoSiblings .fillGaps 2 hfree
    hturns
  exact ⟨hfixed, hquiet, hfree, hturns, results, hresults, hreports, hend results hresults⟩

end AddressLedger.Sync
