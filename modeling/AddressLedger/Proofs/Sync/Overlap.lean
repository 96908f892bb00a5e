import AddressLedger.Proofs.Service.Agreement
import AddressLedger.Proofs.Service.Completion
import AddressLedger.Proofs.Sync.Counting
import AddressLedger.Proofs.Sync.Modes

/-!
# Runs of one address at the same time

All spellings of an address have one lock, which a run holds from before its first request to after
its last access. So runs of one address that go on together store and report what they do one after
the other, in the order in which they take the lock.
-/
namespace AddressLedger.Sync
open Catalog Feed Service Store

variable {φ : Type} {source : PageSource φ}

theorem keepsLocks_of_pagesFor {owner : String} {a : Access} (h : PagesFor owner a) :
    KeepsLocks a := by
  cases a with
  | lock address => exact h.elim
  | unlock address => exact h.elim
  | _ => trivial

/-- A run takes the lock of its address once, pages, and gives the lock back. -/
theorem syncAddress_follows_turnstile (address : String) (mode : Mode) {own : Access → Prop}
    (hown : ∀ a, PagesFor (normalizeAddress address) a → own a) (spares : Access → Prop) :
    (syncAddress address mode).Follows (turnstile (normalizeAddress address) own spares)
      (fun _ stage => stage.IsOut) .waiting := by
  have hlasts : Lasts (turnstile (normalizeAddress address) own spares) (normalizeAddress address)
      fun _ stage => stage = .inside := by
    apply Lasts.of_pagesFor
    rintro stage rfl a ha
    have hkeeps := keepsLocks_of_pagesFor ha
    exact ⟨.inr ⟨hkeeps, hown a ha⟩, Stage.next_of_keepsLocks _ hkeeps⟩
  apply syncAddress_follows (x := .waiting) hlasts rfl rfl
  rintro r stage rfl
  exact ⟨.inl rfl, trivial⟩

/-- What pages for an owner come to is answered alike over states with the same events. -/
theorem agrees_mirror (hfixed : source.IsFixed) (owner : String) :
    Mirror source (PagesFor owner) (fun _ => False) Shared.Agrees where
  own h ha := h.perform hfixed (ignoresCatalog_of_pagesFor ha)
  spare _ hspares := hspares.elim
  expire h _ := ⟨h.events, h.isOpen, h.stopped⟩
  locks h _ _ := ⟨h.events, h.isOpen, h.stopped⟩

theorem serially_map {α β : Type} (f : β → Procedure α) (xs : List β) (order : List Nat) :
    serially (xs.map f) order = (order.filterMap fun i => xs[i]?).mapM f := by
  have hmap : order.filterMap (fun i => (xs.map f)[i]?) =
      (order.filterMap fun i => xs[i]?).map f := by
    simp only [List.map_filterMap, List.getElem?_map]
  rw [serially, hmap, List.mapM_map]
  rfl

theorem runsPool_follows_turnstile {address : String} {runs : List (String × Mode)}
    (hruns : ∀ run ∈ runs, normalizeAddress run.1 = address) (limit : Nat) (s : Shared φ) :
    (runsPool runs limit s).Follows (turnstile address (PagesFor address) fun _ => False)
      (fun _ stage => stage.IsOut) fun _ => .waiting := by
  intro i call hcall
  rw [show (runsPool runs limit s).calls = runs.map fun run => syncAddress run.1 run.2 from rfl,
    List.getElem?_map] at hcall
  obtain ⟨run, hrun, rfl⟩ := Option.map_eq_some_iff.1 hcall
  have haddress := hruns run (List.mem_of_getElem? hrun)
  rw [← haddress]
  exact syncAddress_follows_turnstile run.1 run.2 (fun _ ha => ha) _

/-- Runs of one address in any spellings and modes, over a fixed source, can always be brought to
their ends. When they have ended, every one of them has taken the lock once; the events and the
results are those of the same runs one after the other, in the order in which they took the lock;
and the event table has gained as many rows as they report. -/
theorem overlapping_runs_are_serial (hfixed : source.IsFixed) {address : String}
    {runs : List (String × Mode)} (hruns : ∀ run ∈ runs, normalizeAddress run.1 = address)
    {limit : Nat} (hlimit : 0 < limit) {s : Shared φ} (hfree : address ∉ s.locked)
    {turns : List Turn} (hturns : .shutdown ∉ turns) :
    let pool := runsPool runs limit s
    (∃ more : List Turn, .shutdown ∉ more ∧
      ∃ results, (pool.run source (turns ++ more)).results? = some results) ∧
    ∀ results, (pool.run source turns).results? = some results →
      let order := lockOrder address (pool.log source turns)
      let serial := s.exec source ((order.filterMap fun i => runs[i]?).mapM fun run =>
        syncAddress run.1 run.2)
      order.Perm (List.range runs.length) ∧
      order.filterMap (fun i => results[i]?) = serial.1 ∧
      (pool.run source turns).shared.store.events = serial.2.store.events ∧
      (pool.run source turns).shared.store.events.length =
        s.store.events.length + (results.map SyncResult.count).sum := by
  intro pool
  have hfollows := runsPool_follows_turnstile hruns limit s
  have hlength : pool.calls.length = runs.length := List.length_map _
  constructor
  · have hpasses := Passes.start (fun _ => .inl rfl) hfree hfollows
    exact exists_results source hlimit (fun _ _ => hpasses.hasDoor rfl) turns
  · intro results hresults order serial
    obtain ⟨hnodup, hmem, t, hexec, hagrees⟩ := (agrees_mirror hfixed address).serial hfollows
      (fun _ => .inl rfl) ⟨rfl, rfl, rfl⟩ hfree hturns hresults
    have hserial : s.exec source (serially pool.calls order) = serial :=
      congrArg (s.exec source) (serially_map _ runs order)
    rw [show pool.shared = s from rfl, hserial] at hexec
    refine ⟨?_, ?_, ?_, ?_⟩
    · rw [List.perm_ext_iff_of_nodup hnodup List.nodup_range]
      intro i
      rw [hmem, List.mem_range, hlength]
      simp
    · rw [hexec]
    · rw [hexec]
      exact hagrees.events.symm
    · exact length_eq_sum_count source runs limit s hresults

/-- Two runs of one address, in two spellings and modes. -/
def twoSpellings : List (String × Mode) := [(" 0xAB ", .catchUp), ("0xab", .fillGaps)]

/-- Two calls in turns; the second one makes the first access of all. -/
def alternating : List Turn := (List.replicate 16 [.call 1, .call 0]).flatten

theorem counts_alternating :
    (((runsPool twoSpellings 2 (tableOf [bareEvent "a"])).run samePage alternating).results?.map
      fun results => results.map SyncResult.count) = some [0, 2] ∧
    lockOrder "0xab"
      ((runsPool twoSpellings 2 (tableOf [bareEvent "a"])).log samePage alternating) = [1, 0] := by
  simp only [runsPool, twoSpellings, List.map_cons, List.map_nil, syncAddress]
  rw [pageFrom, pageFrom]
  decide +kernel

/-- The second run takes the lock first and stores two events, and the first one, which waits for
it, then stores none. -/
theorem overlapping_runs_alternating :
    samePage.IsFixed ∧ (∀ run ∈ twoSpellings, normalizeAddress run.1 = "0xab") ∧ 0 < 2 ∧
    "0xab" ∉ (tableOf [bareEvent "a"]).locked ∧ Turn.shutdown ∉ alternating ∧
    ∃ results, ((runsPool twoSpellings 2 (tableOf [bareEvent "a"])).run samePage
        alternating).results? = some results ∧ results.map SyncResult.count = [0, 2] ∧
      let serial := (tableOf [bareEvent "a"]).exec samePage
        ([("0xab", Mode.fillGaps), (" 0xAB ", .catchUp)].mapM fun run => syncAddress run.1 run.2)
      [1, 0].filterMap (fun i => results[i]?) = serial.1 ∧
      ((runsPool twoSpellings 2 (tableOf [bareEvent "a"])).run samePage
        alternating).shared.store.events = serial.2.store.events ∧
      serial.2.store.events.length = 3 := by
  have hfixed : samePage.IsFixed := fun _ _ _ _ => rfl
  have hruns : ∀ run ∈ twoSpellings, normalizeAddress run.1 = "0xab" := by decide +kernel
  have hfree : "0xab" ∉ (tableOf [bareEvent "a"]).locked := List.not_mem_nil
  have hturns : Turn.shutdown ∉ alternating := by decide +kernel
  obtain ⟨hcounts, horder⟩ := counts_alternating
  obtain ⟨results, hresults, hcounts⟩ := Option.map_eq_some_iff.1 hcounts
  obtain ⟨-, hend⟩ := overlapping_runs_are_serial hfixed hruns Nat.two_pos hfree hturns
  obtain ⟨-, hserial, hevents, hlength⟩ := hend results hresults
  rw [horder] at hserial hevents
  refine ⟨hfixed, hruns, by decide, hfree, hturns, results, hresults, hcounts, hserial, hevents, ?_⟩
  rw [hevents, hcounts] at hlength
  exact hlength

end AddressLedger.Sync
