import AddressLedger.Proofs.Sync.PageSize

/-!
# Catching up

Catch-up runs over a ledger, one after the other, from an empty event table, any request of which
may fail. The first run that stores anything decides: it stores the newest items, and all later runs
stop at the first of them. If it broke off, what it left out is never stored, and the runs after it
succeed all the same.
-/
namespace AddressLedger.Sync
open Catalog Feed Service Store

variable {φ : Type} {source : PageSource φ} {owner : String} {l : Ledger} {n : Nat}
  {known : List EventKey} {cursor : Option Int64} {pages : List Page}
  {failure : Option SyncError} {i : Item}

/-- A run over the feed of a ledger that may fail is a walk. -/
theorem walk_of_servesOrFails (hserves : ServesOrFails source owner l n) (mode : Mode)
    {s : Shared φ} (hopen : s.store.isOpen = true) :
    Walk (l.Allows n) owner mode s.store.events.keys none
      (s.pages source (pageFrom owner mode none 0))
      (s.exec source (pageFrom owner mode none 0)).1.failure :=
  pageFrom_walk (fun _ => True) (fun s cursor _ => ⟨hserves.fetchPage s cursor, trivial⟩) mode
    none 0 hopen trivial

def HasNewest (l : Ledger) (owner : String) (rows : Events) : Prop :=
  ∃ i, l.items.head? = some i ∧ isKnown owner rows.keys i = true

theorem page_none_eq_cons (hn : 1 ≤ n) (h : l.items.head? = some i) :
    ∃ rest, l.page n none = i :: rest := by
  obtain ⟨items, hitems⟩ := List.head?_eq_some_iff.1 h
  obtain ⟨m, rfl⟩ := Nat.exists_eq_add_of_le' hn
  exact ⟨items.take m, by rw [Ledger.page, Ledger.older_none, hitems, List.take_succ_cons]⟩

/-- A run that fills gaps has new events only if it receives the newest item. -/
theorem Walk.empty_or_newest (hn : 1 ≤ n)
    (h : Walk (l.Allows n) owner .fillGaps known none pages failure) :
    newEvents owner .fillGaps known pages = [] ∨ ∃ i, l.items.head? = some i ∧
      isKnown owner (known ++ (newEvents owner .fillGaps known pages).map Event.key) i = true := by
  cases hhead : l.items.head? with
  | none =>
    left
    rw [List.eq_nil_iff_forall_not_mem]
    intro e he
    obtain ⟨-, page, hpage, i, hi, -⟩ := (mem_newEvents_fillGaps h.mem_items).1 he
    have hmem := h.mem_items page hpage i hi
    rw [List.head?_eq_none_iff.1 hhead] at hmem
    cases hmem
  | some i =>
    by_cases hpages : pages = []
    · left
      rw [hpages, newEvents_nil]
    · right
      obtain ⟨page, hpage, hitems⟩ := h.exists_first_page (.inr hpages)
      obtain ⟨rest, hfirst⟩ := page_none_eq_cons hn hhead
      refine ⟨i, rfl, isKnown_of_received h.mem_items hpage ?_⟩
      rw [hitems, hfirst]
      exact List.mem_cons_self

/-- A run over an empty table that stores anything stores the newest item, and all items if it
succeeds. -/
theorem catchUp_from_empty (hn : 1 ≤ n) (hdistinct : l.HasDistinctSeconds) (hsteady : l.IsSteady)
    (hserves : ServesOrFails source owner l n) {s : Shared φ} (hopen : s.store.isOpen = true)
    (hempty : s.store.events = []) :
    ((s.exec source (pageFrom owner .catchUp none 0)).2.store.events = [] ∨
        HasNewest l owner (s.exec source (pageFrom owner .catchUp none 0)).2.store.events) ∧
      ((s.exec source (pageFrom owner .catchUp none 0)).1.failure = none →
        IsStored l owner (s.exec source (pageFrom owner .catchUp none 0)).2.store.events) := by
  obtain ⟨hwalk, hrows⟩ :=
    pageFrom_of_empty hsteady hopen hempty (walk_of_servesOrFails hserves .catchUp hopen)
  have hkeys := Events.keys_append [] (newEvents owner .fillGaps []
    (s.pages source (pageFrom owner .catchUp none 0)))
  rw [List.nil_append, ← hrows] at hkeys
  constructor
  · obtain hnone | ⟨i, hhead, hknown⟩ := hwalk.empty_or_newest hn
    · left
      rw [hrows, hnone]
      rfl
    · right
      rw [HasNewest, hkeys]
      exact ⟨i, hhead, hknown⟩
  · intro hend i hi
    have hearly : ∀ i ∈ l.items.dropLast, i.isEarly = false :=
      fun i hi => hsteady i (List.dropLast_subset _ hi)
    rw [hkeys]
    exact hwalk.isKnown_after hn hdistinct (.inr hearly) hend hi

theorem catchUp_from_newest (hn : 1 ≤ n) (hserves : ServesOrFails source owner l n) {s : Shared φ}
    (hopen : s.store.isOpen = true) (hnewest : HasNewest l owner s.store.events) :
    (s.exec source (pageFrom owner .catchUp none 0)).2.store.events = s.store.events := by
  have hwalk := walk_of_servesOrFails hserves .catchUp hopen
  obtain ⟨hrows, -⟩ := pageFrom_hasEffect source owner .catchUp none 0 hopen
  rcases hnewest with ⟨i, hhead, hknown⟩
  suffices hnone : newEvents owner .catchUp s.store.events.keys
      (s.pages source (pageFrom owner .catchUp none 0)) = [] by
    rw [hrows, hnone, List.map_nil, List.append_nil]
  generalize s.pages source (pageFrom owner .catchUp none 0) = pages at hwalk
  cases pages with
  | nil => exact newEvents_nil _ _ _
  | cons page pages =>
    obtain ⟨rest, hfirst⟩ := page_none_eq_cons hn hhead
    have hitems := hwalk.items_eq
    rw [hfirst] at hitems
    have hcaught : catchesUp owner s.store.events.keys .catchUp page.items = true := by
      simp [catchesUp, hitems, hknown]
    rw [newEvents_last hcaught, newOn, seen, hitems, List.takeWhile_cons, hknown]
    rfl

/-- The state after a number of catch-up runs for an address. -/
def afterRuns (source : PageSource φ) (a : String) (s : Shared φ) : Nat → Shared φ
  | 0 => s
  | k + 1 => ((afterRuns source a s k).exec source (syncAddress a .catchUp)).2

def runFailure (source : PageSource φ) (a : String) (s : Shared φ) (k : Nat) : Option SyncError :=
  ((afterRuns source a s k).exec source (syncAddress a .catchUp)).1.failure

def rowsAfter (source : PageSource φ) (a : String) (s : Shared φ) (k : Nat) : Events :=
  (afterRuns source a s k).store.events

variable {a : String} {s : Shared φ}

theorem afterRuns_isOpen (hopen : s.store.isOpen = true) (k : Nat) :
    (afterRuns source a s k).store.isOpen = true := by
  induction k with
  | zero => exact hopen
  | succ k ih => exact (Shared.exec_isOpen _ _).trans ih

section

variable (hn : 1 ≤ n) (hserves : ServesOrFails source (normalizeAddress a) l n)
  (hopen : s.store.isOpen = true)
include hn hserves hopen

/-- Once the newest item is stored, the runs of the sequence store nothing any more. -/
theorem rowsAfter_add_of_newest {k : Nat}
    (hnewest : HasNewest l (normalizeAddress a) (rowsAfter source a s k)) (m : Nat) :
    rowsAfter source a s (k + m) = rowsAfter source a s k := by
  induction m with
  | zero => rfl
  | succ m ih =>
    rw [← ih] at hnewest
    rw [← ih, ← Nat.add_assoc, rowsAfter, afterRuns, exec_syncAddress]
    exact catchUp_from_newest hn hserves (afterRuns_isOpen hopen _) hnewest

variable (hdistinct : l.HasDistinctSeconds) (hsteady : l.IsSteady)
include hdistinct hsteady

theorem rowsAfter_succ_of_empty {k : Nat} (hnone : rowsAfter source a s k = []) :
    (rowsAfter source a s (k + 1) = [] ∨
        HasNewest l (normalizeAddress a) (rowsAfter source a s (k + 1))) ∧
      (runFailure source a s k = none →
        IsStored l (normalizeAddress a) (rowsAfter source a s (k + 1))) := by
  rw [rowsAfter, afterRuns, runFailure, exec_syncAddress]
  exact catchUp_from_empty hn hdistinct hsteady hserves (afterRuns_isOpen hopen k) hnone

variable (hempty : s.store.events = [])
include hempty

theorem rowsAfter_empty_or_newest (k : Nat) :
    rowsAfter source a s k = [] ∨ HasNewest l (normalizeAddress a) (rowsAfter source a s k) := by
  induction k with
  | zero => exact .inl hempty
  | succ k ih =>
    obtain hnone | hnewest := ih
    · exact (rowsAfter_succ_of_empty hn hserves hopen hdistinct hsteady hnone).1
    · right
      rw [rowsAfter_add_of_newest hn hserves hopen hnewest 1]
      exact hnewest

/-- A run that succeeds over a table that is empty or complete leaves it complete. -/
theorem isStored_succ {k : Nat} (hsuccess : runFailure source a s k = none)
    (h : rowsAfter source a s k = [] ∨ IsStored l (normalizeAddress a) (rowsAfter source a s k)) :
    IsStored l (normalizeAddress a) (rowsAfter source a s (k + 1)) := by
  obtain hnone | hnewest := rowsAfter_empty_or_newest hn hserves hopen hdistinct hsteady hempty k
  · exact (rowsAfter_succ_of_empty hn hserves hopen hdistinct hsteady hnone).2 hsuccess
  · obtain hnone | hstored := h
    · exact (rowsAfter_succ_of_empty hn hserves hopen hdistinct hsteady hnone).2 hsuccess
    · rw [rowsAfter_add_of_newest hn hserves hopen hnewest 1]
      exact hstored

end

/-- A catch-up run that succeeds leaves the history complete exactly if no earlier run broke off
with a part of it stored. -/
theorem catchUp_isStored_iff (l : Ledger) {n : Nat} (hn : 1 ≤ n) (hdistinct : l.HasDistinctSeconds)
    (hsteady : l.IsSteady) (a : String) {source : PageSource φ}
    (hserves : ServesOrFails source (normalizeAddress a) l n) {s : Shared φ}
    (hopen : s.store.isOpen = true) (hempty : s.store.events = []) (k : Nat)
    (hsuccess : runFailure source a s k = none) :
    IsStored l (normalizeAddress a) (rowsAfter source a s (k + 1)) ↔
      ∀ j < k, runFailure source a s j ≠ none →
        rowsAfter source a s (j + 1) = [] ∨
          IsStored l (normalizeAddress a) (rowsAfter source a s (j + 1)) := by
  constructor
  · intro hstored j hj _
    obtain hnone | hnewest :=
      rowsAfter_empty_or_newest hn hserves hopen hdistinct hsteady hempty (j + 1)
    · exact .inl hnone
    · -- Nothing was stored between the two runs.
      right
      have hsame := rowsAfter_add_of_newest hn hserves hopen hnewest (k - j)
      rw [show j + 1 + (k - j) = k + 1 by omega] at hsame
      rwa [← hsame]
  · intro h
    have hbefore : ∀ m ≤ k, rowsAfter source a s m = [] ∨
        IsStored l (normalizeAddress a) (rowsAfter source a s m) := by
      intro m
      induction m with
      | zero => exact fun _ => .inl hempty
      | succ m ih =>
        intro hm
        by_cases hfailure : runFailure source a s m = none
        · exact .inr (isStored_succ hn hserves hopen hdistinct hsteady hempty hfailure
            (ih (by omega)))
        · exact h m (by omega) hfailure
    exact isStored_succ hn hserves hopen hdistinct hsteady hempty hsuccess (hbefore k le_rfl)

def wholeLedger : Ledger where
  items := [timedItem "a" 30, timedItem "b" 20]
  isNamed := by decide
  isTimed := by decide
  isDistinct := by decide
  newestFirst := by decide +kernel

/-- A source that gives out a ledger in pages of one item and fails on the second request. -/
def failsOnce (l : Ledger) : PageSource Nat :=
  ⟨fun _ cursor count =>
    (.answered false (if count = 1 then .error .request else .ok ⟨l.page 1 cursor, [], [], []⟩),
      count + 1)⟩

theorem failsOnce_servesOrFails (l : Ledger) (owner : String) :
    ServesOrFails (failsOnce l) owner l 1 := by
  intro cursor feed stopping page feed' h
  rw [failsOnce, Prod.mk.injEq, Reply.answered.injEq] at h
  rcases h with ⟨⟨-, h⟩, -⟩
  split at h
  · cases h
  · cases h
    rfl

def unread : Shared Nat := ⟨Store.empty, [], 0, [], false, 0⟩

/-- The first item is stored, and two requests were made. -/
def brokenOff : Shared Nat :=
  ⟨⟨true, [Row.ofEvent ⟨"a", "eth", "0xab", none, some 30, false, timedItem "a" 30⟩], [], [], []⟩,
    [], 0, [], false, 2⟩

theorem exec_unread : unread.exec (failsOnce wholeLedger) (syncAddress "0xab" .catchUp) =
    (⟨"0xab", 1, some (.feed .request)⟩, brokenOff) := by
  have hfirst : (holding unread "0xab").exec (failsOnce wholeLedger)
      (pageFrom "0xab" .catchUp none 0) =
        (appended { holding unread "0xab" with feed := 1 }
          (newOn "0xab" .catchUp [] [timedItem "a" 30])).exec (failsOnce wholeLedger)
            (pageFrom "0xab" .catchUp (some 30) 1) := by
    rw [pageFrom]
    rfl
  have hsecond : (appended { holding unread "0xab" with feed := 1 }
      (newOn "0xab" .catchUp [] [timedItem "a" 30])).exec (failsOnce wholeLedger)
        (pageFrom "0xab" .catchUp (some 30) 1) =
          (⟨1, some (.feed .request)⟩, { brokenOff with locked := ["0xab"] }) := by
    rw [pageFrom]
    with_unfolding_all rfl
  rw [exec_syncAddress, normalizeAddress_ab, hfirst, hsecond]
  rfl

theorem exec_brokenOff : brokenOff.exec (failsOnce wholeLedger) (syncAddress "0xab" .catchUp) =
    (⟨"0xab", 0, none⟩, { brokenOff with feed := 3 }) := by
  have hfirst : (holding brokenOff "0xab").exec (failsOnce wholeLedger)
      (pageFrom "0xab" .catchUp none 0) =
        (⟨0, none⟩, { holding brokenOff "0xab" with feed := 3 }) := by
    rw [pageFrom]
    rfl
  rw [exec_syncAddress, normalizeAddress_ab, hfirst]
  rfl

/-- A run breaks off after the first of two items, and the next one succeeds without the second. -/
theorem catchUp_succeeds_after_break :
    wholeLedger.HasDistinctSeconds ∧ wholeLedger.IsSteady ∧
    ServesOrFails (failsOnce wholeLedger) (normalizeAddress "0xab") wholeLedger 1 ∧
    unread.store.isOpen = true ∧ unread.store.events = [] ∧
    runFailure (failsOnce wholeLedger) "0xab" unread 1 = none ∧
    ¬ IsStored wholeLedger (normalizeAddress "0xab")
      (rowsAfter (failsOnce wholeLedger) "0xab" unread 2) := by
  have hdistinct : wholeLedger.HasDistinctSeconds := by decide +kernel
  have hsteady : wholeLedger.IsSteady := by decide +kernel
  have hserves := failsOnce_servesOrFails wholeLedger (normalizeAddress "0xab")
  have hrows : rowsAfter (failsOnce wholeLedger) "0xab" unread 1 = brokenOff.store.events := by
    rw [rowsAfter, afterRuns, afterRuns, exec_unread]
  have hfailure : runFailure (failsOnce wholeLedger) "0xab" unread 0 = some (.feed .request) := by
    rw [runFailure, afterRuns, exec_unread]
  have hsuccess : runFailure (failsOnce wholeLedger) "0xab" unread 1 = none := by
    rw [runFailure, afterRuns, afterRuns, exec_unread, exec_brokenOff]
  have hmissing : isKnown (normalizeAddress "0xab") brokenOff.store.events.keys
      (timedItem "b" 20) = false := by decide +kernel
  refine ⟨hdistinct, hsteady, hserves, rfl, rfl, hsuccess, ?_⟩
  rw [catchUp_isStored_iff wholeLedger (by decide) hdistinct hsteady "0xab" hserves rfl rfl 1
    hsuccess]
  intro h
  obtain hnone | hstored := h 0 (by decide) (by simp [hfailure])
  · rw [hrows] at hnone
    cases hnone
  · rw [hrows] at hstored
    have hb := hstored (timedItem "b" 20) (List.mem_cons_of_mem _ List.mem_cons_self)
    rw [hmissing] at hb
    cases hb

end AddressLedger.Sync
