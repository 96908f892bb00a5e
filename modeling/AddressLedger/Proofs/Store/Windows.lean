import AddressLedger.Proofs.Store.Order
import AddressLedger.Store.Basic
import Mathlib.Algebra.GroupWithZero.Nat
import Mathlib.Data.List.Forall2

/-!
# Windows of the event table

What a query reads of a table is one list: the matching rows by their times, and those of one time by
their insertion. There is only one such list. Every fetch gives a slice of it, fetches in a row give
longer slices, and a further row stands between those that are not earlier and those that are.
-/
namespace AddressLedger.Store
open Feed

variable {rows all : Events} {q : EventQuery} {row : Row} {st : Store}

theorem timeLe_iff {a b : Option Int64} :
    timeLe a b = true ↔ ∀ y, b = some y → ∃ x, a = some x ∧ y ≤ x := by
  cases a <;> cases b <;> simp [timeLe]

theorem timeLe_antisymm {a b : Option Int64} (hab : timeLe a b = true) (hba : timeLe b a = true) :
    a = b := by
  match a, b with
  | none, none => rfl
  | none, some y => cases hab
  | some x, none => cases hba
  | some x, some y =>
    simp only [timeLe, decide_eq_true_eq] at hab hba
    rw [Int64.le_antisymm hba hab]

/-- Whether a list is what a query reads of a table: the matching rows, those with later times first
and those without a time last, and those of one time in the order of their insertion. -/
structure IsReading (rows : Events) (q : EventQuery) (all : Events) : Prop where
  perm : all.Perm (rows.filter q.matches)
  later : all.Pairwise fun a b => ∀ y, b.timeAt = some y → ∃ x, a.timeAt = some x ∧ y ≤ x
  ties : ∀ time, (all.filter fun a => a.timeAt == time) =
    (rows.filter q.matches).filter fun a => a.timeAt == time

theorem timeLe_self (a : Option Int64) : timeLe a a = true := by simpa using timeLe_total a a

theorem isReading_ordered (rows : Events) (q : EventQuery) :
    IsReading rows q (rows.ordered q) := by
  have trans : ∀ a b c : Row, timeLe a.timeAt b.timeAt → timeLe b.timeAt c.timeAt →
      timeLe a.timeAt c.timeAt := fun a b c => timeLe_trans _ _ _
  have total : ∀ a b : Row, timeLe a.timeAt b.timeAt || timeLe b.timeAt a.timeAt :=
    fun a b => timeLe_total _ _
  refine ⟨List.mergeSort_perm _ _, ?_, fun time => ?_⟩
  · exact (List.pairwise_mergeSort trans total _).imp timeLe_iff.mp
  · rw [Events.ordered, filter_mergeSort trans total]
    apply List.mergeSort_of_pairwise
    apply List.pairwise_of_forall_mem_list
    intro a ha b hb
    have hat : a.timeAt = time := by simpa using (List.mem_filter.mp ha).2
    have hbt : b.timeAt = time := by simpa using (List.mem_filter.mp hb).2
    rw [hat, hbt]
    exact timeLe_self time

theorem mem_iff_of_filter_timeAt {xs ys : Events}
    (h : ∀ time, (xs.filter fun a => a.timeAt == time) = ys.filter fun a => a.timeAt == time)
    (a : Row) : a ∈ xs ↔ a ∈ ys := by
  have hmem := congrArg (a ∈ ·) (h a.timeAt)
  simpa using hmem

/-- Rows in the order of their times are known from those of each time. -/
theorem eq_of_filter_timeAt {xs ys : Events}
    (hxs : xs.Pairwise fun a b => timeLe a.timeAt b.timeAt)
    (hys : ys.Pairwise fun a b => timeLe a.timeAt b.timeAt)
    (h : ∀ time, (xs.filter fun a => a.timeAt == time) = ys.filter fun a => a.timeAt == time) :
    xs = ys := by
  induction xs generalizing ys with
  | nil =>
    cases ys with
    | nil => rfl
    | cons b ys => exact absurd ((mem_iff_of_filter_timeAt h b).mpr (.head _)) List.not_mem_nil
  | cons a xs ih =>
    cases ys with
    | nil => exact absurd ((mem_iff_of_filter_timeAt h a).mp (.head _)) List.not_mem_nil
    | cons b ys =>
      rw [List.pairwise_cons] at hxs hys
      have htime : a.timeAt = b.timeAt := by
        rcases List.mem_cons.mp ((mem_iff_of_filter_timeAt h a).mp (.head _)) with rfl | ha
        · rfl
        rcases List.mem_cons.mp ((mem_iff_of_filter_timeAt h b).mpr (.head _)) with rfl | hb
        · rfl
        exact timeLe_antisymm (hxs.1 b hb) (hys.1 a ha)
      have hfirst := h a.timeAt
      rw [List.filter_cons_of_pos (by simp), List.filter_cons_of_pos (by simp [htime])] at hfirst
      obtain rfl := (List.cons.inj hfirst).1
      have hrest : ∀ time, (xs.filter fun x => x.timeAt == time) =
          ys.filter fun x => x.timeAt == time := by
        intro time
        have htime := h time
        rw [List.filter_cons, List.filter_cons] at htime
        split at htime
        · exact (List.cons.inj htime).2
        · exact htime
      rw [ih hxs.2 hys.2 hrest]

/-- Only one list is what a query reads of a table. -/
theorem IsReading.eq_ordered (h : IsReading rows q all) : all = rows.ordered q := by
  have hordered := isReading_ordered rows q
  refine eq_of_filter_timeAt (h.later.imp timeLe_iff.mpr) (hordered.later.imp timeLe_iff.mpr) ?_
  intro time
  rw [h.ties, hordered.ties]

/-- Rows in the order of their times are, at any time, cut into those not before it and those before
it. -/
theorem exists_split_at {xs : Events} (hxs : xs.Pairwise fun a b => timeLe a.timeAt b.timeAt)
    (time : Option Int64) :
    ∃ before after, xs = before ++ after ∧ (∀ x ∈ before, timeLe x.timeAt time = true) ∧
      ∀ x ∈ after, timeLe x.timeAt time = false := by
  induction xs with
  | nil => exact ⟨[], [], rfl, by simp, by simp⟩
  | cons a xs ih =>
    rw [List.pairwise_cons] at hxs
    cases ha : timeLe a.timeAt time with
    | true =>
      obtain ⟨before, after, rfl, hbefore, hafter⟩ := ih hxs.2
      exact ⟨a :: before, after, rfl, List.forall_mem_cons.mpr ⟨ha, hbefore⟩, hafter⟩
    | false =>
      refine ⟨[], a :: xs, rfl, by simp, List.forall_mem_cons.mpr ⟨ha, fun x hx => ?_⟩⟩
      rw [Bool.eq_false_iff] at ha ⊢
      exact fun h => ha (timeLe_trans _ _ _ (hxs.1 x hx) h)

/-- A further row stands behind the rows that are not earlier and before those that are. -/
theorem IsReading.insert {before after : Events} (h : IsReading rows q (before ++ after))
    (hrow : q.matches row = true) (hbefore : ∀ x ∈ before, timeLe x.timeAt row.timeAt = true)
    (hafter : ∀ x ∈ after, timeLe x.timeAt row.timeAt = false) :
    IsReading (rows ++ [row]) q (before ++ row :: after) := by
  have hfilter : (rows ++ [row]).filter q.matches = rows.filter q.matches ++ [row] := by
    simp [hrow]
  have hpairs := h.later.imp timeLe_iff.mpr
  rw [List.pairwise_append] at hpairs
  constructor
  · rw [hfilter]
    exact (List.perm_middle.trans (h.perm.cons row)).trans (List.perm_append_singleton _ _).symm
  · apply List.Pairwise.imp timeLe_iff.mp
    have hbehind : ∀ x ∈ after, timeLe row.timeAt x.timeAt = true := by
      intro x hx
      simpa [hafter x hx] using timeLe_total row.timeAt x.timeAt
    rw [List.pairwise_append, List.pairwise_cons]
    refine ⟨hpairs.1, ⟨hbehind, hpairs.2.1⟩, fun x hx => List.forall_mem_cons.mpr ?_⟩
    exact ⟨hbefore x hx, hpairs.2.2 x hx⟩
  · intro time
    have hties := h.ties time
    rw [List.filter_append] at hties
    rw [hfilter, List.filter_append, List.filter_append, ← hties]
    by_cases htime : row.timeAt = time
    · have hnone : (after.filter fun x => x.timeAt == time) = [] := by
        rw [List.filter_eq_nil_iff]
        intro x hx hsame
        have hlate := hafter x hx
        rw [beq_iff_eq.mp hsame, ← htime, timeLe_self] at hlate
        cases hlate
      rw [List.filter_cons_of_pos (by simpa using htime), hnone, List.append_nil]
      simp [htime]
    · rw [List.filter_cons_of_neg (by simpa using htime)]
      simp [htime]

theorem IsReading.exists_insert (h : IsReading rows q all) (hrow : q.matches row = true) :
    ∃ before after, all = before ++ after ∧
      IsReading (rows ++ [row]) q (before ++ row :: after) := by
  obtain ⟨before, after, rfl, hbefore, hafter⟩ :=
    exists_split_at (h.later.imp timeLe_iff.mpr) row.timeAt
  exact ⟨before, after, rfl, h.insert hrow hbefore hafter⟩

/-- Windows of some lengths, each from where the one before it ends. -/
def fetchInTurn (st : Store) (q : EventQuery) :
    Nat → List Nat → Except StoreError (List Event)
  | _, [] => .ok []
  | offset, limit :: limits => do
    let events ← st.fetchEvents q offset limit
    let further ← fetchInTurn st q (offset + limit) limits
    return events ++ further

theorem ordered_eq_nil (rows : Events) (h : q.owners = []) : rows.ordered q = [] := by
  have hnone : rows.filter q.matches = [] := by
    rw [List.filter_eq_nil_iff]
    intro row _
    simp [EventQuery.matches, h]
  rw [Events.ordered, hnone, List.mergeSort_nil]

theorem fetchEvents_eq_nil (st : Store) (offset : Int) {limit : Int}
    (h : q.owners = [] ∨ limit ≤ 0) : st.fetchEvents q offset limit = .ok [] := by
  rw [fetchEvents, if_pos (h.imp_left List.isEmpty_iff.mpr)]
  rfl

/-- What is fetched is a slice of the matching rows in their order, read row by row. -/
theorem fetchEvents_eq_slice (hopen : st.isOpen = true) (q : EventQuery) (offset limit : Int) :
    st.fetchEvents q offset limit =
      (((st.events.ordered q).drop offset.toNat).take limit.toNat).mapM Row.toEvent := by
  by_cases hnone : q.owners = [] ∨ limit ≤ 0
  · have hslice : ((st.events.ordered q).drop offset.toNat).take limit.toNat = [] := by
      rcases hnone with howners | hlimit
      · rw [ordered_eq_nil _ howners, List.drop_nil, List.take_nil]
      · rw [Int.toNat_of_nonpos hlimit, List.take_zero]
    rw [fetchEvents_eq_nil st offset hnone, hslice]
    rfl
  · rw [fetchEvents, if_neg (mt (Or.imp_left List.isEmpty_iff.mp) hnone), whenOpen, if_pos hopen]
    rfl

theorem fetchInTurn_eq_slice (hopen : st.isOpen = true) (q : EventQuery) (offset : Nat)
    (limits : List Nat) : fetchInTurn st q offset limits =
      (((st.events.ordered q).drop offset).take limits.sum).mapM Row.toEvent := by
  induction limits generalizing offset with
  | nil => rw [List.sum_nil, List.take_zero]; rfl
  | cons limit limits ih =>
    rw [fetchInTurn, fetchEvents_eq_slice hopen, ih, List.sum_cons, List.take_add, List.drop_drop,
      List.mapM_append, Int.toNat_natCast, Int.toNat_natCast]

theorem mapM_toEvent_eq_ok_iff {events : List Event} : rows.mapM Row.toEvent = .ok events ↔
    List.Forall₂ (fun row e => row.toEvent = .ok e) rows events := by
  induction rows generalizing events with
  | nil =>
    rw [List.forall₂_nil_left_iff]
    exact ⟨fun h => (Except.ok.inj h).symm, fun h => h ▸ rfl⟩
  | cons row rows ih =>
    simp only [List.mapM_cons, List.forall₂_cons_left_iff, ← ih]
    cases row.toEvent with
    | error e => simp [bind, Except.bind]
    | ok e =>
      cases rows.mapM Row.toEvent with
      | error e' => simp [bind, Except.bind]
      | ok others => simp [bind, Except.bind, pure, Except.pure, eq_comm]

theorem mapM_toEvent_slice {events : List Event} (h : rows.mapM Row.toEvent = .ok events)
    (offset limit : Nat) :
    ((rows.drop offset).take limit).mapM Row.toEvent = .ok ((events.drop offset).take limit) := by
  rw [mapM_toEvent_eq_ok_iff] at h ⊢
  exact List.forall₂_take limit (List.forall₂_drop offset h)

/-- Payloads that are written over leave the order of reading as it is. -/
theorem ordered_setPayload (rows : Events) (q : EventQuery) (id payload : String) :
    (rows.setPayload id payload).2.ordered q = ((rows.ordered q).setPayload id payload).2 := by
  simp only [Events.ordered, Events.setPayload]
  rw [List.map_mergeSort, List.filter_map]
  · congr 2
    apply List.filter_congr
    intro row _
    simp only [Function.comp_apply]
    split <;> rfl
  · intro a _ b _
    split <;> split <;> rfl

theorem mapM_toEvent_eq_error_iff :
    rows.mapM Row.toEvent = .error .badPayload ↔
      ∃ row ∈ rows, (Item.ofText row.payload).toBool = false := by
  induction rows with
  | nil => simp [pure, Except.pure]
  | cons row rows ih =>
    rw [List.mapM_cons, List.exists_mem_cons_iff, ← ih, Row.toEvent]
    cases hitem : Item.ofText row.payload with
    | error e => simp [bind, Except.bind, Except.toBool]
    | ok item =>
      simp only [bind, Except.bind, Except.toBool]
      cases rows.mapM Row.toEvent <;> simp [pure, Except.pure]

/-- A text that is no item, written over the payloads of an id, fails the fetches whose window has a
row of this id, and no others. -/
theorem fetchEvents_setPayload_eq_error_iff (hopen : st.isOpen = true) {id payload : String}
    (hevents : st.events = (rows.setPayload id payload).2)
    (hitems : ∀ row ∈ rows, (Item.ofText row.payload).toBool = true)
    (hpayload : (Item.ofText payload).toBool = false) (offset limit : Int) :
    st.fetchEvents q offset limit = .error .badPayload ↔
      ∃ row ∈ ((rows.ordered q).drop offset.toNat).take limit.toNat, row.id = id := by
  rw [fetchEvents_eq_slice hopen, hevents, ordered_setPayload, mapM_toEvent_eq_error_iff]
  simp only [Events.setPayload, ← List.map_drop, ← List.map_take, List.mem_map,
    exists_exists_and_eq_and]
  apply exists_congr
  intro row
  apply and_congr_right
  intro hrow
  have hstored := (mem_ordered.mp (List.mem_of_mem_drop (List.mem_of_mem_take hrow))).1
  by_cases hid : row.id = id
  · simp [hid, hpayload]
  · simp [hid, hitems row hstored]

/-- An open store reads a query from one list: its matching rows, each as often as it is stored, by
descending time, those without a time last and those of one time in the order of insertion. Every
fetch gives the slice of the list that starts at its offset, or at the beginning if that is negative,
and is as long as its limit, row by row as it is read; windows in a row give the slice of them all.
A further row that matches stands at one place in the list, and the others are left in their order. -/
theorem windows_are_slices_of_one_order (q : EventQuery) (hopen : st.isOpen = true) :
    ∃ all, IsReading st.events q all ∧ (∀ other, IsReading st.events q other → other = all) ∧
      (∀ row, q.matches row = true ↔
        (∃ o ∈ q.owners, Text.lower o = row.address) ∧ (∀ c, q.chain = some c → row.chain = c) ∧
          (row.isScam = true → q.includeScam = true)) ∧
      (st.events.keys.Nodup → all.Nodup) ∧
      (∀ offset limit : Int, st.fetchEvents q offset limit =
        ((all.drop offset.toNat).take limit.toNat).mapM Row.toEvent) ∧
      (∀ offset limit : Int, q.owners = [] ∨ limit ≤ 0 →
        st.fetchEvents q offset limit = .ok []) ∧
      (∀ events, all.mapM Row.toEvent = .ok events → ∀ offset limit : Int,
        st.fetchEvents q offset limit = .ok ((events.drop offset.toNat).take limit.toNat)) ∧
      (∀ offset limits, fetchInTurn st q offset limits =
        ((all.drop offset).take limits.sum).mapM Row.toEvent) ∧
      (∀ limits, all.length ≤ limits.sum → fetchInTurn st q 0 limits = all.mapM Row.toEvent) ∧
      ∀ row, q.matches row = true → ∃ before after, all = before ++ after ∧
        IsReading (st.events ++ [row]) q (before ++ row :: after) := by
  have hordered := isReading_ordered st.events q
  refine ⟨st.events.ordered q, hordered, fun other h => h.eq_ordered, fun row =>
    EventQuery.matches_iff, fun hkeys => nodup_ordered hkeys q, fetchEvents_eq_slice hopen q,
    fun offset limit => fetchEvents_eq_nil st offset, fun events hevents offset limit => ?_,
    fetchInTurn_eq_slice hopen q, fun limits hall => ?_, fun row => hordered.exists_insert⟩
  · rw [fetchEvents_eq_slice hopen]
    exact mapM_toEvent_slice hevents _ _
  · rw [fetchInTurn_eq_slice hopen, List.drop_zero, List.take_of_length_le hall]

def timedRow (id : String) (time : Option Int64) : Row :=
  ⟨id, "eth", "0xa", none, time, false, "{}"⟩

/-- Two rows of one time, one without a time, a later one and one of a scam. -/
def tiedTimes : Store :=
  { Store.empty with
    events := [timedRow "a" (some 5), timedRow "b" none, timedRow "c" (some 7),
      timedRow "d" (some 5), { timedRow "e" (some 9) with isScam := true }] }

def honestOnly : EventQuery := ⟨["0xA"], none, false⟩

theorem isReading_tiedTimes : IsReading tiedTimes.events honestOnly
    [timedRow "c" (some 7), timedRow "a" (some 5), timedRow "d" (some 5), timedRow "b" none] := by
  have hmatching : tiedTimes.events.filter honestOnly.matches =
      [timedRow "a" (some 5), timedRow "b" none, timedRow "c" (some 7), timedRow "d" (some 5)] := by
    decide
  have hlater : [timedRow "c" (some 7), timedRow "a" (some 5), timedRow "d" (some 5),
      timedRow "b" none].Pairwise fun a b => timeLe a.timeAt b.timeAt := by decide
  refine ⟨?_, hlater.imp timeLe_iff.mp, fun time => ?_⟩
  · rw [hmatching]
    decide
  · rw [hmatching]
    by_cases hfive : time = some 5
    · subst hfive
      decide
    · by_cases hseven : time = some 7
      · subst hseven
        decide
      · simp [List.filter_cons, timedRow, Ne.symm hfive, Ne.symm hseven]

theorem windows_of_tiedTimes : tiedTimes.isOpen = true ∧
    ∃ all, IsReading tiedTimes.events honestOnly all ∧ all.map Row.id = ["c", "a", "d", "b"] ∧
      (tiedTimes.fetchEvents honestOnly (-3) 2).map (·.map Event.id) = .ok ["c", "a"] ∧
      (fetchInTurn tiedTimes honestOnly 1 [1, 0, 4]).map (·.map Event.id) =
        .ok ["a", "d", "b"] ∧
      ∃ before after, all = before ++ after ∧
        IsReading (tiedTimes.events ++ [timedRow "f" (some 5)]) honestOnly
          (before ++ timedRow "f" (some 5) :: after) := by
  have hopen : tiedTimes.isOpen = true := rfl
  obtain ⟨all, hall, hunique, -, -, hfetch, -, -, hturns, -, hinsert⟩ :=
    windows_are_slices_of_one_order honestOnly hopen
  obtain rfl := hunique _ isReading_tiedTimes
  refine ⟨hopen, _, hall, rfl, ?_, ?_, hinsert _ (by decide)⟩
  · rw [hfetch]
    rfl
  · rw [hturns]
    rfl

end AddressLedger.Store
