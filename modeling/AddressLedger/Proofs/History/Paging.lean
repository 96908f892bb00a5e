import AddressLedger.Proofs.History.Tiling
import AddressLedger.Proofs.Service.Operations

/-!
# Pages of a history

A request that matches at most one row of each transaction shows these rows as they are: each group
is a single transaction, and the rows are in the order of their times already. Its windows are then
slices of one list, which all matching rows give.
-/
namespace AddressLedger.History
open Catalog Feed Service Store Sync

variable {φ : Type} {source : PageSource φ} {st : Store} {g : Nat} {r : HistoryRequest}

theorem groupKeys_of_nodup {ts : List Transaction} (h : (ts.map Transaction.groupKey).Nodup) :
    groupKeys ts = ts.map Transaction.groupKey := by
  induction ts using List.reverseRecOn with
  | nil => rfl
  | append_singleton ts t ih =>
    rw [List.map_append, List.map_singleton, List.nodup_append] at h
    have hnew : t.groupKey ∉ groupKeys ts := by
      rw [ih h.1]
      exact fun hmem => h.2.2 _ hmem _ (List.mem_singleton_self _) rfl
    rw [groupKeys_append_of_not_mem hnew, ih h.1, List.map_append, List.map_singleton]

theorem groupOf_of_nodup {ts : List Transaction} (h : (ts.map Transaction.groupKey).Nodup)
    {t : Transaction} (ht : t ∈ ts) : groupOf ts t.groupKey = [t] := by
  induction ts with
  | nil => cases ht
  | cons u ts ih =>
    rw [List.map_cons, List.nodup_cons] at h
    rw [← List.singleton_append, groupOf_append]
    rcases List.mem_cons.mp ht with rfl | ht
    · have hnone : groupOf ts t.groupKey = [] := by
        apply groupOf_eq_nil
        rw [groupKeys_of_nodup h.2]
        exact h.1
      rw [hnone]
      simp [groupOf]
    · have hne : u.groupKey ≠ t.groupKey := by
        intro hsame
        exact h.1 (hsame ▸ List.mem_map_of_mem ht)
      rw [ih h.2 ht]
      simp [groupOf, hne]

theorem records_of_nodup (owners : List String) {ts : List Transaction}
    (h : (ts.map Transaction.groupKey).Nodup) : records owners ts = ts := by
  have hsingle : ∀ t ∈ ts, canonical owners (groupOf ts t.groupKey) = some t := by
    intro t ht
    rw [groupOf_of_nodup h ht]
    rfl
  rw [records, groupKeys_of_nodup h, List.filterMap_map]
  exact (List.filterMap_congr hsingle).trans List.filterMap_some

/-- Whether a request matches at most one row of each transaction. -/
def HistoryRequest.SeesOnce (r : HistoryRequest) (st : Store) : Prop :=
  ((r.rows st).map fun row => GroupKey.mk row.id row.chain).Nodup

theorem shown_row (r : HistoryRequest) (st : Store) (row : Row) :
    r.shown st [row] = [] ∨ ∃ t, r.shown st [row] = [t] ∧
      t.groupKey = ⟨row.id, row.chain⟩ ∧ t.timestamp = row.timeAt := by
  have hlength : (r.shown st [row]).length ≤ 1 := by
    apply Nat.le_trans (length_survivors_le st r.minValueUsd (readable [row]))
    exact List.length_filterMap_le _ _
  have hsource : ∀ t ∈ r.shown st [row],
      t.groupKey = ⟨row.id, row.chain⟩ ∧ t.timestamp = row.timeAt := by
    intro t ht
    rcases exists_row_of_mem_shown ht with ⟨row', hrow', hkey, htime⟩
    obtain rfl := List.mem_singleton.mp hrow'
    exact ⟨hkey.symm, htime.symm⟩
  rcases hshown : r.shown st [row] with _ | ⟨t, ts⟩
  · exact .inl rfl
  · rw [hshown] at hlength hsource
    have hnil : ts.length = 0 := Nat.le_zero.mp (Nat.le_of_succ_le_succ hlength)
    obtain rfl := List.length_eq_zero_iff.mp hnil
    exact .inr ⟨t, rfl, hsource t (.head _)⟩

/-- The transactions shown follow the order of their rows. -/
theorem shown_sublist (r : HistoryRequest) (st : Store) (rows : Events) :
    List.Sublist ((r.shown st rows).map fun t => (t.groupKey, t.timestamp))
      (rows.map fun row => (GroupKey.mk row.id row.chain, row.timeAt)) := by
  induction rows with
  | nil => exact List.Sublist.slnil
  | cons row rows ih =>
    rw [← List.singleton_append, shown_append, List.singleton_append, List.map_cons]
    rcases shown_row r st row with hnone | ⟨t, hone, hkey, htime⟩
    · rw [hnone]
      exact ih.cons _
    · rw [hone, List.singleton_append, List.map_cons, hkey, htime]
      exact ih.cons_cons _

/-- If each transaction is seen once, all that rows show is in order, and there is nothing to
choose. -/
theorem whole_of_seesOnce (h : r.SeesOnce st) : r.whole st = r.shown st (r.rows st) := by
  have hsub := shown_sublist r st (r.rows st)
  have hkeys : ((r.shown st (r.rows st)).map Transaction.groupKey).Nodup := by
    have hkeySub := hsub.map Prod.fst
    rw [List.map_map, List.map_map] at hkeySub
    exact List.Nodup.sublist hkeySub h
  have htimes : (r.shown st (r.rows st)).Pairwise fun a b => laterFirst a b := by
    have htimeSub := hsub.map Prod.snd
    rw [List.map_map, List.map_map] at htimeSub
    have hrowTimes : ((r.rows st).map Row.timeAt).Pairwise fun a b => timeLe a b :=
      List.pairwise_map.mpr (pairwise_rows r st)
    exact List.pairwise_map.mp (hrowTimes.sublist htimeSub)
  rw [HistoryRequest.whole, records_of_nodup _ hkeys]
  exact List.mergeSort_of_pairwise htimes

theorem window_of_seesOnce (h : r.SeesOnce st) {rows : Events} (hread : r.IsRead st rows) :
    r.window st rows = ((r.shown st (r.rows st)).drop r.skip).take r.limit := by
  rw [window_of_settled hread (isSettled_of_nodup hread h), whole_of_seesOnce h]

/-- The windows of some lengths, each from where the one before it ends. -/
def readPages (r : HistoryRequest) : Nat → List Nat → StoreProcedure (List Transaction)
  | _, [] => return []
  | skip, limit :: limits => do
    let page ← readHistory (r.withWindow skip limit)
    let further ← readPages r (skip + limit) limits
    return page ++ further

theorem reads_slice (hopen : st.isOpen = true) (hbound : st.events.length < offsetBound)
    (hitems : ∀ row ∈ st.events, row.toEvent.toBool = true) (h : r.SeesOnce st)
    (skip limit : Nat) :
    Reads source st g (readHistory (r.withWindow skip limit)).run fun result => ∃ ts,
      result = .ok ts ∧ ts = ((r.shown st (r.rows st)).drop skip).take limit := by
  apply (reads_readHistory_ok hopen hbound hitems _).mono
  rintro result ⟨ts, hresult, hwindow⟩
  rcases exists_isRead (r.withWindow skip limit) st with ⟨rows, hread⟩
  have hslice := window_of_seesOnce (r := r.withWindow skip limit) h hread
  exact ⟨ts, hresult, (hwindow rows hread).trans hslice⟩

theorem reads_readPages (hopen : st.isOpen = true) (hbound : st.events.length < offsetBound)
    (hitems : ∀ row ∈ st.events, row.toEvent.toBool = true) (h : r.SeesOnce st)
    (skip : Nat) (limits : List Nat) :
    Reads source st g (readPages r skip limits).run fun result => ∃ ts,
      result = .ok ts ∧ ts = ((r.shown st (r.rows st)).drop skip).take limits.sum := by
  induction limits generalizing skip with
  | nil => exact Reads.done ⟨[], rfl, by rw [List.sum_nil, List.take_zero]⟩
  | cons limit limits ih =>
    apply Reads.run_bind_ok (reads_slice hopen hbound hitems h skip limit)
    intro page hpage
    apply Reads.run_bind_ok (ih (skip + limit))
    intro further hfurther
    refine Reads.done ⟨_, rfl, ?_⟩
    rw [hpage, hfurther, slice_append, List.sum_cons]

/-- Over any table that operations reach from an empty one, an open store and a cache of stored
records: what a request of one owner matches, it sees once. If a request sees each transaction once,
each of its windows is a slice of what all matching rows give in their order, as their events read
but for approvals and for what falls below the least value; and pages in a row make the slice of all
of them. -/
theorem pages_are_slices (source : PageSource φ) (hclient : IsClient source) {empty s : Shared φ}
    (hempty : empty.store.events = []) {ops : List Operation}
    (hitems : ∀ op ∈ ops, ∀ i ∈ op.items, Service.IsRead i)
    (hevents : s.store.events = (Operation.afterAll source empty ops).store.events)
    (hopen : s.store.isOpen = true) (hbound : s.store.events.length < offsetBound)
    (hcache : ∀ key record, s.cached? key = some record → s.store.record? key = some record)
    (r : HistoryRequest) :
    (∀ o, r.distinctOwners = [o] → r.SeesOnce s.store) ∧
    (r.SeesOnce s.store → ∃ events, decoded (r.rows s.store) = .ok events ∧
      let all := ((events.filter fun e => !isApprovalOnly e.payload).map
        (enrich (storedReference s.store))).filter (isShown r.minValueUsd)
      (∀ skip limit, (s.exec source (readHistory (r.withWindow skip limit)).run).1 =
        .ok ((all.drop skip).take limit)) ∧
      (∀ skip limits, (s.exec source (readPages r skip limits).run).1 =
        .ok ((all.drop skip).take limits.sum)) ∧
      ∀ t ∈ all,
        ∃ e ∈ events, t = enrich (storedReference s.store) e ∧ t.kind = kind e.payload) := by
  have hsound : IsSound (fun _ => True) (Operation.afterAll source empty ops).store.events :=
    isSound_afterAll (fun _ _ _ _ _ _ _ => trivial) hempty fun _ _ _ _ => trivial
  have hreadable := readable_afterAll hclient hempty hitems
  rw [← hevents] at hsound hreadable
  have hover : IsOver s.store s.generation s := ⟨rfl, rfl, hcache⟩
  have hmatching : ∀ row ∈ r.rows s.store, row ∈ s.store.events :=
    fun row hrow => (mem_ordered.1 hrow).1
  refine ⟨fun o ho => nodup_rows_of_one_owner ho hsound.nodup, fun honce => ?_⟩
  obtain ⟨events, hdecoded⟩ := decoded_of_readable fun row hrow =>
    hreadable row (hmatching row hrow)
  refine ⟨events, hdecoded, ?_⟩
  have hall : r.shown s.store (r.rows s.store) = survivors s.store r.minValueUsd events :=
    shown_of_decoded hdecoded
  rw [survivors] at hall
  refine ⟨fun skip limit => ?_, fun skip limits => ?_, fun t ht => ?_⟩
  · have hslice : Reads source s.store s.generation _ _ :=
      reads_slice hopen hbound hreadable honce skip limit
    obtain ⟨-, ts, hresult, hts⟩ := hslice s hover
    rw [hresult, hts, hall]
  · have hpages : Reads source s.store s.generation _ _ :=
      reads_readPages hopen hbound hreadable honce skip limits
    obtain ⟨-, ts, hresult, hts⟩ := hpages s hover
    rw [hresult, hts, hall]
  · rcases List.mem_map.mp (List.mem_filter.mp ht).1 with ⟨e, he, rfl⟩
    exact ⟨e, (List.mem_filter.mp he).1, rfl, rfl⟩

def receipt (id token : String) (time amount : Nat) : Item :=
  { timedItem id (Number.ofInt time) with
    receives := [⟨some token, Number.ofInt amount, none, none⟩] }

def receiptTree (id token : String) (time amount : Nat) : Json.Raw :=
  .object [(some "id", .text (some id)), (some "chain", .text (some "eth")),
    (some "time_at", .number (.ofInt time)), (some "receives", .array [.object [
      (some "token_id", .text (some token)), (some "amount", .number (.ofInt amount))] true] true)]
    true

/-- Receipts of one owner, the latest one first and one of them of a token without a price, and the
last one again as that of a further owner. -/
def receipts : Given :=
  [("0xAB", receipt "4" "t" 40 3), ("0xAB", receipt "3" "u" 30 9), ("0xAB", receipt "2" "t" 20 2),
    ("0xAB", receipt "1" "t" 10 1), ("0xCD", receipt "1" "t" 10 1)]

theorem isRead_receipts : ∀ given ∈ receipts, Service.IsRead given.2 := by
  have hlast : Service.IsRead (receipt "1" "t" 10 1) := ⟨0, receiptTree "1" "t" 10 1, rfl⟩
  have hsecond : Service.IsRead (receipt "2" "t" 20 2) := ⟨0, receiptTree "2" "t" 20 2, rfl⟩
  have hthird : Service.IsRead (receipt "3" "u" 30 9) := ⟨0, receiptTree "3" "u" 30 9, rfl⟩
  have hfirst : Service.IsRead (receipt "4" "t" 40 3) := ⟨0, receiptTree "4" "t" 40 3, rfl⟩
  simp [receipts, hfirst, hthird, hsecond, hlast]

/-- The receipts are inserted, and the other token is stored and cached. -/
def receiving : Shared Unit := overToken ((Operation.eventsOf receipts).map Row.ofEvent)

def spelledTwice : HistoryRequest := HistoryRequest.ofOwners ["0xAB", " 0xab "]

theorem distinctOwners_spelledTwice : spelledTwice.distinctOwners = ["0xab"] := by decide +kernel

theorem rows_receiving :
    spelledTwice.rows receiving.store = ((Operation.eventsOf receipts).take 4).map Row.ofEvent := by
  have hmatching : receiving.store.events.filter spelledTwice.query.matches =
      ((Operation.eventsOf receipts).take 4).map Row.ofEvent := by
    rw [HistoryRequest.query, distinctOwners_spelledTwice]
    rfl
  rw [HistoryRequest.rows, Events.ordered, hmatching]
  exact List.mergeSort_of_pairwise (by decide +kernel)

theorem decoded_receipts : decoded (((Operation.eventsOf receipts).take 4).map Row.ofEvent) =
    .ok ((Operation.eventsOf receipts).take 4) := by
  apply mapM_toEvent
  intro e he
  obtain ⟨given, hgiven, hof⟩ := List.mem_filterMap.mp (List.mem_of_mem_take he)
  have hread := isRead_receipts given hgiven
  rw [← Event.payload_of_ofItem? hof] at hread
  exact readsBack_of_isRead hread

/-- Three of the receipts are shown, page by page. -/
theorem pages_of_receipts :
    let source := answering notedBody
    let ops := [Operation.insertPage receipts]
    IsClient source ∧ unstored.store.events = [] ∧
    (∀ op ∈ ops, ∀ i ∈ op.items, Service.IsRead i) ∧
    receiving.store.events = (Operation.afterAll source unstored ops).store.events ∧
    receiving.store.isOpen = true ∧ receiving.store.events.length = 5 ∧ 5 < offsetBound ∧
    (∀ key record, receiving.cached? key = some record →
      receiving.store.record? key = some record) ∧
    spelledTwice.distinctOwners = ["0xab"] ∧ spelledTwice.SeesOnce receiving.store ∧
    ∃ all : List Transaction, all.map Transaction.hash = ["4", "2", "1"] ∧
      (∀ skip limit, (receiving.exec source
        (readHistory (spelledTwice.withWindow skip limit)).run).1 =
          .ok ((all.drop skip).take limit)) ∧
      ∀ skip limits, (receiving.exec source (readPages spelledTwice skip limits).run).1 =
        .ok ((all.drop skip).take limits.sum) := by
  intro source ops
  have hclient : IsClient source := answering_isClient notedBody
  have hitems : ∀ op ∈ ops, ∀ i ∈ op.items, Service.IsRead i := by
    intro op hop i hi
    obtain rfl := List.mem_singleton.mp hop
    obtain ⟨given, hgiven, rfl⟩ := List.mem_map.mp hi
    exact isRead_receipts given hgiven
  have hbound : 5 < offsetBound := by decide
  have hcache := overToken_isCurrent ((Operation.eventsOf receipts).map Row.ofEvent)
  have hempty : unstored.store.events = [] := rfl
  have hevents : receiving.store.events = (Operation.afterAll source unstored ops).store.events :=
    rfl
  have hopen : receiving.store.isOpen = true := rfl
  obtain ⟨honce, hslices⟩ :=
    pages_are_slices source hclient hempty hitems hevents hopen hbound hcache spelledTwice
  have hsees := honce _ distinctOwners_spelledTwice
  obtain ⟨events, hdecoded, hwindows, hpages, -⟩ := hslices hsees
  rw [rows_receiving, decoded_receipts] at hdecoded
  obtain rfl := Except.ok.inj hdecoded
  exact ⟨hclient, hempty, hitems, hevents, hopen, rfl, hbound, hcache, distinctOwners_spelledTwice,
    hsees, _, by decide +kernel, hwindows, hpages⟩

end AddressLedger.History
