import AddressLedger.Proofs.History.Window
import AddressLedger.Proofs.Store.Insertion
import AddressLedger.Proofs.Store.Order

/-!
# Windows that tile

Two windows in a row make the window of both if all three are cut from the transactions of all rows.
A window is, unless rows that it did not read change what a group of the rows read shows.
-/
namespace AddressLedger.History
open Catalog Service Store

variable {φ : Type} {source : PageSource φ} {st : Store} {g : Nat} {r : HistoryRequest}

theorem pairwise_rows (r : HistoryRequest) (st : Store) :
    (r.rows st).Pairwise fun a b => timeLe a.timeAt b.timeAt :=
  List.pairwise_mergeSort (fun a b c => timeLe_trans a.timeAt b.timeAt c.timeAt)
    (fun a b => timeLe_total a.timeAt b.timeAt) _

namespace HistoryRequest

/-- The transactions of a request, as all rows show them. -/
def whole (r : HistoryRequest) (st : Store) : List Transaction :=
  (records r.distinctOwners (r.shown st (r.rows st))).mergeSort laterFirst

/-- Whether each group of some rows shows the record that it shows with all rows. -/
def IsSettled (r : HistoryRequest) (st : Store) (rows : Events) : Prop :=
  ∀ key ∈ groupKeys (r.shown st rows),
    canonical r.distinctOwners (groupOf (r.shown st (r.rows st)) key) =
      canonical r.distinctOwners (groupOf (r.shown st rows) key)

end HistoryRequest

theorem shown_append (r : HistoryRequest) (st : Store) (rows more : Events) :
    r.shown st (rows ++ more) = r.shown st rows ++ r.shown st more := by
  rw [HistoryRequest.shown, readable, List.filterMap_append, survivors_append]
  rfl

/-- A transaction is what a row says, with what is stored. -/
theorem exists_event_of_mem_shown {rows : Events} {t : Transaction} (h : t ∈ r.shown st rows) :
    ∃ row ∈ rows, ∃ e, row.toEvent = .ok e ∧ enrich (storedReference st) e = t := by
  rcases List.mem_map.mp (List.mem_filter.mp h).1 with ⟨e, he, ht⟩
  rcases mem_readable.mp (List.mem_filter.mp he).1 with ⟨row, hrow, hevent⟩
  exact ⟨row, hrow, e, hevent, ht⟩

/-- A transaction has the id, the chain and the time of its row. -/
theorem exists_row_of_mem_shown {rows : Events} {t : Transaction} (h : t ∈ r.shown st rows) :
    ∃ row ∈ rows, GroupKey.mk row.id row.chain = t.groupKey ∧ row.timeAt = t.timestamp := by
  rcases exists_event_of_mem_shown h with ⟨row, hrow, e, hevent, rfl⟩
  rcases toEvent_eq_ok hevent with ⟨hid, hchain, htime⟩
  exact ⟨row, hrow, congrArg₂ GroupKey.mk hid.symm hchain.symm, htime.symm⟩

theorem exists_row_of_record {rows : Events} {key : GroupKey} {t : Transaction}
    (hkey : key ∈ groupKeys (r.shown st rows))
    (ht : canonical r.distinctOwners (groupOf (r.shown st rows) key) = some t) :
    ∃ row ∈ rows, row.timeAt = t.timestamp := by
  rcases canonical_isRecordOf r.distinctOwners (groupOf_ne_nil hkey) with ⟨u, hu, hrecord⟩
  obtain rfl : u = t := Option.some.inj (hu.symm.trans ht)
  obtain ⟨v, hv, -, htime⟩ := hrecord.source
  rcases exists_row_of_mem_shown (mem_groupOf.mp hv).1 with ⟨row, hrow, -, hsame⟩
  exact ⟨row, hrow, hsame.trans htime⟩

/-- Further rows add the records of their new groups to those of settled ones. -/
theorem records_of_settled {rows rest : Events} (hrows : r.rows st = rows ++ rest)
    (hsettled : r.IsSettled st rows) :
    ∃ further, records r.distinctOwners (r.shown st (r.rows st)) =
        records r.distinctOwners (r.shown st rows) ++ further ∧
      ∀ t ∈ further, ∃ row ∈ rest, row.timeAt = t.timestamp := by
  have hshown : r.shown st (r.rows st) = r.shown st rows ++ r.shown st rest := by
    rw [hrows, shown_append]
  refine ⟨(groupKeys ((r.shown st rest).filter fun u =>
      !(groupKeys (r.shown st rows)).contains u.groupKey)).filterMap fun key =>
      canonical r.distinctOwners (groupOf (r.shown st (r.rows st)) key), ?_, fun t ht => ?_⟩
  · rw [records, records]
    have hkeys : groupKeys (r.shown st (r.rows st)) = groupKeys (r.shown st rows) ++
        groupKeys ((r.shown st rest).filter fun u =>
          !(groupKeys (r.shown st rows)).contains u.groupKey) := by
      rw [hshown, groupKeys_append]
    rw [hkeys, List.filterMap_append, List.filterMap_congr hsettled]
  · rcases List.mem_filterMap.mp ht with ⟨key, hkey, hrecord⟩
    rcases mem_groupKeys.mp hkey with ⟨u, hu, rfl⟩
    obtain ⟨hu, hnew⟩ := List.mem_filter.mp hu
    have hnew : u.groupKey ∉ groupKeys (r.shown st rows) := by simpa using hnew
    rw [hshown, groupOf_append, groupOf_eq_nil hnew, List.nil_append] at hrecord
    exact exists_row_of_record (mem_groupKeys.mpr ⟨u, hu, rfl⟩) hrecord

/-- Rows are settled if those after them are of other transactions. -/
theorem isSettled_of_disjoint {rows rest : Events} (hrows : r.rows st = rows ++ rest)
    (hother : ∀ row ∈ rows, ∀ row' ∈ rest,
      GroupKey.mk row.id row.chain ≠ GroupKey.mk row'.id row'.chain) : r.IsSettled st rows := by
  intro key hkey
  have hrest : groupOf (r.shown st rest) key = [] := by
    apply groupOf_eq_nil
    intro hmem
    rcases mem_groupKeys.mp hkey with ⟨t, ht, rfl⟩
    obtain ⟨u, hu, hsame⟩ := mem_groupKeys.mp hmem
    rcases exists_row_of_mem_shown ht with ⟨row, hrow, hid, -⟩
    rcases exists_row_of_mem_shown hu with ⟨row', hrow', hid', -⟩
    exact hother row hrow row' hrow' (hid.trans (hid'.trans hsame).symm)
  rw [hrows, shown_append, groupOf_append, hrest, List.append_nil]

/-- The first of all transactions are those of the rows read, if these are settled. -/
theorem window_of_settled {rows : Events} (hread : r.IsRead st rows)
    (hsettled : r.IsSettled st rows) :
    r.window st rows = ((r.whole st).drop r.skip).take r.limit := by
  cases hread with
  | all never => rfl
  | some k enough fewest =>
    have hrows : r.rows st = r.chunks st k ++ (r.rows st).drop (k * (2 * r.limit)) :=
      (List.take_append_drop _ _).symm
    rcases records_of_settled hrows hsettled with ⟨further, hrecords, hfurther⟩
    have hlater : ∀ x ∈ records r.distinctOwners (r.shown st (r.chunks st k)), ∀ y ∈ further,
        laterFirst x y := by
      intro x hx y hy
      rcases List.mem_filterMap.mp hx with ⟨key, hkey, hrecord⟩
      rcases exists_row_of_record hkey hrecord with ⟨row, hrow, htime⟩
      obtain ⟨row', hrow', htime'⟩ := hfurther y hy
      have hpairs := pairwise_rows r st
      rw [hrows, List.pairwise_append] at hpairs
      rw [laterFirst, ← htime, ← htime']
      exact hpairs.2.2 row hrow row' hrow'
    have henough : r.skip + r.limit ≤
        ((records r.distinctOwners (r.shown st (r.chunks st k))).mergeSort laterFirst).length := by
      rw [List.length_mergeSort, ← List.length_map Transaction.groupKey, map_groupKey_records]
      exact enough
    rw [HistoryRequest.window, HistoryRequest.whole, hrecords,
      mergeSort_append (fun a b c => timeLe_trans a.timestamp b.timestamp c.timestamp)
        (fun a b => timeLe_total a.timestamp b.timestamp) hlater,
      List.drop_append_of_le_length (by omega),
      List.take_append_of_le_length (by rw [List.length_drop]; omega)]

def HistoryRequest.withWindow (r : HistoryRequest) (skip limit : Nat) : HistoryRequest :=
  { r with skip := skip, limit := limit }

def readInTurn (first second : HistoryRequest) : StoreProcedure (List Transaction) := do
  let before ← readHistory first
  let after ← readHistory second
  return before ++ after

theorem isRead_unique {rows rows' : Events} (h : r.IsRead st rows) (h' : r.IsRead st rows') :
    rows = rows' := by
  cases h with
  | all never =>
    cases h' with
    | all _ => rfl
    | some k enough _ => exact absurd enough (never k)
  | some k enough fewest =>
    cases h' with
    | all never => exact absurd enough (never k)
    | some k' enough' fewest' =>
      have hk : k = k' := by
        rcases Nat.lt_trichotomy k k' with hlt | heq | hlt
        · exact absurd enough (fewest' k hlt)
        · exact heq
        · exact absurd enough' (fewest k' hlt)
      rw [hk]

theorem not_suffices_no_chunk (hlimit : 0 < r.limit) : ¬ r.Suffices st (r.chunks st 0) := by
  have hnone : r.chunks st 0 = [] := by
    rw [HistoryRequest.chunks, Nat.zero_mul, List.take_zero]
  have hzero : (groupKeys (r.shown st [])).length = 0 := rfl
  rw [HistoryRequest.Suffices, hnone]
  omega

theorem isRead_first_chunk (hlimit : 0 < r.limit) (enough : r.Suffices st (r.chunks st 1)) :
    r.IsRead st (r.chunks st 1) := by
  refine .some 1 enough fun j hj => ?_
  obtain rfl := Nat.lt_one_iff.mp hj
  exact not_suffices_no_chunk hlimit

theorem eq_rows_of_isRead {rows : Events} (h : r.IsRead st rows) (hlimit : 0 < r.limit)
    (hall : (r.rows st).length ≤ 2 * r.limit) : rows = r.rows st := by
  cases h with
  | all never => rfl
  | some k enough fewest =>
    have hk : k ≠ 0 := by
      rintro rfl
      exact not_suffices_no_chunk hlimit enough
    exact List.take_of_length_le (Nat.le_trans hall (Nat.le_mul_of_pos_left _
      (Nat.pos_of_ne_zero hk)))

theorem decoded_of_readable {rows : Events} (h : ∀ row ∈ rows, row.toEvent.toBool = true) :
    ∃ events, decoded rows = .ok events := by
  induction rows with
  | nil => exact ⟨[], rfl⟩
  | cons row rows ih =>
    rcases ih fun row hrow => h row (.tail _ hrow) with ⟨events, hevents⟩
    have hrow := h row (.head _)
    cases hevent : row.toEvent with
    | error e =>
      rw [hevent] at hrow
      cases hrow
    | ok e =>
      rw [decoded] at hevents
      refine ⟨e :: events, ?_⟩
      rw [decoded, List.mapM_cons, hevent, hevents]
      rfl

theorem toBool_of_decoded {rows : Events} {events : List Event} (h : decoded rows = .ok events) :
    ∀ row ∈ rows, row.toEvent.toBool = true := by
  induction rows generalizing events with
  | nil => exact fun row hrow => absurd hrow List.not_mem_nil
  | cons row rows ih =>
    obtain ⟨e, others, hevent, hrows, rfl⟩ := decoded_cons h
    refine List.forall_mem_cons.mpr ⟨?_, ih hrows⟩
    rw [hevent]
    rfl

theorem reads_readHistory_ok (hopen : st.isOpen = true) (hbound : st.events.length < offsetBound)
    (hitems : ∀ row ∈ st.events, row.toEvent.toBool = true) (r : HistoryRequest) :
    Reads source st g (readHistory r).run fun result => ∃ ts, result = .ok ts ∧
      ∀ rows, r.IsRead st rows → ts = r.window st rows := by
  apply (reads_readHistory hopen hbound r).mono
  rintro result ⟨rows, hread, hresult⟩
  refine ⟨r.window st rows, ?_, fun rows' hread' => by rw [isRead_unique hread hread']⟩
  rw [hresult]
  by_cases hlimit : r.limit = 0
  · rw [if_pos hlimit, HistoryRequest.window, hlimit, List.take_zero]
  · have hmatching : ∀ row ∈ rows, row ∈ st.events := by
      intro row hrow
      exact (mem_ordered.mp ((prefix_of_isRead hread).subset hrow)).1
    obtain ⟨events, hevents⟩ := decoded_of_readable fun row hrow => hitems row (hmatching row hrow)
    rw [if_neg hlimit, hevents]
    rfl

theorem reads_readInTurn (hopen : st.isOpen = true) (hbound : st.events.length < offsetBound)
    (hitems : ∀ row ∈ st.events, row.toEvent.toBool = true) (first second : HistoryRequest) :
    Reads source st g (readInTurn first second).run fun result => ∃ ts, result = .ok ts ∧
      ∀ rows rows', first.IsRead st rows → second.IsRead st rows' →
        ts = first.window st rows ++ second.window st rows' := by
  apply Reads.run_bind_ok (reads_readHistory_ok hopen hbound hitems first)
  intro before hbefore
  apply Reads.run_bind_ok (reads_readHistory_ok hopen hbound hitems second)
  intro after hafter
  refine Reads.done ⟨_, rfl, fun rows rows' hread hread' => ?_⟩
  rw [hbefore rows hread, hafter rows' hread']

theorem slice_append {α : Type} (xs : List α) (skip a b : Nat) :
    (xs.drop skip).take a ++ (xs.drop (skip + a)).take b = (xs.drop skip).take (a + b) := by
  rw [List.take_add, List.drop_drop]

/-- Whether every window is a part of the transactions of all rows. -/
def AreSlices (r : HistoryRequest) (st : Store) : Prop :=
  ∀ skip limit rows, 0 < limit → (r.withWindow skip limit).IsRead st rows →
    (r.withWindow skip limit).window st rows = ((r.whole st).drop skip).take limit

/-- Whether two windows in a row are the window of both, whatever these are. -/
def Tile (source : PageSource φ) (r : HistoryRequest) (s : Shared φ) : Prop :=
  ∀ skip a b, 0 < a → 0 < b →
    (s.exec source (readInTurn (r.withWindow skip a) (r.withWindow (skip + a) b)).run).1 =
      (s.exec source (readHistory (r.withWindow skip (a + b))).run).1

variable {s : Shared φ}

theorem tile_iff_windows (hopen : st.isOpen = true) (hbound : st.events.length < offsetBound)
    (hitems : ∀ row ∈ st.events, row.toEvent.toBool = true) (hs : IsOver st g s) :
    Tile source r s ↔ ∀ skip a b rows rows' rows'', 0 < a → 0 < b →
      (r.withWindow skip a).IsRead st rows → (r.withWindow (skip + a) b).IsRead st rows' →
      (r.withWindow skip (a + b)).IsRead st rows'' →
      (r.withWindow skip a).window st rows ++ (r.withWindow (skip + a) b).window st rows' =
        (r.withWindow skip (a + b)).window st rows'' := by
  have hstep : ∀ skip a b rows rows' rows'', (r.withWindow skip a).IsRead st rows →
      (r.withWindow (skip + a) b).IsRead st rows' → (r.withWindow skip (a + b)).IsRead st rows'' →
      ((s.exec source (readInTurn (r.withWindow skip a) (r.withWindow (skip + a) b)).run).1 =
        (s.exec source (readHistory (r.withWindow skip (a + b))).run).1 ↔
      (r.withWindow skip a).window st rows ++ (r.withWindow (skip + a) b).window st rows' =
        (r.withWindow skip (a + b)).window st rows'') := by
    intro skip a b rows rows' rows'' h h' h''
    have hinTurn : Reads source st g (readInTurn (r.withWindow skip a)
        (r.withWindow (skip + a) b)).run _ := reads_readInTurn hopen hbound hitems _ _
    have hatOnce : Reads source st g (readHistory (r.withWindow skip (a + b))).run _ :=
      reads_readHistory_ok hopen hbound hitems _
    rcases hinTurn s hs with ⟨-, pair, hpair, htwo⟩
    obtain ⟨-, one, hone, hboth⟩ := hatOnce s hs
    rw [hpair, hone, htwo rows rows' h h', hboth rows'' h'', Except.ok.injEq]
  constructor
  · intro htile skip a b rows rows' rows'' ha hb h h' h''
    exact (hstep skip a b rows rows' rows'' h h' h'').mp (htile skip a b ha hb)
  · intro hwindows skip a b ha hb
    rcases exists_isRead (r.withWindow skip a) st with ⟨rows, h⟩
    rcases exists_isRead (r.withWindow (skip + a) b) st with ⟨rows', h'⟩
    rcases exists_isRead (r.withWindow skip (a + b)) st with ⟨rows'', h''⟩
    exact (hstep skip a b rows rows' rows'' h h' h'').mpr
      (hwindows skip a b rows rows' rows'' ha hb h h' h'')

/-- Windows tile exactly if each of them is what all rows show. One is, if rows that were not read
change no record of the groups of those that were. -/
theorem windows_tile_iff (source : PageSource φ) (r : HistoryRequest) {s : Shared φ}
    (hopen : s.store.isOpen = true) (hbound : s.store.events.length < offsetBound)
    (hitems : ∀ row ∈ s.store.events, row.toEvent.toBool = true)
    (hcache : ∀ key record, s.cached? key = some record → s.store.record? key = some record) :
    (Tile source r s ↔ AreSlices r s.store) ∧
    ∀ skip limit rows, (r.withWindow skip limit).IsRead s.store rows →
      (r.withWindow skip limit).IsSettled s.store rows →
      (r.withWindow skip limit).window s.store rows =
        ((r.whole s.store).drop skip).take limit := by
  have hover : IsOver s.store s.generation s := ⟨rfl, rfl, hcache⟩
  refine ⟨?_, fun skip limit rows hread hsettled => window_of_settled hread hsettled⟩
  rw [tile_iff_windows hopen hbound hitems hover]
  constructor
  · intro htile skip a rows ha h
    obtain ⟨b, hb, hlong⟩ : ∃ b, 0 < b ∧ (r.rows s.store).length ≤ 2 * b :=
      ⟨(r.rows s.store).length + 1, Nat.succ_pos _, by omega⟩
    have hlonger : (r.rows s.store).length ≤ 2 * (a + b) := by omega
    obtain ⟨rows', h'⟩ := exists_isRead (r.withWindow (skip + a) b) s.store
    rcases exists_isRead (r.withWindow skip (a + b)) s.store with ⟨rows'', h''⟩
    have hboth := htile skip a b rows rows' rows'' ha hb h h' h''
    obtain rfl : rows' = r.rows s.store :=
      eq_rows_of_isRead (r := r.withWindow (skip + a) b) h' hb hlong
    obtain rfl : rows'' = r.rows s.store :=
      eq_rows_of_isRead (r := r.withWindow skip (a + b)) h'' (Nat.add_pos_left ha b) hlonger
    have hrest : (r.withWindow (skip + a) b).window s.store (r.rows s.store) =
        ((r.whole s.store).drop (skip + a)).take b := rfl
    have hwhole : (r.withWindow skip (a + b)).window s.store (r.rows s.store) =
        ((r.whole s.store).drop skip).take (a + b) := rfl
    rw [hrest, hwhole, ← slice_append _ skip a b] at hboth
    exact List.append_cancel_right hboth
  · intro hslices skip a b rows rows' rows'' ha hb h h' h''
    rw [hslices skip a rows ha h, hslices (skip + a) b rows' hb h',
      hslices skip (a + b) rows'' (Nat.add_pos_left ha b) h'', slice_append]

/-- A row of a transfer of one token from the first to the second of two owners. -/
def transferRow (id chain owner side : String) (time : Int64) : Row :=
  ⟨id, chain, owner, none, some time, false, "\x7b\"" ++ side ++ "\":[[\"t\",1]]," ++
    "\"tx\":\x7b\"from_addr\":\"0xa\",\"to_addr\":\"0xb\"\x7d\x7d"⟩

def bothOwners : HistoryRequest := HistoryRequest.ofOwners ["0xA", "0xB"]

theorem distinctOwners_bothOwners : bothOwners.distinctOwners = ["0xa", "0xb"] := by
  have hnormal : ((bothOwners.owners.map normalizeAddress).filter (· ≠ "")).eraseDups =
      ["0xa", "0xb"] := by decide
  rw [HistoryRequest.distinctOwners, hnormal]
  exact List.mergeSort_of_pairwise (by decide)

theorem query_bothOwners : bothOwners.query = ⟨["0xa", "0xb"], none, false⟩ := by
  rw [HistoryRequest.query, distinctOwners_bothOwners]
  rfl

theorem rows_eq_events (hmatch : ∀ row ∈ st.events, r.query.matches row = true)
    (hsorted : st.events.Pairwise fun a b => timeLe a.timeAt b.timeAt) : r.rows st = st.events := by
  rw [HistoryRequest.rows, Events.ordered, List.filter_eq_self.mpr hmatch]
  exact List.mergeSort_of_pairwise hsorted

/-- Transfers that their receiver tells of, the first of them also the sender, but later. -/
def lateSender : Shared Unit :=
  overToken [transferRow "k" "eth" "0xb" "receives" 10, transferRow "x" "eth" "0xb" "receives" 9,
    transferRow "k" "eth" "0xa" "sends" 9, transferRow "y" "eth" "0xb" "receives" 8,
    transferRow "z" "eth" "0xb" "receives" 7]

theorem rows_lateSender : bothOwners.rows lateSender.store = lateSender.store.events :=
  rows_eq_events (query_bothOwners ▸ by decide) (by decide)

theorem window_of_pairwise {rows : Events} (h : (records r.distinctOwners
    (r.shown st rows)).Pairwise fun a b => laterFirst a b) :
    r.window st rows = ((records r.distinctOwners (r.shown st rows)).drop r.skip).take r.limit := by
  rw [HistoryRequest.window, List.mergeSort_of_pairwise h]

theorem window_lateSender (limit k : Nat)
    (hsorted : (records ["0xa", "0xb"] (bothOwners.shown lateSender.store
      (lateSender.store.events.take k))).Pairwise fun a b => laterFirst a b) :
    ((bothOwners.withWindow 0 limit).window lateSender.store
        (lateSender.store.events.take k)).map (fun t => (t.hash, t.kind)) =
      ((records ["0xa", "0xb"] (bothOwners.shown lateSender.store
        (lateSender.store.events.take k))).map fun t => (t.hash, t.kind)).take limit := by
  have howners : (bothOwners.withWindow 0 limit).distinctOwners = ["0xa", "0xb"] :=
    distinctOwners_bothOwners
  rw [window_of_pairwise (by rw [howners]; exact hsorted), howners, List.map_take]
  rfl

theorem isRead_lateSender {limit : Nat} (hlimit : 0 < limit)
    (enough : limit ≤ (groupKeys (bothOwners.shown lateSender.store
      (lateSender.store.events.take (2 * limit)))).length) :
    (bothOwners.withWindow 0 limit).IsRead lateSender.store
      (lateSender.store.events.take (2 * limit)) := by
  have hchunk : (bothOwners.withWindow 0 limit).chunks lateSender.store 1 =
      lateSender.store.events.take (2 * limit) := by
    rw [HistoryRequest.chunks, Nat.one_mul, ← rows_lateSender]
    rfl
  rw [← hchunk]
  apply isRead_first_chunk hlimit
  rw [HistoryRequest.Suffices, hchunk, HistoryRequest.withWindow, Nat.zero_add]
  exact enough

/-- The first two rows do not tell that the first transfer is between the owners, the first four do,
and the fifth changes nothing. -/
theorem windows_of_lateSender :
    let one := bothOwners.withWindow 0 1
    let two := bothOwners.withWindow 0 2
    let rows := lateSender.store.events
    lateSender.store.isOpen = true ∧ rows.length < offsetBound ∧
    (∀ row ∈ rows, row.toEvent.toBool = true) ∧
    (∀ key record, lateSender.cached? key = some record →
      lateSender.store.record? key = some record) ∧
    ¬ Tile noPages bothOwners lateSender ∧
    one.IsRead lateSender.store (rows.take 2) ∧
    (one.window lateSender.store (rows.take 2)).map (fun t => (t.hash, t.kind)) =
      [("k", "Receive")] ∧
    two.IsRead lateSender.store (rows.take 4) ∧ two.IsSettled lateSender.store (rows.take 4) ∧
    two.window lateSender.store (rows.take 4) =
      ((bothOwners.whole lateSender.store).drop 0).take 2 ∧
    (two.window lateSender.store (rows.take 4)).map (fun t => (t.hash, t.kind)) =
      [("k", "Self Transfer"), ("x", "Receive")] := by
  intro one two rows
  have hbound : rows.length < offsetBound := by decide
  have hitems : ∀ row ∈ rows, row.toEvent.toBool = true := by decide +kernel
  have hcache := overToken_isCurrent rows
  have hone : one.IsRead lateSender.store (rows.take 2) :=
    isRead_lateSender (by decide) (by decide +kernel)
  have htwo : two.IsRead lateSender.store (rows.take 4) :=
    isRead_lateSender (by decide) (by decide +kernel)
  have hshort := window_lateSender 1 2 (by decide +kernel)
  have hlong := window_lateSender 2 4 (by decide +kernel)
  have hcut : two.rows lateSender.store = rows.take 4 ++ rows.drop 4 :=
    rows_lateSender.trans (List.take_append_drop 4 rows).symm
  have hsettled : two.IsSettled lateSender.store (rows.take 4) :=
    isSettled_of_disjoint hcut (by decide)
  obtain ⟨htiles, hslice⟩ := windows_tile_iff noPages bothOwners rfl hbound hitems hcache
  have hwhole := hslice 0 2 _ htwo hsettled
  refine ⟨rfl, hbound, hitems, hcache, fun htile => ?_, hone, hshort.trans (by decide +kernel),
    htwo, hsettled, hwhole, hlong.trans (by decide +kernel)⟩
  have hfirst := htiles.mp htile 0 1 _ Nat.one_pos hone
  have hsame : one.window lateSender.store (rows.take 2) =
      (two.window lateSender.store (rows.take 4)).take 1 := by
    rw [hfirst, hwhole, List.take_take]
    rfl
  have hkinds := congrArg (List.map fun t => (t.hash, t.kind)) hsame
  rw [List.map_take, hshort, hlong] at hkinds
  exact absurd hkinds (by decide +kernel)

/-- Rows of different transactions settle each group with its only row. -/
theorem isSettled_of_nodup {rows : Events} (hread : r.IsRead st rows)
    (hnodup : ((r.rows st).map fun row => GroupKey.mk row.id row.chain).Nodup) :
    r.IsSettled st rows := by
  rcases prefix_of_isRead hread with ⟨rest, hrows⟩
  rw [← hrows, List.map_append, List.nodup_append] at hnodup
  exact isSettled_of_disjoint hrows.symm fun row hrow row' hrow' =>
    hnodup.2.2 _ (List.mem_map_of_mem hrow) _ (List.mem_map_of_mem hrow')

/-- The rows of one owner are of different transactions. -/
theorem nodup_rows_of_one_owner {o : String} (howners : r.distinctOwners = [o])
    (hkeys : st.events.keys.Nodup) :
    ((r.rows st).map fun row => GroupKey.mk row.id row.chain).Nodup := by
  have haddress : ∀ row ∈ r.rows st, row.address = Text.lower o := by
    intro row hrow
    have hmatch := (mem_ordered.mp hrow).2
    simp only [EventQuery.matches, HistoryRequest.query, howners, List.map_cons, List.map_nil,
      Bool.and_eq_true, List.contains_iff_mem, List.mem_singleton] at hmatch
    exact hmatch.1.1
  have hrows : ((r.rows st).map Row.key).Nodup := by
    have hperm : (r.rows st).Perm (st.events.filter r.query.matches) := List.mergeSort_perm _ _
    rw [(hperm.map Row.key).nodup_iff]
    exact hkeys.sublist (List.filter_sublist.map Row.key)
  rw [List.Nodup, List.pairwise_map] at hrows ⊢
  refine hrows.imp_of_mem fun {row row'} hrow hrow' hne hsame => hne ?_
  rcases GroupKey.mk.inj hsame with ⟨hid, hchain⟩
  rw [Row.key, Row.key, hid, hchain, haddress row hrow, haddress row' hrow']

end AddressLedger.History
