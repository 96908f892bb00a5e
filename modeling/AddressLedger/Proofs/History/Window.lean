import AddressLedger.Proofs.History.Enrichment
import AddressLedger.Proofs.History.Grouping
import Mathlib.Data.Nat.Find

/-!
# Windows of the history

A request reads the matching rows in whole chunks until they give enough transactions. What it
returns is a window of the records of these rows, the latest first.
-/
namespace AddressLedger.History
open Catalog Service Store

variable {φ : Type} {source : PageSource φ} {st : Store} {g : Nat} {r : HistoryRequest}

/-- The events of rows, or the failure of the first one whose item cannot be read. -/
def decoded (rows : Events) : Except StoreError (List Event) := rows.mapM Row.toEvent

def readable (rows : Events) : List Event := rows.filterMap fun row => row.toEvent.toOption

theorem toEvent_eq_ok {row : Row} {e : Event} (h : row.toEvent = .ok e) :
    e.id = row.id ∧ e.chain = row.chain ∧ e.timeAt = row.timeAt := by
  rw [Row.toEvent] at h
  split at h
  · cases h
    exact ⟨rfl, rfl, rfl⟩
  · cases h

theorem mem_readable {rows : Events} {e : Event} :
    e ∈ readable rows ↔ ∃ row ∈ rows, row.toEvent = .ok e := by
  have hread : ∀ row : Row, row.toEvent.toOption = some e ↔ row.toEvent = .ok e := by
    intro row
    cases row.toEvent <;> simp [Except.toOption]
  simp only [readable, List.mem_filterMap, hread]

theorem decoded_nil : decoded [] = .ok [] := rfl

theorem decoded_append (rows more : Events) :
    decoded (rows ++ more) = do
      let events ← decoded rows
      let others ← decoded more
      return events ++ others :=
  List.mapM_append

theorem decoded_cons {row : Row} {rows : Events} {events : List Event}
    (h : decoded (row :: rows) = .ok events) :
    ∃ e others, row.toEvent = .ok e ∧ decoded rows = .ok others ∧ events = e :: others := by
  simp only [decoded, List.mapM_cons] at *
  cases hrow : row.toEvent with
  | error failure =>
    rw [hrow] at h
    cases h
  | ok e =>
    cases hrows : rows.mapM Row.toEvent with
    | error failure =>
      rw [hrow, hrows] at h
      cases h
    | ok others =>
      rw [hrow, hrows] at h
      exact ⟨e, others, rfl, rfl, (Except.ok.inj h).symm⟩

theorem readable_of_decoded {rows : Events} {events : List Event} (h : decoded rows = .ok events) :
    readable rows = events := by
  induction rows generalizing events with
  | nil => exact Except.ok.inj h
  | cons row rows ih =>
    rcases decoded_cons h with ⟨e, others, hrow, hrows, rfl⟩
    rw [readable, List.filterMap_cons, hrow, ← ih hrows]
    rfl

theorem length_decoded {rows : Events} {events : List Event} (h : decoded rows = .ok events) :
    events.length = rows.length := by
  induction rows generalizing events with
  | nil =>
    obtain rfl : [] = events := Except.ok.inj h
    rfl
  | cons row rows ih =>
    rcases decoded_cons h with ⟨e, others, -, hrows, rfl⟩
    rw [List.length_cons, List.length_cons, ih hrows]

namespace HistoryRequest

/-- The rows that match a request, in the order in which they are read. -/
def rows (r : HistoryRequest) (st : Store) : Events := st.events.ordered r.query

def shown (r : HistoryRequest) (st : Store) (rows : Events) : List Transaction :=
  survivors st r.minValueUsd (readable rows)

/-- Whether rows give a request as many transactions as it asks for and skips. -/
def Suffices (r : HistoryRequest) (st : Store) (rows : Events) : Prop :=
  r.skip + r.limit ≤ (groupKeys (r.shown st rows)).length

/-- The matching rows in the first chunks of twice the window's length. -/
def chunks (r : HistoryRequest) (st : Store) (k : Nat) : Events :=
  (r.rows st).take (k * (2 * r.limit))

/-- The rows that a request reads: the fewest chunks that suffice, or all rows if none do. -/
inductive IsRead (r : HistoryRequest) (st : Store) : Events → Prop
  | some (k : Nat) (enough : r.Suffices st (r.chunks st k))
      (fewest : ∀ j < k, ¬ r.Suffices st (r.chunks st j)) : IsRead r st (r.chunks st k)
  | all (never : ∀ k, ¬ r.Suffices st (r.chunks st k)) : IsRead r st (r.rows st)

end HistoryRequest

theorem length_rows_le (r : HistoryRequest) (st : Store) :
    (r.rows st).length ≤ st.events.length := by
  rw [HistoryRequest.rows, Events.ordered, List.length_mergeSort]
  exact List.length_filter_le _ _

theorem length_chunks_le (r : HistoryRequest) (st : Store) (k : Nat) :
    (r.chunks st k).length ≤ st.events.length := by
  rw [HistoryRequest.chunks, List.length_take]
  exact Nat.le_trans (Nat.min_le_right _ _) (length_rows_le r st)

theorem length_survivors_le (st : Store) (minValueUsd : Float) (events : List Event) :
    (survivors st minValueUsd events).length ≤ events.length := by
  apply Nat.le_trans (List.length_filter_le _ _)
  rw [List.length_map]
  exact List.length_filter_le _ _

theorem chunks_succ (r : HistoryRequest) (st : Store) (k : Nat) :
    r.chunks st (k + 1) = r.chunks st k ++
      ((r.rows st).drop (r.chunks st k).length).take (2 * r.limit) := by
  rw [HistoryRequest.chunks, HistoryRequest.chunks, Nat.succ_mul, List.take_add, List.length_take]
  congr 2
  rcases Nat.le_total (k * (2 * r.limit)) (r.rows st).length with h | h
  · rw [Nat.min_eq_left h]
  · rw [Nat.min_eq_right h, List.drop_of_length_le h, List.drop_length]

theorem take_chunkSize {rows : Events} (h : rows.length < offsetBound) :
    rows.take r.chunkSize = rows.take (2 * r.limit) := by
  rw [List.take_eq_take_min, List.take_eq_take_min (i := 2 * r.limit)]
  congr 1
  simp only [HistoryRequest.chunkSize, offsetBound, Nat.pow_eq] at *
  omega

theorem chunkSize_pos (hlimit : 0 < r.limit) : 0 < r.chunkSize := by
  simp only [HistoryRequest.chunkSize, Nat.pow_eq]
  omega

theorem asks_chunk (howners : r.distinctOwners ≠ []) (hlimit : 0 < r.limit) :
    ¬ (r.query.owners.isEmpty = true ∨ (r.chunkSize : Int) ≤ 0) := by
  have hsize := chunkSize_pos hlimit
  rintro (h | h)
  · exact howners (List.isEmpty_iff.mp h)
  · omega

/-- What a fetch of a chunk receives, unless it asks for nothing. -/
theorem fetchEvents_eq_decoded (hopen : st.isOpen = true) (howners : r.distinctOwners ≠ [])
    (hlimit : 0 < r.limit) (offset : Nat) : st.fetchEvents r.query offset r.chunkSize =
      decoded (((r.rows st).drop offset).take r.chunkSize) := by
  rw [fetchEvents, if_neg (asks_chunk howners hlimit), whenOpen, if_pos hopen, Events.window]
  simp only [Int.toNat_natCast]
  rfl

theorem reads_fetchEvents (hopen : st.isOpen = true) (howners : r.distinctOwners ≠ [])
    (hlimit : 0 < r.limit) (hbound : st.events.length < offsetBound) (offset : Nat) :
    Reads source st g (.call (.fetchEvents r.query offset r.chunkSize))
      (· = decoded (((r.rows st).drop offset).take (2 * r.limit))) := by
  intro s hs
  refine ⟨hs, ?_⟩
  change s.store.fetchEvents r.query offset r.chunkSize = _
  have hlength : ((r.rows st).drop offset).length < offsetBound := by
    rw [List.length_drop]
    exact Nat.lt_of_le_of_lt (Nat.le_trans (Nat.sub_le _ _) (length_rows_le r st)) hbound
  rw [hs.store, fetchEvents_eq_decoded hopen howners hlimit, take_chunkSize hlength]

def Gathers (r : HistoryRequest) (st : Store) (rows : Events) (result : Except StoreError Groups) :
    Prop :=
  match decoded rows with
  | .ok events => ∃ groups, result = .ok groups ∧
      groups.Collects (survivors st r.minValueUsd events)
  | .error e => result = .error e

variable {k : Nat} {events : List Event} {groups : Groups}

theorem gathers_ok {rows : Events} (h : decoded rows = .ok events)
    (hgroups : groups.Collects (survivors st r.minValueUsd events)) :
    Gathers r st rows (.ok groups) := by
  rw [Gathers, h]
  exact ⟨groups, rfl, hgroups⟩

theorem Gathers.of_ok {rows : Events} (h : Gathers r st rows (.ok groups)) :
    ∃ events, decoded rows = .ok events ∧
      groups.Collects (survivors st r.minValueUsd events) := by
  rw [Gathers] at h
  cases hevents : decoded rows with
  | error e =>
    rw [hevents] at h
    cases h
  | ok events =>
    rw [hevents] at h
    rcases h with ⟨groups', hsame, hcollects⟩
    cases hsame
    exact ⟨events, rfl, hcollects⟩

theorem Gathers.of_error {rows : Events} {e : StoreError} (h : Gathers r st rows (.error e)) :
    decoded rows = .error e := by
  rw [Gathers] at h
  cases hevents : decoded rows with
  | error e' =>
    rw [hevents] at h
    rw [Except.error.inj h]
  | ok events =>
    rw [hevents] at h
    rcases h with ⟨groups', hsame, -⟩
    cases hsame

theorem shown_of_decoded {rows : Events} (h : decoded rows = .ok events) :
    r.shown st rows = survivors st r.minValueUsd events := by
  rw [HistoryRequest.shown, readable_of_decoded h]

/-- The loop goes on as long as the chunks read do not suffice. -/
theorem continues_iff (hbound : st.events.length < offsetBound)
    (hevents : decoded (r.chunks st k) = .ok events)
    (hgroups : groups.Collects (survivors st r.minValueUsd events)) :
    (groups.size < r.wanted ∧ (r.chunks st k).length < offsetBound) ↔
      ¬ r.Suffices st (r.chunks st k) := by
  have hchunks := length_chunks_le r st k
  have hkeys : groups.size ≤ st.events.length := by
    rw [hgroups.size]
    calc (groupKeys (survivors st r.minValueUsd events)).length
      _ ≤ (survivors st r.minValueUsd events).length := length_groupKeys_le _
      _ ≤ events.length := length_survivors_le st _ events
      _ = (r.chunks st k).length := length_decoded hevents
      _ ≤ st.events.length := hchunks
  rw [HistoryRequest.Suffices, shown_of_decoded hevents, ← hgroups.size]
  simp only [HistoryRequest.wanted, offsetBound, Nat.pow_eq] at *
  omega

/-- Chunks that are all read and do not suffice are followed by no others that do. -/
theorem isRead_all (hbefore : ∀ j < k, ¬ r.Suffices st (r.chunks st j))
    (hfew : ¬ r.Suffices st (r.chunks st k)) (hall : (r.rows st).length ≤ k * (2 * r.limit)) :
    r.IsRead st (r.chunks st k) := by
  have hrows : ∀ j, k ≤ j → r.chunks st j = r.rows st := by
    intro j hj
    exact List.take_of_length_le (Nat.le_trans hall (Nat.mul_le_mul_right _ hj))
  rw [hrows k (Nat.le_refl k)] at hfew ⊢
  refine .all fun j => ?_
  rcases Nat.lt_or_ge j k with hj | hj
  · exact hbefore j hj
  · rwa [hrows j hj]

/-- A row that cannot be read ends the request, however many chunks it would have read. -/
theorem decoded_of_isRead {e : StoreError} {j : Nat} {rows : Events} (hread : r.IsRead st rows)
    (hbefore : ∀ i < j, ¬ r.Suffices st (r.chunks st i))
    (he : decoded (r.chunks st j) = .error e) : decoded rows = .error e := by
  have hprefix : r.chunks st j <+: rows := by
    cases hread with
    | some i enough fewest =>
      have hji : j ≤ i := Nat.le_of_not_lt fun hlt => hbefore i hlt enough
      exact List.take_prefix_take_left (Nat.mul_le_mul_right _ hji)
    | all never => exact List.take_prefix _ _
  obtain ⟨rest, rfl⟩ := hprefix
  rw [decoded_append, he]
  rfl

theorem exists_isRead (r : HistoryRequest) (st : Store) : ∃ rows, r.IsRead st rows := by
  classical
  by_cases h : ∃ k, r.Suffices st (r.chunks st k)
  · exact ⟨_, .some (Nat.find h) (Nat.find_spec h) fun j hj => Nat.find_min h hj⟩
  · exact ⟨_, .all (not_exists.mp h)⟩

theorem reads_gather (hopen : st.isOpen = true) (howners : r.distinctOwners ≠ [])
    (hlimit : 0 < r.limit) (hbound : st.events.length < offsetBound)
    (hevents : decoded (r.chunks st k) = .ok events)
    (hbefore : ∀ j < k, ¬ r.Suffices st (r.chunks st j))
    (hgroups : groups.Collects (survivors st r.minValueUsd events)) :
    Reads source st g (gather r groups (r.chunks st k).length).run
      fun result => ∃ rows, r.IsRead st rows ∧ Gathers r st rows result := by
  induction hleft : (r.rows st).length - k * (2 * r.limit) using Nat.strongRecOn
    generalizing k events groups with
  | ind left ih =>
    have hgo := continues_iff hbound hevents hgroups
    rw [gather.eq_def]
    by_cases hfew : r.Suffices st (r.chunks st k)
    · rw [dif_neg (mt hgo.mp (not_not_intro hfew))]
      exact Reads.done ⟨_, .some k hfew hbefore, gathers_ok hevents hgroups⟩
    · rw [dif_pos (hgo.mpr hfew)]
      have hnext := chunks_succ r st k
      have hbefore' : ∀ j < k + 1, ¬ r.Suffices st (r.chunks st j) := by
        intro j hj
        rcases Nat.lt_succ_iff_lt_or_eq.mp hj with hj | rfl
        · exact hbefore j hj
        · exact hfew
      refine Reads.run_bind (reads_fetchEvents hopen howners hlimit hbound _)
        (fun chunk hchunk => ?_) fun e he => ?_
      · have hlength := length_decoded hchunk.symm
        have hdecoded : decoded (r.chunks st (k + 1)) = .ok (events ++ chunk) := by
          rw [hnext, decoded_append, hevents, ← hchunk]
          rfl
        have hread : (r.chunks st k).length = min (k * (2 * r.limit)) (r.rows st).length :=
          List.length_take
        rw [List.length_take, List.length_drop] at hlength
        by_cases hempty : chunk.length = 0
        · rw [dif_pos hempty]
          have hall : (r.rows st).length ≤ k * (2 * r.limit) := by omega
          exact Reads.done ⟨_, isRead_all hbefore hfew hall, gathers_ok hevents hgroups⟩
        · rw [dif_neg hempty]
          apply Reads.run_bind_ok ((finds_candidates st r.minValueUsd chunk).reads hopen)
          intro ts hts
          have hoffset : (r.chunks st k).length + chunk.length = (r.chunks st (k + 1)).length := by
            rw [← length_decoded hdecoded, ← length_decoded hevents, List.length_append]
          have hgroups' : (groups.pushAll ts).Collects
              (survivors st r.minValueUsd (events ++ chunk)) := by
            rw [survivors_append, ← hts]
            exact hgroups.pushAll ts
          have hsmaller : (r.rows st).length - (k + 1) * (2 * r.limit) < left := by
            rw [Nat.succ_mul]
            omega
          rw [hoffset]
          exact ih _ hsmaller hdecoded hbefore' hgroups' rfl
      · have hfail : decoded (r.chunks st (k + 1)) = .error e := by
          rw [hnext, decoded_append, hevents, ← he]
          rfl
        rcases exists_isRead r st with ⟨rows, hread⟩
        refine ⟨rows, hread, ?_⟩
        rw [Gathers, decoded_of_isRead hread hbefore' hfail]

/-- The window of a request in the records of some rows, the latest first. -/
def HistoryRequest.window (r : HistoryRequest) (st : Store) (rows : Events) : List Transaction :=
  (((records r.distinctOwners (r.shown st rows)).mergeSort laterFirst).drop r.skip).take r.limit

theorem prefix_of_isRead {rows : Events} (h : r.IsRead st rows) : rows <+: r.rows st := by
  cases h with
  | some k enough fewest => exact List.take_prefix _ _
  | all never => exact List.prefix_rfl

theorem rows_eq_nil (h : r.distinctOwners = []) : r.rows st = [] := by
  have hnone : st.events.filter r.query.matches = [] := by
    rw [List.filter_eq_nil_iff]
    intro row _
    simp [EventQuery.matches, HistoryRequest.query, h]
  rw [HistoryRequest.rows, Events.ordered, hnone, List.mergeSort_nil]

/-- A request that is run alone returns its window in the records of the rows that it reads. -/
theorem reads_readHistory (hopen : st.isOpen = true) (hbound : st.events.length < offsetBound)
    (r : HistoryRequest) : Reads source st g (readHistory r).run fun result =>
      ∃ rows, r.IsRead st rows ∧ result = if r.limit = 0 then .ok []
        else (decoded rows).map fun _ => r.window st rows := by
  rcases exists_isRead r st with ⟨read, hread⟩
  rw [readHistory]
  by_cases hlimit : r.limit = 0
  · rw [if_pos (.inr hlimit)]
    refine Reads.done ⟨read, hread, ?_⟩
    rw [if_pos hlimit]
  by_cases howners : r.distinctOwners = []
  · rw [if_pos (.inl (by rw [howners]; rfl))]
    refine Reads.done ⟨read, hread, ?_⟩
    have hnil : read = [] := List.prefix_nil.mp (rows_eq_nil howners ▸ prefix_of_isRead hread)
    have hnone : r.window st [] = [] := by
      have hrecords : records r.distinctOwners (r.shown st []) = [] := rfl
      rw [HistoryRequest.window, hrecords, List.mergeSort_nil, List.drop_nil, List.take_nil]
    rw [if_neg hlimit, hnil, decoded_nil]
    exact congrArg Except.ok hnone.symm
  · have hask : ¬ (r.distinctOwners.isEmpty = true ∨ r.limit = 0) := by
      rintro (h | h)
      · exact howners (List.isEmpty_iff.mp h)
      · exact hlimit h
    rw [if_neg hask]
    have hstart : r.chunks st 0 = [] := by rw [HistoryRequest.chunks, Nat.zero_mul, List.take_zero]
    have hnone : Groups.empty.Collects (survivors st r.minValueUsd []) := Groups.collects_empty
    have hgather : Reads source st g (gather r .empty (r.chunks st 0).length).run
        fun result => ∃ rows, r.IsRead st rows ∧ Gathers r st rows result :=
      reads_gather hopen howners (Nat.pos_of_ne_zero hlimit) hbound (hstart ▸ decoded_nil)
        (fun j hj => absurd hj (Nat.not_lt_zero j)) hnone
    rw [hstart] at hgather
    refine Reads.run_bind hgather (fun groups hgroups => ?_) fun e he => ?_
    · rcases hgroups with ⟨rows, hrows, hgathers⟩
      rcases hgathers.of_ok with ⟨events, hevents, hcollects⟩
      refine Reads.done ⟨rows, hrows, ?_⟩
      rw [if_neg hlimit, hevents, hcollects.canonicals, ← shown_of_decoded hevents]
      rfl
    · rcases he with ⟨rows, hrows, hgathers⟩
      refine ⟨rows, hrows, ?_⟩
      rw [if_neg hlimit, hgathers.of_error]
      rfl

/-- Over an open store and a cache of stored records, a request returns its window in the list of
one record for each transaction that the rows read show, the latest first; or it fails, if one of
these rows cannot be read. -/
theorem readHistory_window (source : PageSource φ) (r : HistoryRequest) {s : Shared φ}
    (hopen : s.store.isOpen = true) (hbound : s.store.events.length < offsetBound)
    (hcache : ∀ key record, s.cached? key = some record → s.store.record? key = some record) :
    ∃ rows, r.IsRead s.store rows ∧
      (s.exec source (readHistory r).run).1 =
        (if r.limit = 0 then .ok []
        else (decoded rows).map fun _ =>
          (((records r.distinctOwners (r.shown s.store rows)).mergeSort laterFirst).drop
            r.skip).take r.limit) ∧
      (records r.distinctOwners (r.shown s.store rows)).map Transaction.groupKey =
        groupKeys (r.shown s.store rows) ∧
      ∀ t ∈ records r.distinctOwners (r.shown s.store rows),
        IsRecordOf r.distinctOwners (groupOf (r.shown s.store rows) t.groupKey) t := by
  have hover : IsOver s.store s.generation s := ⟨rfl, rfl, hcache⟩
  have hread : Reads source s.store s.generation (readHistory r).run _ :=
    reads_readHistory hopen hbound r
  rcases hread s hover with ⟨-, rows, hrows, hresult⟩
  exact ⟨rows, hrows, hresult, map_groupKey_records _ _, fun t ht => isRecordOf_of_mem_records ht⟩

def pricedToken : Token :=
  { (default : Token) with id := "t", symbol := some "T", price := some 2 }

/-- Rows over a token that is stored, and cached as it is. -/
def overToken (rows : Events) : Shared Unit :=
  ⟨⟨true, rows, [], [pricedToken], []⟩, [(⟨.token, "t"⟩, .token pricedToken)], 0, [], false, ()⟩

theorem overToken_isCurrent (rows : Events) (key : Key) (record : Record)
    (h : (overToken rows).cached? key = some record) :
    (overToken rows).store.record? key = some record := by
  by_cases hkey : key = ⟨.token, "t"⟩
  · subst hkey
    exact h
  · simp [Shared.cached?, overToken, Ne.symm hkey] at h

/-- Two rows of a transfer between two owners, and one later row. -/
def transferred : Shared Unit :=
  overToken [⟨"x", "eth", "0xb", none, some 10, false, "{}"⟩,
    ⟨"y", "eth", "0xb", none, some 11, false, "{}"⟩,
    ⟨"x", "eth", "0xa", none, some 10, false, "{}"⟩]

theorem readHistory_transferred :
    transferred.store.isOpen = true ∧ transferred.store.events.length < offsetBound ∧
    (∀ key record, transferred.cached? key = some record →
      transferred.store.record? key = some record) ∧
    let r : HistoryRequest := ⟨["0xA", "0xB"], 0, 1, none, false, 0⟩
    ∃ rows, r.IsRead transferred.store rows ∧
      (transferred.exec noPages (readHistory r).run).1 =
        (if r.limit = 0 then .ok []
        else (decoded rows).map fun _ =>
          (((records r.distinctOwners (r.shown transferred.store rows)).mergeSort laterFirst).drop
            r.skip).take r.limit) ∧
      (records r.distinctOwners (r.shown transferred.store rows)).map Transaction.groupKey =
        groupKeys (r.shown transferred.store rows) ∧
      ∀ t ∈ records r.distinctOwners (r.shown transferred.store rows),
        IsRecordOf r.distinctOwners (groupOf (r.shown transferred.store rows) t.groupKey) t := by
  have hbound : transferred.store.events.length < offsetBound := by decide
  have hcache := overToken_isCurrent transferred.store.events
  exact ⟨rfl, hbound, hcache, readHistory_window noPages _ rfl hbound hcache⟩

end AddressLedger.History
