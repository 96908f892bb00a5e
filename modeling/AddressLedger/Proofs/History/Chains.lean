import AddressLedger.Proofs.History.Consistency

/-!
# Histories of one chain

A group is of one chain. So what is read of one chain are the groups of this chain, in their order,
and the records of these groups are those that all groups show for the chain.
-/
namespace AddressLedger.History
open Catalog Service Store

variable {φ : Type} {s : Shared φ} {st : Store} {r : HistoryRequest} {rows : Events}
  {ts : List Transaction} {t : Transaction} {key : GroupKey} {owners : List String} {c : String}

def ofChain (c : String) (ts : List Transaction) : List Transaction :=
  ts.filter fun t => t.chain == c

theorem mem_groupKeys_ofChain :
    key ∈ groupKeys (ofChain c ts) ↔ key ∈ groupKeys ts ∧ key.chain = c := by
  simp only [mem_groupKeys, ofChain, List.mem_filter, beq_iff_eq]
  constructor
  · rintro ⟨t, ⟨ht, hchain⟩, rfl⟩
    exact ⟨⟨t, ht, rfl⟩, hchain⟩
  · rintro ⟨⟨t, ht, rfl⟩, hchain⟩
    exact ⟨t, ⟨ht, hchain⟩, rfl⟩

theorem groupKeys_ofChain (c : String) (ts : List Transaction) :
    groupKeys (ofChain c ts) = (groupKeys ts).filter fun key => key.chain == c := by
  induction ts using List.reverseRecOn with
  | nil => rfl
  | append_singleton ts t ih =>
    by_cases hchain : t.chain = c
    · have hlast : ofChain c (ts ++ [t]) = ofChain c ts ++ [t] := by simp [ofChain, hchain]
      have hown : t.groupKey.chain = c := hchain
      rw [hlast]
      by_cases hknown : t.groupKey ∈ groupKeys ts
      · rw [groupKeys_append_of_mem (mem_groupKeys_ofChain.mpr ⟨hknown, hown⟩),
          groupKeys_append_of_mem hknown, ih]
      · rw [groupKeys_append_of_not_mem fun h => hknown (mem_groupKeys_ofChain.mp h).1,
          groupKeys_append_of_not_mem hknown, ih]
        simp [hown]
    · have hlast : ofChain c (ts ++ [t]) = ofChain c ts := by simp [ofChain, hchain]
      have hown : t.groupKey.chain ≠ c := hchain
      rw [hlast, ih]
      by_cases hknown : t.groupKey ∈ groupKeys ts
      · rw [groupKeys_append_of_mem hknown]
      · rw [groupKeys_append_of_not_mem hknown]
        simp [hown]

theorem groupOf_ofChain (h : key.chain = c) : groupOf (ofChain c ts) key = groupOf ts key := by
  rw [groupOf, ofChain, List.filter_filter, groupOf]
  apply List.filter_congr
  intro t _
  by_cases hkey : t.groupKey = key
  · have hchain : t.chain = c := by rw [← h, ← hkey]; rfl
    simp [hkey, hchain]
  · simp [hkey]

theorem chain_of_canonical (hkey : key ∈ groupKeys ts)
    (h : canonical owners (groupOf ts key) = some t) : t.chain = key.chain := by
  obtain ⟨u, hu, hrecord⟩ := canonical_isRecordOf owners (groupOf_ne_nil hkey)
  obtain rfl : u = t := Option.some.inj (hu.symm.trans h)
  obtain ⟨v, hv, hsame, -⟩ := hrecord.source
  exact congrArg GroupKey.chain (hsame.symm.trans (mem_groupOf.mp hv).2)

/-- The records of one chain are those of its transactions. -/
theorem records_ofChain (owners : List String) (c : String) (ts : List Transaction) :
    records owners (ofChain c ts) = ofChain c (records owners ts) := by
  change _ = (records owners ts).filter fun t => t.chain == c
  rw [records, groupKeys_ofChain, List.filterMap_filter, records, List.filter_filterMap]
  apply List.filterMap_congr
  intro key hkey
  cases hrecord : canonical owners (groupOf ts key) with
  | none =>
    by_cases hchain : key.chain = c
    · simp [hchain, groupOf_ofChain hchain, hrecord]
    · simp [hchain]
  | some t =>
    have hown := chain_of_canonical hkey hrecord
    by_cases hchain : key.chain = c
    · simp [Option.filter, hchain, groupOf_ofChain hchain, hrecord, hown]
    · simp [Option.filter, hchain, hown]

/-- The same request for all chains or for one. -/
def HistoryRequest.onChain (r : HistoryRequest) (chain : Option String) : HistoryRequest :=
  { r with chain := chain }

theorem rows_onChain (r : HistoryRequest) (c : String) (st : Store) :
    (r.onChain (some c)).rows st = ((r.onChain none).rows st).filter fun row => row.chain == c := by
  rw [HistoryRequest.rows, Events.ordered, HistoryRequest.rows, Events.ordered,
    filter_mergeSort (fun a b c => timeLe_trans a.timeAt b.timeAt c.timeAt)
      (fun a b => timeLe_total a.timeAt b.timeAt), List.filter_filter]
  congr 1
  apply List.filter_congr
  intro row _
  simp only [EventQuery.matches, HistoryRequest.query, HistoryRequest.onChain, Option.all_some,
    Option.all_none, Bool.and_true, BEq.comm (a := c)]
  simp only [Bool.and_left_comm, Bool.and_assoc]
  rfl

theorem readable_filter_chain (c : String) (rows : Events) :
    readable (rows.filter fun row => row.chain == c) =
      (readable rows).filter fun e => e.chain == c := by
  rw [readable, List.filterMap_filter, readable, List.filter_filterMap]
  apply List.filterMap_congr
  intro row _
  cases hevent : row.toEvent with
  | error e => simp [Except.toOption]
  | ok e =>
    obtain ⟨-, hchain, -⟩ := toEvent_eq_ok hevent
    by_cases hc : row.chain = c <;> simp [Except.toOption, Option.filter, hchain, hc]

/-- What the rows of one chain show is what all rows show of it. -/
theorem shown_filter_chain (r : HistoryRequest) (st : Store) (c : String) (rows : Events) :
    r.shown st (rows.filter fun row => row.chain == c) = ofChain c (r.shown st rows) := by
  rw [HistoryRequest.shown, readable_filter_chain, survivors, HistoryRequest.shown, survivors,
    ofChain, List.filter_map, List.filter_map, List.filter_map, List.filter_filter,
    List.filter_filter, List.filter_filter, List.filter_filter]
  congr 1
  apply List.filter_congr
  intro e _
  have hchain : (enrich (storedReference st) e).chain = e.chain := rfl
  simp only [Function.comp_apply, hchain]
  ac_rfl

theorem decoded_filter {events : List Event} (h : decoded rows = .ok events) (p : Row → Bool) :
    ∃ kept, decoded (rows.filter p) = .ok kept :=
  decoded_of_readable fun row hrow => toBool_of_decoded h row (List.mem_filter.mp hrow).1

theorem length_whole_le (r : HistoryRequest) (st : Store) :
    (r.whole st).length ≤ st.events.length := by
  calc (r.whole st).length
    _ = (groupKeys (r.shown st (r.rows st))).length := by
      rw [HistoryRequest.whole, List.length_mergeSort, ← List.length_map Transaction.groupKey,
        map_groupKey_records]
    _ ≤ (r.shown st (r.rows st)).length := length_groupKeys_le _
    _ ≤ (readable (r.rows st)).length := length_survivors_le st _ _
    _ ≤ (r.rows st).length := List.length_filterMap_le _ _
    _ ≤ st.events.length := length_rows_le r st

theorem whole_onChain (r : HistoryRequest) (c : String) (st : Store) :
    (r.onChain (some c)).whole st = ofChain c ((r.onChain none).whole st) := by
  have howners : ∀ chain, (r.onChain chain).distinctOwners = r.distinctOwners := fun _ => rfl
  have hshown : ∀ chain rows, (r.onChain chain).shown st rows = r.shown st rows := fun _ _ => rfl
  rw [HistoryRequest.whole, howners, hshown, rows_onChain, shown_filter_chain, records_ofChain,
    HistoryRequest.whole, howners, hshown, ofChain, ofChain,
    filter_mergeSort (fun a b c => timeLe_trans a.timestamp b.timestamp c.timestamp)
      (fun a b => timeLe_total a.timestamp b.timestamp)]

/-- A request with room for all rows returns all transactions. -/
theorem readHistory_whole (source : PageSource φ) (r : HistoryRequest) (hkeyed : s.IsKeyed)
    (hopen : s.store.isOpen = true) (hbound : s.store.events.length < offsetBound)
    (hskip : r.skip = 0) (hroom : s.store.events.length ≤ r.limit) :
    (s.exec source (readHistory r).run).1 =
      (decoded (r.rows s.overlaid)).map fun _ => r.whole s.overlaid := by
  obtain ⟨rows, hread, hresult⟩ := readHistory_overlaid source r hkeyed hopen hbound
  have hrows := length_rows_le r s.overlaid
  have hwhole := length_whole_le r s.overlaid
  rw [Shared.overlaid_events] at hrows hwhole
  rw [hresult]
  by_cases hlimit : r.limit = 0
  · have hnone : r.rows s.overlaid = [] := List.eq_nil_of_length_eq_zero (by omega)
    have hempty : r.whole s.overlaid = [] := List.eq_nil_of_length_eq_zero (by omega)
    rw [if_pos hlimit, hnone, hempty]
    rfl
  · obtain rfl : rows = r.rows s.overlaid :=
      eq_rows_of_isRead hread (Nat.pos_of_ne_zero hlimit) (by omega)
    have hall : r.window s.overlaid (r.rows s.overlaid) = r.whole s.overlaid := by
      rw [HistoryRequest.window, hskip, List.drop_zero]
      exact List.take_of_length_le (Nat.le_trans hwhole hroom)
    rw [if_neg hlimit, hall]

theorem readHistory_onChain_closed (source : PageSource φ) (r : HistoryRequest) (c : String)
    (hclosed : s.store.isOpen = false) :
    (s.exec source (readHistory (r.onChain (some c))).run).1 =
      (s.exec source (readHistory (r.onChain none)).run).1.map (ofChain c) := by
  have howners : ∀ chain, (r.onChain chain).distinctOwners = r.distinctOwners := fun _ => rfl
  have hlimit : ∀ chain, (r.onChain chain).limit = r.limit := fun _ => rfl
  rw [readHistory_closed source _ hclosed, readHistory_closed source _ hclosed, howners, howners,
    hlimit, hlimit]
  split <;> rfl

/-- What is returned for all chains is returned for one, less what is of others. -/
theorem readHistory_onChain (source : PageSource φ) (c : String) (hkeyed : s.IsKeyed)
    (hbound : s.store.events.length < offsetBound) (hskip : r.skip = 0)
    (hroom : s.store.events.length ≤ r.limit)
    (hts : (s.exec source (readHistory (r.onChain none)).run).1 = .ok ts) :
    (s.exec source (readHistory (r.onChain (some c))).run).1 = .ok (ofChain c ts) := by
  cases hopen : s.store.isOpen with
  | false =>
    rw [readHistory_onChain_closed source r c hopen, hts]
    rfl
  | true =>
    rw [readHistory_whole source (r.onChain none) hkeyed hopen hbound hskip hroom] at hts
    rw [readHistory_whole source (r.onChain (some c)) hkeyed hopen hbound hskip hroom,
      whole_onChain, rows_onChain]
    cases hevents : decoded ((r.onChain none).rows s.overlaid) with
    | error e =>
      rw [hevents] at hts
      cases hts
    | ok events =>
      rw [hevents] at hts
      obtain ⟨kept, hkept⟩ := decoded_filter hevents fun row => row.chain == c
      obtain rfl := Except.ok.inj hts
      rw [hkept]
      rfl

/-- An open store whose rows can all be read answers every request with room for them. -/
theorem exists_readHistory (source : PageSource φ) (r : HistoryRequest) (hkeyed : s.IsKeyed)
    (hopen : s.store.isOpen = true) (hbound : s.store.events.length < offsetBound)
    (hskip : r.skip = 0) (hroom : s.store.events.length ≤ r.limit)
    (hitems : ∀ row ∈ s.store.events, row.toEvent.toBool = true) :
    ∃ ts, (s.exec source (readHistory r).run).1 = .ok ts := by
  have hstored : ∀ row ∈ r.rows s.overlaid, row ∈ s.store.events :=
    fun row hrow => s.overlaid_events ▸ (mem_ordered.mp hrow).1
  obtain ⟨events, hevents⟩ := decoded_of_readable fun row hrow => hitems row (hstored row hrow)
  rw [readHistory_whole source r hkeyed hopen hbound hskip hroom, hevents]
  exact ⟨_, rfl⟩

/-- If all stored rows can be read, a request for one chain also fails as the one for all does. -/
theorem readHistory_onChain_of_readable (source : PageSource φ) (r : HistoryRequest) (c : String)
    (hkeyed : s.IsKeyed) (hbound : s.store.events.length < offsetBound) (hskip : r.skip = 0)
    (hroom : s.store.events.length ≤ r.limit)
    (hitems : ∀ row ∈ s.store.events, row.toEvent.toBool = true) :
    (s.exec source (readHistory (r.onChain (some c))).run).1 =
      (s.exec source (readHistory (r.onChain none)).run).1.map (ofChain c) := by
  cases hopen : s.store.isOpen with
  | false => exact readHistory_onChain_closed source r c hopen
  | true =>
    obtain ⟨ts, hts⟩ := exists_readHistory source (r.onChain none) hkeyed hopen hbound hskip hroom
      hitems
    rw [readHistory_onChain source c hkeyed hbound hskip hroom hts, hts]
    rfl

/-- Whatever is stored and whatever is cached, a request for one chain with room for all rows
returns what the same request returns for all chains, less what is of other chains: the same records
in the same order. If all stored rows can be read, it fails only as the other request does, and over
an open store it does not fail. -/
theorem chain_filter_is_filter (source : PageSource φ) (r : HistoryRequest) (c : String)
    (hkeyed : s.IsKeyed) (hbound : s.store.events.length < offsetBound) (hskip : r.skip = 0)
    (hroom : s.store.events.length ≤ r.limit) :
    let all := (s.exec source (readHistory (r.onChain none)).run).1
    let one := (s.exec source (readHistory (r.onChain (some c))).run).1
    (∀ ts, all = .ok ts → one = .ok (ts.filter fun t => t.chain == c)) ∧
    ((∀ row ∈ s.store.events, row.toEvent.toBool = true) →
      one = all.map (fun ts => ts.filter fun t => t.chain == c) ∧
      (s.store.isOpen = true → ∃ ts, all = .ok ts)) := by
  intro all one
  refine ⟨fun ts => readHistory_onChain source c hkeyed hbound hskip hroom, fun hitems => ⟨?_, ?_⟩⟩
  · exact readHistory_onChain_of_readable source r c hkeyed hbound hskip hroom hitems
  · intro hopen
    exact exists_readHistory source (r.onChain none) hkeyed hopen hbound hskip hroom hitems

/-- Of the two transfers, one is on this chain. -/
theorem chain_of_ownTransfers :
    ownTransfers.IsKeyed ∧ ownTransfers.store.events.length < offsetBound ∧ bothOwners.skip = 0 ∧
    ownTransfers.store.events.length ≤ bothOwners.limit ∧
    ∃ ts, (ownTransfers.exec noPages (readHistory (bothOwners.onChain none)).run).1 = .ok ts ∧
      ts.map (fun t => (t.hash, t.chain)) = [("y", "bsc"), ("x", "eth")] ∧
      (ownTransfers.exec noPages (readHistory (bothOwners.onChain (some "eth"))).run).1 =
        .ok (ts.filter fun t => t.chain == "eth") := by
  have hbound : ownTransfers.store.events.length < offsetBound := by decide
  have hroom : ownTransfers.store.events.length ≤ bothOwners.limit := by decide
  refine ⟨ownTransfers_isKeyed, hbound, rfl, hroom, _, readHistory_ownTransfers,
    by decide +kernel, ?_⟩
  exact (chain_filter_is_filter noPages bothOwners "eth" ownTransfers_isKeyed hbound rfl hroom).1 _
    readHistory_ownTransfers

end AddressLedger.History
