import AddressLedger.Proofs.History.Overlay
import AddressLedger.Proofs.History.Spellings
import AddressLedger.Proofs.History.Tiling

/-!
# Consistent records

Every record that a request returns is what one of the rows read shows. Only its label may be
another, and the description with it: that of a transfer between two owners, told by the row of the
sender next to others of the same transaction.
-/
namespace AddressLedger.History
open Catalog Service Store

variable {φ : Type} {s : Shared φ} {st : Store} {r : HistoryRequest} {owners : List String}
  {rows : Events} {t : Transaction}

theorem describe_enrich (ref : Reference) (e : Event) :
    describe (enrich ref e) = (enrich ref e).description := rfl

/-- A record is one of its group, or one of a sender who sent to an owner, relabelled. -/
theorem IsRecordOf.origin {group : List Transaction} (h : IsRecordOf owners group t) :
    t ∈ group ∨ ∃ u ∈ group, isSender u = true ∧ isInternal owners u = true ∧ 2 ≤ group.length ∧
      t = relabelled u := by
  cases h with
  | only t => exact .inl (.head _)
  | @sent before after u several sender first =>
    have hu : u ∈ before ++ u :: after := List.mem_append_right _ (.head _)
    split
    · rename_i hinternal
      exact .inr ⟨u, hu, sender, hinternal, several, rfl⟩
    · exact .inl hu
  | paid several received fee first => exact .inl (List.mem_append_right _ (.head _))
  | first several received free => exact .inl (.head _)

/-- What is shown as internal has one of the owners that were asked for on the other side. -/
theorem otherAddr_of_isInternal {ref : Reference} {e : Event}
    (h : isInternal r.distinctOwners (enrich ref e) = true) :
    ∃ o ∈ r.owners, (enrich ref e).otherAddr = some (normalizeAddress o) := by
  obtain ⟨a, ha, howner⟩ := (Option.any_eq_true _ _).mp h
  have hother : (sides e).2 = some a := ha
  rw [lower_sides hother, List.contains_iff_mem] at howner
  obtain ⟨-, o, ho, rfl⟩ := mem_distinctOwners.mp howner
  exact ⟨o, ho, ha⟩

/-- Whether a record is what a row shows, but for the label and the description, which are those of
a self transfer only if the row is of a sender to an owner and others are of its transaction. -/
def HistoryRequest.ShowsRow (r : HistoryRequest) (st : Store) (rows : Events) (t : Transaction)
    (row : Row) : Prop :=
  ∃ e, row.toEvent = .ok e ∧
    let own := enrich (storedReference st) e
    own ∈ r.shown st rows ∧ t = { own with kind := t.kind, description := t.description } ∧
    (t.kind ≠ own.kind ∨ t.description ≠ own.description →
      own.direction = .sender ∧
      (∃ o ∈ r.owners, own.otherAddr = some (normalizeAddress o)) ∧
      2 ≤ (groupOf (r.shown st rows) own.groupKey).length ∧ t.kind = selfTransferKind)

theorem consistent_of_mem_records (h : t ∈ records r.distinctOwners (r.shown st rows)) :
    t.description = describe t ∧ t.dateTime = Calendar.dateTimeText t.timestamp ∧
      ∃ row ∈ rows, r.ShowsRow st rows t row := by
  have hgroup : ∀ u ∈ groupOf (r.shown st rows) t.groupKey, u ∈ r.shown st rows :=
    fun u hu => (mem_groupOf.mp hu).1
  rcases (isRecordOf_of_mem_records h).origin with ht | ⟨u, hu, hsender, hinternal, several, rfl⟩
  · rcases exists_event_of_mem_shown (hgroup t ht) with ⟨row, hrow, e, hevent, rfl⟩
    refine ⟨(describe_enrich _ e).symm, rfl, row, hrow, e, hevent, hgroup _ ht, rfl, ?_⟩
    rintro (hother | hother)
    · exact absurd rfl hother
    · exact absurd rfl hother
  · rcases exists_event_of_mem_shown (hgroup u hu) with ⟨row, hrow, e, hevent, rfl⟩
    refine ⟨rfl, rfl, row, hrow, e, hevent, hgroup _ hu, rfl, fun _ => ?_⟩
    exact ⟨by simpa [isSender] using hsender, otherAddr_of_isInternal hinternal, several, rfl⟩

theorem mem_records_of_mem_window (h : t ∈ r.window st rows) :
    t ∈ records r.distinctOwners (r.shown st rows) :=
  List.mem_mergeSort.mp (List.mem_of_mem_drop (List.mem_of_mem_take h))

/-- What a request returns is of its window in the records of the rows that it reads. -/
theorem exists_window_of_readHistory (source : PageSource φ) (hkeyed : s.IsKeyed)
    (hbound : s.store.events.length < offsetBound) {ts : List Transaction}
    (hts : (s.exec source (readHistory r).run).1 = .ok ts) :
    ∃ rows, r.IsRead s.overlaid rows ∧ ∀ t ∈ ts, t ∈ r.window s.overlaid rows := by
  cases hopen : s.store.isOpen with
  | false =>
    obtain ⟨rows, hread⟩ := exists_isRead r s.overlaid
    refine ⟨rows, hread, fun t ht => ?_⟩
    rw [readHistory_closed source r hopen] at hts
    split at hts
    · cases hts
      cases ht
    · cases hts
  | true =>
    obtain ⟨rows, hread, hresult⟩ := readHistory_overlaid source r hkeyed hopen hbound
    refine ⟨rows, hread, fun t ht => ?_⟩
    rw [hresult] at hts
    split at hts
    · cases hts
      cases ht
    · cases hdecoded : decoded rows with
      | error e =>
        rw [hdecoded] at hts
        cases hts
      | ok events =>
        rw [hdecoded] at hts
        cases hts
        exact ht

/-- Whatever is stored and whatever is cached, every record that a request returns has the
description that follows from its label and the date of its time, and is otherwise what one of the
rows read shows, a stored row that matches the request. Its label is the row's own, unless the row
is of a sender to one of the owners and at least two rows show the transaction: then it is that of a
self transfer. -/
theorem records_are_consistent (source : PageSource φ) (r : HistoryRequest) (hkeyed : s.IsKeyed)
    (hbound : s.store.events.length < offsetBound) {ts : List Transaction}
    (hts : (s.exec source (readHistory r).run).1 = .ok ts) :
    ∃ rows, r.IsRead s.overlaid rows ∧ ∀ t ∈ ts,
      t.description = describe t ∧ t.dateTime = Calendar.dateTimeText t.timestamp ∧
      ∃ row ∈ rows, row ∈ s.store.events ∧ r.query.matches row = true ∧
        r.ShowsRow s.overlaid rows t row := by
  obtain ⟨rows, hread, hwindow⟩ := exists_window_of_readHistory source hkeyed hbound hts
  refine ⟨rows, hread, fun t ht => ?_⟩
  obtain ⟨hdescription, hdate, row, hrow, hshows⟩ :=
    consistent_of_mem_records (mem_records_of_mem_window (hwindow t ht))
  have hstored := mem_ordered.mp ((prefix_of_isRead hread).subset hrow)
  rw [Shared.overlaid_events] at hstored
  exact ⟨hdescription, hdate, row, hrow, hstored.1, hstored.2, hshows⟩

/-- A transfer that a single row tells of, and one between two owners that both of them tell of,
over a token that is stored under another symbol than it is cached. -/
def ownTransfers : Shared Unit :=
  ⟨⟨true, [transferRow "y" "bsc" "0xa" "sends" 11, transferRow "x" "eth" "0xb" "receives" 10,
      transferRow "x" "eth" "0xa" "sends" 10], [], [{ pricedToken with symbol := some "OLD" }], []⟩,
    [(⟨.token, "t"⟩, .token pricedToken)], 0, [], false, ()⟩

theorem ownTransfers_isKeyed : ownTransfers.IsKeyed := by
  intro key record h
  by_cases hkey : key = ⟨.token, "t"⟩
  · subst hkey
    cases h
    exact ⟨rfl, rfl⟩
  · simp [Shared.cached?, ownTransfers, Ne.symm hkey] at h

theorem rows_ownTransfers :
    bothOwners.rows ownTransfers.overlaid = ownTransfers.store.events :=
  rows_eq_events (query_bothOwners ▸ by decide) (by decide)

theorem window_ownTransfers :
    bothOwners.window ownTransfers.overlaid ownTransfers.store.events = records ["0xa", "0xb"]
      (bothOwners.shown ownTransfers.overlaid ownTransfers.store.events) := by
  generalize hrecords : records ["0xa", "0xb"] (bothOwners.shown ownTransfers.overlaid
    ownTransfers.store.events) = ts
  obtain ⟨hsorted, hlength⟩ :
      ts.Pairwise (fun a b => laterFirst a b) ∧ ts.length ≤ bothOwners.limit := by
    rw [← hrecords]
    decide +kernel
  rw [window_of_pairwise (by rw [distinctOwners_bothOwners, hrecords]; exact hsorted),
    distinctOwners_bothOwners, hrecords]
  exact List.take_of_length_le hlength

theorem readHistory_ownTransfers :
    (ownTransfers.exec noPages (readHistory bothOwners).run).1 =
      .ok (records ["0xa", "0xb"]
        (bothOwners.shown ownTransfers.overlaid ownTransfers.store.events)) := by
  obtain ⟨rows, hread, hresult⟩ :=
    readHistory_overlaid noPages bothOwners ownTransfers_isKeyed rfl (by decide)
  obtain rfl := eq_rows_of_isRead hread (by decide) (by rw [rows_ownTransfers]; decide)
  have hreadable : ∀ row ∈ ownTransfers.store.events, row.toEvent.toBool = true := by
    decide +kernel
  obtain ⟨events, hevents⟩ := decoded_of_readable hreadable
  rw [hresult, rows_ownTransfers, hevents, window_ownTransfers]
  rfl

/-- Only the transfer that both owners tell of is relabelled. -/
theorem records_of_ownTransfers :
    ownTransfers.IsKeyed ∧ ownTransfers.store.events.length < offsetBound ∧
    ∃ ts, (ownTransfers.exec noPages (readHistory bothOwners).run).1 = .ok ts ∧
      ts.map (fun t => (t.hash, t.kind, t.description)) =
        [("y", "Send", "Send 1 T to 0xb"), ("x", "Self Transfer", "Move 1 T between own wallets")] ∧
      ∃ rows, bothOwners.IsRead ownTransfers.overlaid rows ∧ ∀ t ∈ ts,
        t.description = describe t ∧ t.dateTime = Calendar.dateTimeText t.timestamp ∧
        ∃ row ∈ rows, row ∈ ownTransfers.store.events ∧ bothOwners.query.matches row = true ∧
          bothOwners.ShowsRow ownTransfers.overlaid rows t row := by
  have hbound : ownTransfers.store.events.length < offsetBound := by decide
  refine ⟨ownTransfers_isKeyed, hbound, _, readHistory_ownTransfers, by decide +kernel, ?_⟩
  exact records_are_consistent noPages bothOwners ownTransfers_isKeyed hbound
    readHistory_ownTransfers

end AddressLedger.History
