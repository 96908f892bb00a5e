import AddressLedger.Proofs.Catalog.Settling
import AddressLedger.Proofs.Feed.Payload
import AddressLedger.Proofs.History.Window
import AddressLedger.Proofs.Service.Growth
import AddressLedger.Proofs.Service.Underway
import AddressLedger.Proofs.Store.Order
import AddressLedger.Proofs.Store.Reading
import AddressLedger.Proofs.Sync.Effect

/-!
# Histories read while rows are added

A request reads its rows chunk by chunk, by their number, while other calls insert rows anywhere in
the order of reading. Rows only move back, into what is still to be read: a row that was there
before the request is fetched at least once before the request has read past it. A row that moves
back may be fetched again and joins its own group, so no transaction is shown twice.
-/
namespace AddressLedger.History
open Catalog Feed Service Store Sync

variable {φ α : Type} {source : PageSource φ} {st : Store} {r : HistoryRequest}

/-- An access that writes what is stored anyway, if it writes a record, and caches what is stored,
if it caches one. -/
def LeavesCatalog (st : Store) : Access → Prop
  | .writeRecord record => st.record? (Key.ofRecord record) = some (storedRecord record)
  | .keep key record => st.record? key = some record
  | _ => True

theorem leavesCatalog_of_consults {a : Access} (h : Consults st a) : LeavesCatalog st a := by
  cases a with
  | keep key record => exact h
  | writeRecord record => exact h.elim
  | _ => trivial

theorem perform_isCurrent {s : Shared φ} (h : IsCurrent st s) {a : Access}
    (ha : LeavesCatalog st a) : IsCurrent st (s.perform source a).2 := by
  refine ⟨(Shared.perform_isOpen source a s).trans h.isOpen, fun key => ?_, fun key record hr => ?_⟩
  · by_cases hwrite : IsWriteOf key ⟨a, (s.perform source a).1⟩
    · cases a with
      | writeRecord record =>
        have hwritten : (s.perform source (.writeRecord record)).2.store =
            s.store.putRecord record := by
          simp only [Shared.perform, Store.writeRecord, h.isOpen, if_true]
        have hkey : Key.ofRecord record = key := by
          simpa [Shared.perform, Store.writeRecord, whenOpen, h.isOpen, IsWriteOf] using hwrite
        rw [hwritten, ← hkey, record?_putRecord_self, ha]
      | _ => exact hwrite.elim
    · rw [record?_perform hwrite, h.stored]
  · obtain rfl | ⟨hcached, -⟩ := cached?_perform hr
    · exact ha
    · exact h.cached key record hcached

theorem drift_isCurrent {s s' : Shared φ} (h : IsCurrent st s) (hdrift : Pool.Drift s s') :
    IsCurrent st s' :=
  ⟨hdrift.store_eq ▸ h.isOpen, fun key => hdrift.store_eq ▸ h.stored key,
    fun key record hr => h.cached key record (cached?_drift hdrift hr)⟩

def chunk? : Made → Option (List Event)
  | ⟨.fetchEvents _ _ _, .ok chunk⟩ => some chunk
  | _ => none

def chunksOf (j : Nat) (entries : List (Nat × Made)) : List (List Event) :=
  (Pool.ofCall j entries).filterMap chunk?

structure Reader where
  /-- Whether each answer told what the store holds. -/
  told : Prop
  chunks : List (List Event)

namespace Reader

def events (x : Reader) : List Event := x.chunks.flatten

def next (st : Store) (x : Reader) (e : Made) : Reader :=
  ⟨x.told ∧ Tells st e, x.chunks ++ (chunk? e).toList⟩

/-- A reader looks up what the store holds, or fetches the next chunk, unless one was empty. -/
def admits (st : Store) (r : HistoryRequest) (x : Reader) (a : Access) : Prop :=
  x.told → [] ∉ x.chunks ∧ (Consults st a ∨
    r.distinctOwners ≠ [] ∧ 0 < r.limit ∧ a = .fetchEvents r.query x.events.length r.chunkSize)

theorem chunks_foldl (x : Reader) (made : List Made) :
    (made.foldl (next st) x).chunks = x.chunks ++ made.filterMap chunk? := by
  induction made generalizing x with
  | nil => exact (List.append_nil _).symm
  | cons e made ih =>
    rw [List.foldl_cons, ih, next]
    cases h : chunk? e <;> simp [h]

end Reader

def reading (st : Store) (r : HistoryRequest) : Monitor Reader :=
  ⟨Reader.next st, Reader.admits st r⟩

theorem chunk?_of_consults {a : Access} (h : Consults st a) (answer : a.Answer) :
    chunk? ⟨a, answer⟩ = none := by
  cases a with
  | fetchEvents query offset limit => exact h.elim
  | _ => rfl

theorem follows_of_not_told (p : Procedure α) {x : Reader} (hx : ¬ x.told) :
    p.Follows (reading st r) (fun _ y => ¬ y.told) x := by
  induction p generalizing x with
  | done result => exact hx
  | access a next ih =>
    exact ⟨fun h => absurd h hx, fun answer => ih answer fun h => hx h.1⟩

theorem follows_of_finds {p : Procedure α} {post : α → Prop} (h : Finds st post p) {x : Reader}
    (hx : x.told → [] ∉ x.chunks) : p.Follows (reading st r)
      (fun result y => y.told → x.told ∧ y.chunks = x.chunks ∧ post result) x := by
  induction p generalizing x with
  | done result => exact fun htold => ⟨htold, rfl, h⟩
  | access a next ih =>
    refine ⟨fun htold => ⟨hx htold, .inl h.1⟩, fun answer => ?_⟩
    have hchunks : (x.next st ⟨a, answer⟩).chunks = x.chunks := by
      simp [Reader.next, chunk?_of_consults h.1]
    by_cases htells : Tells st ⟨a, answer⟩
    · apply (ih answer (h.2 answer htells) (x := x.next st ⟨a, answer⟩) ?_).mono
      · intro result y hy htold
        obtain ⟨hnext, hsame, hpost⟩ := hy htold
        exact ⟨hnext.1, hsame.trans hchunks, hpost⟩
      · intro hnext
        rw [hchunks]
        exact hx hnext.1
    · apply (follows_of_not_told (next answer) (x := x.next st ⟨a, answer⟩) ?_).mono
      · exact fun result y hy htold => absurd htold hy
      · exact fun hnext => htells hnext.2

variable {groups : Groups} {offset : Nat} {x y : Reader} {query : EventQuery} {from' limit : Int}
  {chunk : List Event}

theorem Reader.events_next_fetch (st : Store) (x : Reader) :
    (x.next st ⟨.fetchEvents query from' limit, .ok chunk⟩).events = x.events ++ chunk := by
  simp [Reader.events, Reader.next, chunk?]

structure IsAt (st : Store) (r : HistoryRequest) (groups : Groups) (offset : Nat) (x : Reader) :
    Prop where
  nonempty : [] ∉ x.chunks
  offset_eq : offset = x.events.length
  collects : groups.Collects (survivors st r.minValueUsd x.events)

/-- What a reader ends with: the groups of all that it has received, or a failure. -/
def HasGathered (st : Store) (r : HistoryRequest) (result : Except StoreError Groups) (x : Reader) :
    Prop :=
  x.told → match result with
    | .ok groups => groups.Collects (survivors st r.minValueUsd x.events)
    | .error _ => [] ∉ x.chunks

theorem IsAt.add (h : IsAt st r groups offset x) (hchunk : chunk.length ≠ 0)
    (hsame : y.chunks = (x.next st ⟨.fetchEvents query from' limit, .ok chunk⟩).chunks) :
    IsAt st r (groups.pushAll (survivors st r.minValueUsd chunk)) (offset + chunk.length) y := by
  have hevents : y.events = x.events ++ chunk := by
    rw [← Reader.events_next_fetch st x, Reader.events, hsame, Reader.events]
  constructor
  · intro hmem
    have hne : [] ≠ chunk := fun e => hchunk (e ▸ rfl)
    exact h.nonempty (by simpa [hsame, Reader.next, chunk?, hne] using hmem)
  · rw [hevents, List.length_append, h.offset_eq]
  · rw [hevents, survivors_append]
    exact h.collects.pushAll _

theorem gather_follows (howners : r.distinctOwners ≠ []) (hlimit : 0 < r.limit)
    (hx : x.told → IsAt st r groups offset x) :
    (gather r groups offset).run.Follows (reading st r) (HasGathered st r) x := by
  induction groups, offset using gather.induct r generalizing x with
  | case1 groups offset h ih =>
    rw [gather, dif_pos h]
    refine Procedure.Follows.run_bind ⟨fun htold => ?_, fun answer => ?_⟩
    · exact ⟨(hx htold).nonempty, .inr ⟨howners, hlimit, by rw [(hx htold).offset_eq]⟩⟩
    · cases answer with
      | error e =>
        intro htold
        simpa [reading, Reader.next, chunk?] using (hx htold.1).nonempty
      | ok chunk =>
        simp only [Procedure.Follows]
        split
        · rename_i hempty
          intro htold
          simp only [reading, Reader.events_next_fetch, List.length_eq_zero_iff.1 hempty,
            List.append_nil]
          exact (hx htold.1).collects
        · rename_i hchunk
          let fetched : Made := ⟨.fetchEvents r.query offset r.chunkSize, .ok chunk⟩
          have hnext : (x.next st fetched).told → [] ∉ (x.next st fetched).chunks :=
            fun htold => ((hx htold.1).add hchunk rfl).nonempty
          have hfound := follows_of_finds (r := r) (finds_candidates st r.minValueUsd chunk) hnext
          generalize candidates r.minValueUsd chunk = found at hfound ⊢
          apply Procedure.Follows.run_bind
          apply hfound.mono
          intro result y hy
          cases result with
          | error e =>
            intro htold
            obtain ⟨-, -, ts, hts, -⟩ := hy htold
            cases hts
          | ok ts =>
            refine ih chunk hchunk ts fun htold => ?_
            obtain ⟨htold', hsame, ts', hts, rfl⟩ := hy htold
            obtain rfl := Except.ok.inj hts
            exact (hx htold'.1).add hchunk hsame
  | case2 groups offset h =>
    rw [gather, dif_neg h]
    exact fun htold => (hx htold).collects

/-- What a request gives back of all that it has received: its window, or a failure. -/
def HasAnswered (st : Store) (r : HistoryRequest) (result : Except StoreError (List Transaction))
    (x : Reader) : Prop :=
  x.told → match result with
    | .ok ts => ts = (((records r.distinctOwners
        (survivors st r.minValueUsd x.events)).mergeSort laterFirst).drop r.skip).take r.limit
    | .error _ => [] ∉ x.chunks

theorem HasAnswered.nodup {ts : List Transaction} (h : HasAnswered st r (.ok ts) x)
    (htold : x.told) : (ts.map Transaction.groupKey).Nodup := by
  have hkeys : ((records r.distinctOwners (survivors st r.minValueUsd x.events)).map
      Transaction.groupKey).Nodup := by
    rw [map_groupKey_records]
    exact nodup_eraseDups _
  rw [← ((List.mergeSort_perm _ laterFirst).map Transaction.groupKey).nodup_iff] at hkeys
  rw [h htold]
  exact hkeys.sublist (((List.take_sublist _ _).trans (List.drop_sublist _ _)).map _)

/-- An answer from the first transaction on that has room for all of them. -/
theorem HasAnswered.mem_of_room {ts : List Transaction} (h : HasAnswered st r (.ok ts) x)
    (htold : x.told) (hskip : r.skip = 0)
    (hroom : (groupKeys (survivors st r.minValueUsd x.events)).length ≤ r.limit)
    {t : Transaction}
    (ht : t ∈ records r.distinctOwners (survivors st r.minValueUsd x.events)) : t ∈ ts := by
  have hall : ((records r.distinctOwners (survivors st r.minValueUsd x.events)).mergeSort
      laterFirst).length ≤ r.limit := by
    rw [List.length_mergeSort, ← List.length_map Transaction.groupKey, map_groupKey_records]
    exact hroom
  rw [h htold, hskip, List.drop_zero, List.take_of_length_le hall]
  exact List.mem_mergeSort.2 ht

theorem readHistory_follows (st : Store) (r : HistoryRequest) (told : Prop) :
    (readHistory r).run.Follows (reading st r) (HasAnswered st r) ⟨told, []⟩ := by
  rw [readHistory]
  by_cases hask : r.distinctOwners.isEmpty = true ∨ r.limit = 0
  · rw [if_pos hask]
    intro htold
    simp [Reader.events, survivors, records, groupKeys]
  · rw [if_neg hask]
    obtain ⟨howners, hlimit⟩ := not_or.1 hask
    have howners' : r.distinctOwners ≠ [] := fun h => howners (List.isEmpty_iff.2 h)
    have hstart : IsAt st r .empty 0 ⟨told, []⟩ :=
      ⟨List.not_mem_nil, rfl, Groups.collects_empty⟩
    have hgather := gather_follows howners' (Nat.pos_of_ne_zero hlimit) fun _ => hstart
    generalize gather r .empty 0 = gathered at hgather ⊢
    apply Procedure.Follows.run_bind
    apply hgather.mono
    intro result x hx
    cases result with
    | error e => exact hx
    | ok groups =>
      intro htold
      rw [(hx htold).canonicals]

/-- What holds of a reader amid other calls: every row of a table before that stands before the end
of what the reader has read is among its events, and so is every matching one once a chunk is
empty. -/
structure IsAmid (st : Store) (r : HistoryRequest) (old : Events) (s : Shared φ) (x : Reader) :
    Prop where
  told : x.told
  current : IsCurrent st s
  nodup : s.store.events.keys.Nodup
  kept : old.Sublist s.store.events
  covered : ∀ row ∈ old, row ∈ (r.rows s.store).take x.events.length →
    ∃ e ∈ x.events, row.toEvent = .ok e
  complete : [] ∈ x.chunks → ∀ row ∈ old, r.query.matches row = true →
    ∃ e ∈ x.events, row.toEvent = .ok e

variable {s s' : Shared φ} {old : Events} {a : Access}

theorem exists_event_of_decoded {rows : Events} {events : List Event}
    (h : decoded rows = .ok events) {row : Row} (hrow : row ∈ rows) :
    ∃ e ∈ events, row.toEvent = .ok e := by
  induction rows generalizing events with
  | nil => cases hrow
  | cons first rows ih =>
    obtain ⟨e, others, hfirst, hrows, rfl⟩ := decoded_cons h
    obtain rfl | hrow := List.mem_cons.1 hrow
    · exact ⟨e, .head _, hfirst⟩
    · obtain ⟨e', he', hevent⟩ := ih hrows hrow
      exact ⟨e', .tail _ he', hevent⟩

/-- Rows that are added come between those that a reader has read, or behind them. -/
theorem IsAmid.grow (h : IsAmid st r old s x) (hcurrent : IsCurrent st s')
    (hrows : s.store.events.Sublist s'.store.events) (hnodup : s'.store.events.keys.Nodup) :
    IsAmid st r old s' x where
  told := h.told
  current := hcurrent
  nodup := hnodup
  kept := h.kept.trans hrows
  covered row hrow htake :=
    h.covered row hrow (mem_take_ordered hrows hnodup (h.kept.mem hrow) htake)
  complete := h.complete

theorem nodup_perform (source : PageSource φ) (a : Access) (h : s.store.events.keys.Nodup) :
    (s.perform source a).2.store.events.keys.Nodup := by
  rw [events_perform]
  cases a with
  | insertEvents es =>
    dsimp only
    rw [events_insertEvents]
    split
    · rw [Events.keys_append]
      exact nodup_append_novel h es
    · exact h
  | _ => exact h

theorem IsAmid.perform (source : PageSource φ) (h : IsAmid st r old s x)
    (ha : LeavesCatalog st a) : IsAmid st r old (s.perform source a).2 x :=
  h.grow (perform_isCurrent h.current ha) (prefix_perform source a s).sublist
    (nodup_perform source a h.nodup)

theorem IsAmid.drift (h : IsAmid st r old s x) (hdrift : Pool.Drift s s') :
    IsAmid st r old s' x :=
  h.grow (drift_isCurrent h.current hdrift) (hdrift.store_eq ▸ List.Sublist.refl _)
    (hdrift.store_eq ▸ h.nodup)

theorem IsAmid.consult (source : PageSource φ) (h : IsAmid st r old s x) (ha : Consults st a) :
    IsAmid st r old (s.perform source a).2 (x.next st ⟨a, (s.perform source a).1⟩) := by
  have hsame : (x.next st ⟨a, (s.perform source a).1⟩).chunks = x.chunks := by
    simp [Reader.next, chunk?_of_consults ha]
  have hevents : (x.next st ⟨a, (s.perform source a).1⟩).events = x.events := by
    rw [Reader.events, hsame, Reader.events]
  have hafter := h.perform source (leavesCatalog_of_consults ha)
  constructor
  · exact ⟨h.told, h.current.tells source a⟩
  · exact hafter.current
  · exact hafter.nodup
  · exact hafter.kept
  · rw [hevents]
    exact hafter.covered
  · rw [hevents, hsame]
    exact hafter.complete

/-- The events of the next chunk are those of the rows up to its end. -/
theorem IsAmid.covers_chunk (h : IsAmid st r old s x) {chunk : List Event} (hdecoded :
    decoded (((r.rows s.store).drop x.events.length).take r.chunkSize) = .ok chunk)
    {row : Row} (hrow : row ∈ old)
    (htake : row ∈ (r.rows s.store).take (x.events.length + chunk.length)) :
    ∃ e ∈ x.events ++ chunk, row.toEvent = .ok e := by
  rw [List.take_add, List.mem_append] at htake
  rcases htake with htake | htake
  · obtain ⟨e, he, hevent⟩ := h.covered row hrow htake
    exact ⟨e, List.mem_append_left _ he, hevent⟩
  · have hwindow : row ∈ ((r.rows s.store).drop x.events.length).take r.chunkSize := by
      rw [length_decoded hdecoded, List.length_take] at htake
      exact List.take_subset_take_left _ (Nat.min_le_left _ _) htake
    obtain ⟨e, he, hevent⟩ := exists_event_of_decoded hdecoded hwindow
    exact ⟨e, List.mem_append_right _ he, hevent⟩

/-- The next chunk takes the rows up to its end, and all of them if there are no more. -/
theorem IsAmid.fetch (source : PageSource φ) (h : IsAmid st r old s x)
    (howners : r.distinctOwners ≠ []) (hlimit : 0 < r.limit) :
    let fetch : Access := .fetchEvents r.query x.events.length r.chunkSize
    IsAmid st r old (s.perform source fetch).2
      (x.next st ⟨fetch, (s.perform source fetch).1⟩) := by
  intro fetch
  have hanswer : (s.perform source fetch).1 =
      decoded (((r.rows s.store).drop x.events.length).take r.chunkSize) :=
    fetchEvents_eq_decoded h.current.isOpen howners hlimit _
  have hstore : (s.perform source fetch).2 = s := rfl
  rw [hanswer, hstore]
  cases hdecoded : decoded (((r.rows s.store).drop x.events.length).take r.chunkSize) with
  | error e =>
    have hsame : (x.next st ⟨fetch, .error e⟩).chunks = x.chunks := by
      simp [Reader.next, chunk?, fetch]
    have hevents : (x.next st ⟨fetch, .error e⟩).events = x.events := by
      rw [Reader.events, hsame, Reader.events]
    exact ⟨⟨h.told, trivial⟩, h.current, h.nodup, h.kept, hevents ▸ h.covered,
      hsame ▸ hevents ▸ h.complete⟩
  | ok chunk =>
    have hevents : (x.next st ⟨fetch, .ok chunk⟩).events = x.events ++ chunk :=
      Reader.events_next_fetch st x
    refine ⟨⟨h.told, trivial⟩, h.current, h.nodup, h.kept, ?_, fun hempty row hrow hmatches => ?_⟩
    · rw [hevents, List.length_append]
      exact fun row hrow => h.covers_chunk hdecoded hrow
    · rw [hevents]
      have hchunks : [] ∈ x.chunks ∨ chunk = [] := by
        simpa [Reader.next, chunk?, fetch, eq_comm] using hempty
      rcases hchunks with hbefore | rfl
      · obtain ⟨e, he, hevent⟩ := h.complete hbefore row hrow hmatches
        exact ⟨e, List.mem_append_left _ he, hevent⟩
      · apply h.covers_chunk hdecoded hrow
        have hall : (r.rows s.store).length ≤ x.events.length := by
          have hsize := chunkSize_pos hlimit
          have hlength := length_decoded hdecoded
          rw [List.length_take, List.length_drop, List.length_nil] at hlength
          omega
        rw [List.length_nil, Nat.add_zero, List.take_of_length_le hall]
        exact mem_ordered.2 ⟨h.kept.mem hrow, hmatches⟩

variable {p : Pool φ (Except StoreError (List Transaction))} {turns : List Turn} {j : Nat}

/-- A request starts over an open store whose rows have different keys, and a cache of what is
stored. Other calls may do anything in the turns that follow but change the catalog. -/
structure ReadsAmid (source : PageSource φ) (p : Pool φ (Except StoreError (List Transaction)))
    (turns : List Turn) (j : Nat) (r : HistoryRequest) : Prop where
  starts : p.calls[j]? = some (readHistory r).run
  isOpen : p.shared.store.isOpen = true
  keys : p.shared.store.events.keys.Nodup
  cached : ∀ key record, p.shared.cached? key = some record →
    p.shared.store.record? key = some record
  others : ∀ i e, (i, e) ∈ p.log source turns → i ≠ j → LeavesCatalog p.shared.store e.access

def readers (j : Nat) (i : Nat) : Reader := ⟨i = j, []⟩

def readerAfter (st : Store) (r : HistoryRequest) (j : Nat) (entries : List (Nat × Made)) :
    Reader :=
  Pool.states (reading st r) (readers j) entries j

theorem chunks_readerAfter (st : Store) (r : HistoryRequest) (j : Nat)
    (entries : List (Nat × Made)) : (readerAfter st r j entries).chunks = chunksOf j entries := by
  rw [readerAfter, Pool.states_apply]
  exact (Reader.chunks_foldl (readers j j) _).trans (List.nil_append _)

theorem chunksOf_append (j : Nat) (entries more : List (Nat × Made)) :
    chunksOf j (entries ++ more) = chunksOf j entries ++ chunksOf j more := by
  simp [chunksOf]

theorem events_readerAfter (st : Store) (r : HistoryRequest) (j : Nat)
    (entries : List (Nat × Made)) :
    (readerAfter st r j entries).events = (chunksOf j entries).flatten := by
  rw [Reader.events, chunks_readerAfter]

theorem ReadsAmid.of_append {before after : List Turn}
    (h : ReadsAmid source p (before ++ after) j r) : ReadsAmid source p before j r where
  starts := h.starts
  isOpen := h.isOpen
  keys := h.keys
  cached := h.cached
  others i e hmem :=
    h.others i e (by rw [Pool.log_append]; exact List.mem_append_left _ hmem)

theorem ReadsAmid.run (h : ReadsAmid source p turns j r) :
    IsAmid p.shared.store r p.shared.store.events (p.run source turns).shared
        (readerAfter p.shared.store r j (p.log source turns)) ∧
      (p.run source turns).Follows (reading p.shared.store r) (HasAnswered p.shared.store r)
        (Pool.states (reading p.shared.store r) (readers j) (p.log source turns)) := by
  have hfollows : p.Follows (reading p.shared.store r) (HasAnswered p.shared.store r)
      (readers j) := by
    intro i call hcall
    by_cases hi : i = j
    · subst hi
      obtain rfl := Option.some.inj (h.starts.symm.trans hcall)
      exact readHistory_follows p.shared.store r _
    · apply (follows_of_not_told call (x := readers j i) hi).mono
      exact fun result x hx htold => absurd htold hx
  refine hfollows.run source
    (fun s state => IsAmid p.shared.store r p.shared.store.events s (state j)) turns ?_ ?_ ?_
  · intro s state i a hmem hadmits hamid
    by_cases hi : i = j
    · subst hi
      rw [Pool.moved_self]
      obtain ⟨-, hconsults | ⟨howners, hlimit, rfl⟩⟩ := hadmits hamid.told
      · exact hamid.consult source hconsults
      · exact hamid.fetch source howners hlimit
    · rw [Pool.moved_other (Ne.symm hi)]
      exact hamid.perform source (h.others i _ hmem hi)
  · exact fun s s' state hdrift hamid => hamid.drift hdrift
  · refine ⟨rfl, ⟨h.isOpen, fun _ => rfl, h.cached⟩, h.keys, List.Sublist.refl _, ?_, ?_⟩
    · intro row _ htake
      simp [Reader.events, readers] at htake
    · intro hempty
      simp [readers] at hempty

theorem ReadsAmid.fetch (h : ReadsAmid source p turns j r) {q : EventQuery} {offset limit : Int}
    {answer : Except StoreError (List Event)} (hmade : (p.run source turns).made source (.call j) =
      some (j, ⟨.fetchEvents q offset limit, answer⟩)) :
    q = r.query ∧ offset.toNat = (chunksOf j (p.log source turns)).flatten.length := by
  obtain ⟨hamid, hfollows⟩ := h.run
  obtain ⟨hnone, -⟩ | ⟨i, a, next, hi, hmade', -⟩ :=
    Pool.turn_cases source (p.run source turns) (.call j)
  · rw [hnone] at hmade
    cases hmade
  · rw [hmade', Option.some.injEq, Prod.mk.injEq] at hmade
    obtain ⟨rfl, heq⟩ := hmade
    obtain rfl : a = .fetchEvents q offset limit := congrArg Made.access heq
    obtain ⟨-, hconsults | ⟨-, -, hfetch⟩⟩ := (hfollows i _ hi).1 hamid.told
    · exact hconsults.elim
    · rw [Access.fetchEvents.injEq] at hfetch
      obtain ⟨rfl, rfl, -⟩ := hfetch
      exact ⟨rfl, by rw [← events_readerAfter p.shared.store r]; rfl⟩

theorem run_fetch {q : EventQuery} {offset limit : Int} {chunk : List Event} (hmade :
    (p.run source turns).made source (.call j) =
      some (j, ⟨.fetchEvents q offset limit, .ok chunk⟩)) :
    (p.run source (turns ++ [.call j])).shared = (p.run source turns).shared ∧
      chunksOf j (p.log source (turns ++ [.call j])) =
        chunksOf j (p.log source turns) ++ [chunk] := by
  constructor
  · rw [Pool.run_append]
    obtain ⟨hnone, -⟩ | ⟨i, a, next, -, hmade', -, hshared⟩ :=
      Pool.turn_cases source (p.run source turns) (.call j)
    · rw [hnone] at hmade
      cases hmade
    · rw [hmade', Option.some.injEq, Prod.mk.injEq] at hmade
      obtain rfl : a = .fetchEvents q offset limit := congrArg Made.access hmade.2
      exact hshared
  · rw [Pool.log_append, chunksOf_append, Pool.log, hmade]
    simp [Pool.log, chunksOf, Pool.ofCall, chunk?]

/-- What survives of a row that was received is in one of the records. -/
theorem exists_record_of_event {events : List Event} {e : Event} (he : e ∈ events)
    (happroval : isApprovalOnly e.payload = false)
    (hshown : isShown r.minValueUsd (enrich (storedReference st) e) = true) :
    ∃ t ∈ records r.distinctOwners (survivors st r.minValueUsd events),
      t.groupKey = ⟨e.id, e.chain⟩ := by
  have hsurvives : enrich (storedReference st) e ∈ survivors st r.minValueUsd events :=
    List.mem_filter.2 ⟨List.mem_map_of_mem (List.mem_filter.2 ⟨he, by simp [happroval]⟩), hshown⟩
  have hkey : (⟨e.id, e.chain⟩ : GroupKey) ∈
      groupKeys (survivors st r.minValueUsd events) := mem_groupKeys.2 ⟨_, hsurvives, rfl⟩
  rwa [← map_groupKey_records r.distinctOwners, List.mem_map] at hkey

/-- What has been received once a chunk has been fetched: every row of before that now stands before
the end of the chunk. -/
theorem ReadsAmid.covered_of_fetch {before after : List Turn} {q : EventQuery} {offset limit : Int}
    {chunk : List Event} (h : ReadsAmid source p (before ++ .call j :: after) j r)
    (hmade : (p.run source before).made source (.call j) =
      some (j, ⟨.fetchEvents q offset limit, .ok chunk⟩))
    {row : Row} (hrow : row ∈ p.shared.store.events)
    (htake : row ∈ ((p.run source before).shared.store.events.ordered r.query).take
      (offset.toNat + chunk.length)) :
    ∃ e ∈ (chunksOf j (p.log source (before ++ [.call j]))).flatten, row.toEvent = .ok e := by
  have hoffset := (h.of_append.fetch hmade).2
  obtain ⟨hshared, hchunks⟩ := run_fetch hmade
  rw [List.append_cons] at h
  have hcovered := h.of_append.run.1.covered row hrow
  rw [events_readerAfter, hshared, hchunks] at hcovered
  rw [hchunks]
  apply hcovered
  rw [List.flatten_append, List.flatten_singleton, List.length_append, ← hoffset]
  exact htake

theorem ReadsAmid.hasAnswered (h : ReadsAmid source p turns j r)
    {result : Except StoreError (List Transaction)}
    (hdone : (p.run source turns).calls[j]? = some (.done result)) :
    HasAnswered p.shared.store r result (readerAfter p.shared.store r j (p.log source turns)) :=
  h.run.2 j _ hdone

/-- An empty chunk is the last one, and the request is answered. -/
theorem ReadsAmid.exists_answer (h : ReadsAmid source p turns j r)
    (hempty : [] ∈ chunksOf j (p.log source turns)) :
    ∃ ts, (p.run source turns).calls[j]? = some (.done (.ok ts)) := by
  obtain ⟨hamid, hfollows⟩ := h.run
  rw [← chunks_readerAfter p.shared.store r] at hempty
  have hlt : j < (p.run source turns).calls.length := by
    rw [Pool.length_run]
    exact (List.getElem?_eq_some_iff.1 h.starts).1
  obtain ⟨call, hcall⟩ : ∃ call, (p.run source turns).calls[j]? = some call :=
    ⟨_, List.getElem?_eq_getElem hlt⟩
  cases call with
  | access a next => exact absurd hempty ((hfollows j _ hcall).1 hamid.told).1
  | done result =>
    cases result with
    | error e => exact absurd hempty (h.hasAnswered hcall hamid.told)
    | ok ts => exact ⟨ts, hcall⟩

/-- However others insert rows while a request is read: after each chunk, every row that was there
before and stands before the end of the chunk has been received. If the last chunk is empty, the
request is answered; from the first transaction on, and with room for all, the answer has a record
of every transaction of which a matching row that was there before shows something. No answer has
two records of one transaction. -/
theorem reading_loses_nothing (h : ReadsAmid source p turns j r) :
    (∀ before after q offset limit chunk, turns = before ++ .call j :: after →
      (p.run source before).made source (.call j) =
        some (j, ⟨.fetchEvents q offset limit, .ok chunk⟩) →
      ∀ row ∈ p.shared.store.events,
        row ∈ ((p.run source before).shared.store.events.ordered r.query).take
          (offset.toNat + chunk.length) →
        ∃ e ∈ (chunksOf j (p.log source (before ++ [.call j]))).flatten, row.toEvent = .ok e) ∧
    ([] ∈ chunksOf j (p.log source turns) →
      ∃ ts, (p.run source turns).calls[j]? = some (.done (.ok ts)) ∧
        (r.skip = 0 → (groupKeys (survivors p.shared.store r.minValueUsd
            (chunksOf j (p.log source turns)).flatten)).length ≤ r.limit →
          ∀ row ∈ p.shared.store.events, r.query.matches row = true →
            ∀ e, row.toEvent = .ok e → isApprovalOnly e.payload = false →
              isShown r.minValueUsd (enrich (storedReference p.shared.store) e) = true →
              ∃ t ∈ ts, t.groupKey = ⟨row.id, row.chain⟩)) ∧
    ∀ ts, (p.run source turns).calls[j]? = some (.done (.ok ts)) →
      (ts.map Transaction.groupKey).Nodup := by
  have hamid := h.run.1
  refine ⟨?_, fun hempty => ?_, fun ts hts => (h.hasAnswered hts).nodup hamid.told⟩
  · rintro before after q offset limit chunk rfl hmade row hrow htake
    exact h.covered_of_fetch hmade hrow htake
  · obtain ⟨ts, hts⟩ := h.exists_answer hempty
    refine ⟨ts, hts, fun hskip hroom row hrow hmatches e he happroval hshown => ?_⟩
    rw [← chunks_readerAfter p.shared.store r] at hempty
    rw [← events_readerAfter p.shared.store r] at hroom
    obtain ⟨e', he', hevent⟩ := hamid.complete hempty row hrow hmatches
    obtain rfl : e = e' := Except.ok.inj (he.symm.trans hevent)
    obtain ⟨t, ht, hkey⟩ := exists_record_of_event he' happroval hshown
    obtain ⟨hid, hchain, -⟩ := toEvent_eq_ok he
    exact ⟨t, (h.hasAnswered hts).mem_of_room hamid.told hskip hroom ht, by rw [hkey, hid, hchain]⟩

def eventAt (id : String) (time : Int64) : Event :=
  ⟨id, "eth", "0xab", none, some time, false, bareItem id⟩

theorem eventAt_readsBack (id : String) (time : Int64) : ReadsBack (eventAt id time) := by
  have hdecode : Item.decode 0 (.object [(some "id", .text (some id)),
      (some "chain", .text (some "eth"))] true) = .ok (bareItem id) := rfl
  exact readsBack_of_decode hdecode

def storing (es : List Event) : Shared Unit :=
  ⟨⟨true, es.map Row.ofEvent, [], [], []⟩, [], 0, [], false, ()⟩

def smallRequest : HistoryRequest := ⟨["0xAB"], 0, 2, none, false, 0⟩

theorem smallRequest_owners : smallRequest.distinctOwners = ["0xab"] := by decide +kernel

theorem fetch_storing {es sorted : List Event}
    (hrows : smallRequest.rows (storing es).store = sorted.map Row.ofEvent)
    (hsorted : ∀ e ∈ sorted, ReadsBack e) (offset : Nat) :
    (storing es).store.fetchEvents smallRequest.query offset smallRequest.chunkSize =
      .ok ((sorted.drop offset).take 4) := by
  have howners : smallRequest.distinctOwners ≠ [] := by simp [smallRequest_owners]
  rw [fetchEvents_eq_decoded rfl howners (by decide), hrows, ← List.map_drop, ← List.map_take]
  exact mapM_toEvent fun e he => hsorted e (List.mem_of_mem_drop (List.mem_of_mem_take he))

theorem matches_eventAt (id : String) (time : Int64) :
    smallRequest.query.matches (Row.ofEvent (eventAt id time)) = true := by
  have howner : "0xab" ∈ smallRequest.query.owners := by
    rw [HistoryRequest.query, smallRequest_owners]
    exact .head _
  have hlower : Text.lower "0xab" = "0xab" := by decide
  exact EventQuery.matches_iff.2
    ⟨⟨"0xab", howner, hlower⟩, fun c h => (by cases h), fun h => (by cases h)⟩

theorem rows_storing (es : List (String × Int64)) :
    smallRequest.rows (storing (es.map fun e => eventAt e.1 e.2)).store =
      (es.map fun e => Row.ofEvent (eventAt e.1 e.2)).mergeSort
        fun a b => timeLe a.timeAt b.timeAt := by
  have hevents : (storing (es.map fun e => eventAt e.1 e.2)).store.events =
      es.map fun e => Row.ofEvent (eventAt e.1 e.2) := List.map_map
  have hall : ∀ row ∈ es.map fun e => Row.ofEvent (eventAt e.1 e.2),
      smallRequest.query.matches row = true :=
    List.forall_mem_map.2 fun e _ => matches_eventAt e.1 e.2
  rw [HistoryRequest.rows, Events.ordered, hevents, List.filter_eq_self.2 hall]

theorem rows_storing_one : smallRequest.rows (storing [eventAt "x" 9]).store =
    [eventAt "x" 9].map Row.ofEvent :=
  (rows_storing [("x", 9)]).trans (List.mergeSort_singleton _)

theorem rows_storing_two : smallRequest.rows (storing [eventAt "x" 9, eventAt "y" 10]).store =
    [eventAt "y" 10, eventAt "x" 9].map Row.ofEvent := by
  refine (rows_storing [("x", 9), ("y", 10)]).trans ?_
  rw [List.map_cons, mergeSort_cons_eq (fun a b c => timeLe_trans a.timeAt b.timeAt c.timeAt)
      (fun a b => timeLe_total a.timeAt b.timeAt), List.map_singleton, List.mergeSort_singleton]
  rfl

/-- What is left of the request when it has collected some groups and read some rows. -/
def restOf (groups : Groups) (offset : Nat) : Procedure (Except StoreError (List Transaction)) :=
  (do
    let groups ← gather smallRequest groups offset
    return (((groups.canonicals smallRequest.distinctOwners).mergeSort laterFirst).drop
      smallRequest.skip).take smallRequest.limit : StoreProcedure (List Transaction)).run

theorem readHistory_smallRequest : (readHistory smallRequest).run = restOf .empty 0 := by
  have hask : ¬ (smallRequest.distinctOwners.isEmpty = true ∨ smallRequest.limit = 0) := by
    rw [smallRequest_owners]
    decide
  rw [readHistory, if_neg hask, restOf]

def shownX : List Transaction := [enrich ⟨[], [], []⟩ (eventAt "x" 9)].filter (isShown 0)

theorem restOf_eq {groups : Groups} {offset : Nat} (hgroups : groups.size < 2)
    (hoffset : offset < offsetBound) :
    ∃ next, restOf groups offset =
        .access (.fetchEvents smallRequest.query offset smallRequest.chunkSize) next ∧
      (∃ ts, next (.ok []) = .done (.ok ts)) ∧
      next (.ok [eventAt "x" 9]) = restOf (groups.pushAll shownX) (offset + 1) := by
  have hgo : groups.size < smallRequest.wanted ∧ offset < offsetBound := ⟨hgroups, hoffset⟩
  refine ⟨_, by rw [restOf, gather, dif_pos hgo]; rfl, ⟨_, rfl⟩, rfl⟩

theorem size_empty : Groups.empty.size < 2 := by decide

theorem size_shownX : (Groups.empty.pushAll shownX).size < 2 ∧
    ((Groups.empty.pushAll shownX).pushAll shownX).size < 2 := by
  rw [shownX, List.filter_singleton]
  cases isShown 0 (enrich ⟨[], [], []⟩ (eventAt "x" 9)) <;> decide

theorem one_lt_offsetBound : 1 < offsetBound := by decide

def insertion : Procedure (Except StoreError (List Transaction)) := do
  let _ ← Procedure.call (.insertEvents [eventAt "y" 10])
  return .ok []

def beside (groups : Groups) (offset : Nat)
    (call : Procedure (Except StoreError (List Transaction))) (es : List Event) :
    Pool Unit (Except StoreError (List Transaction)) :=
  ⟨[restOf groups offset, call], 2, storing es⟩

def fetched (offset : Nat) (chunk : List Event) : Nat × Made :=
  (0, ⟨.fetchEvents smallRequest.query offset smallRequest.chunkSize, .ok chunk⟩)

variable {groups : Groups} {offset : Nat} {es : List Event}

theorem beside_reads (call : Procedure (Except StoreError (List Transaction)))
    (hgroups : groups.size < 2) (hoffset : offset < offsetBound)
    (hfetch : (storing es).store.fetchEvents smallRequest.query offset smallRequest.chunkSize =
      .ok [eventAt "x" 9]) :
    (beside groups offset call es).turn noPages (.call 0) =
        beside (groups.pushAll shownX) (offset + 1) call es ∧
      (beside groups offset call es).made noPages (.call 0) =
        some (fetched offset [eventAt "x" 9]) := by
  obtain ⟨next, hnext, -, hmore⟩ := restOf_eq hgroups hoffset
  rw [beside, hnext, beside, ← hmore, fetched, ← hfetch]
  exact ⟨rfl, rfl⟩

theorem beside_ends (call : Procedure (Except StoreError (List Transaction)))
    (hgroups : groups.size < 2) (hoffset : offset < offsetBound)
    (hfetch : (storing es).store.fetchEvents smallRequest.query offset smallRequest.chunkSize =
      .ok []) :
    ∃ ts, (beside groups offset call es).turn noPages (.call 0) =
        ⟨[.done (.ok ts), call], 2, storing es⟩ ∧
      (beside groups offset call es).made noPages (.call 0) = some (fetched offset []) := by
  obtain ⟨next, hnext, ⟨ts, hend⟩, -⟩ := restOf_eq hgroups hoffset
  refine ⟨ts, ?_⟩
  rw [beside, hnext, ← hend, fetched, ← hfetch]
  exact ⟨rfl, rfl⟩

theorem beside_inserts (hgroups : groups.size < 2) (hoffset : offset < offsetBound) :
    (beside groups offset insertion [eventAt "x" 9]).turn noPages (.call 1) =
        beside groups offset (.done (.ok [])) [eventAt "x" 9, eventAt "y" 10] ∧
      (beside groups offset insertion [eventAt "x" 9]).made noPages (.call 1) =
        some (1, ⟨.insertEvents [eventAt "y" 10], .ok 1⟩) := by
  obtain ⟨next, hnext, -⟩ := restOf_eq hgroups hoffset
  rw [beside, hnext, beside, hnext]
  exact ⟨rfl, rfl⟩

/-- A row is read, a later one is inserted, and the row is read again. -/
def shiftingTurns : List Turn := [.call 0, .call 1, .call 0, .call 0]

theorem log_shiftingTurns :
    (beside .empty 0 insertion [eventAt "x" 9]).log noPages shiftingTurns =
      [fetched 0 [eventAt "x" 9], (1, ⟨.insertEvents [eventAt "y" 10], .ok 1⟩),
        fetched 1 [eventAt "x" 9], fetched 2 []] := by
  have hbefore := fetch_storing rows_storing_one (by simp [eventAt_readsBack])
  have hafter := fetch_storing rows_storing_two (by simp [eventAt_readsBack])
  obtain ⟨hread, hmade⟩ := beside_reads insertion size_empty (by decide) (hbefore 0)
  obtain ⟨hinsert, hadded⟩ := beside_inserts size_shownX.1 one_lt_offsetBound
  obtain ⟨hagain, hmadeAgain⟩ := beside_reads (.done (.ok [])) size_shownX.1
    one_lt_offsetBound (hafter 1)
  obtain ⟨ts, -, hmadeLast⟩ := beside_ends (.done (.ok [])) size_shownX.2 (by decide)
    (hafter 2)
  simp only [shiftingTurns, Pool.log, hmade, hread, hadded, hinsert, hmadeAgain, hagain, hmadeLast,
    Option.toList_some, List.cons_append, List.nil_append]

theorem shiftingTurns_readsAmid :
    ReadsAmid noPages (beside .empty 0 insertion [eventAt "x" 9]) shiftingTurns 0 smallRequest := by
  refine ⟨?_, rfl, by decide, fun key record hcached => (by cases hcached), fun i e he hi => ?_⟩
  · rw [readHistory_smallRequest]
    rfl
  · rw [log_shiftingTurns] at he
    simp only [fetched, List.mem_cons, Prod.mk.injEq, List.not_mem_nil, or_false] at he
    rcases he with ⟨rfl, -⟩ | ⟨rfl, rfl⟩ | ⟨rfl, -⟩ | ⟨rfl, -⟩
    · exact absurd rfl hi
    · trivial
    · exact absurd rfl hi
    · exact absurd rfl hi

/-- The row that was there is fetched twice, and the answer has one record of it. -/
theorem reading_beside_insertion :
    let p := beside .empty 0 insertion [eventAt "x" 9]
    ReadsAmid noPages p shiftingTurns 0 smallRequest ∧
    chunksOf 0 (p.log noPages shiftingTurns) = [[eventAt "x" 9], [eventAt "x" 9], []] ∧
    ∃ ts, (p.run noPages shiftingTurns).calls[0]? = some (.done (.ok ts)) ∧
      (∃ t ∈ ts, t.groupKey = ⟨"x", "eth"⟩) ∧ (ts.map Transaction.groupKey).Nodup := by
  intro p
  have hchunks : chunksOf 0 (p.log noPages shiftingTurns) =
      [[eventAt "x" 9], [eventAt "x" 9], []] := by
    rw [log_shiftingTurns]
    rfl
  obtain ⟨-, hends, hnodup⟩ := reading_loses_nothing shiftingTurns_readsAmid
  obtain ⟨ts, hdone, hrecords⟩ := hends (by rw [hchunks]; simp)
  have hshown : isShown 0 (enrich (storedReference p.shared.store) (eventAt "x" 9)) = true := by
    decide +kernel
  refine ⟨shiftingTurns_readsAmid, hchunks, ts, hdone, ?_, hnodup ts hdone⟩
  have hroom : (groupKeys (survivors p.shared.store smallRequest.minValueUsd
      (chunksOf 0 (p.log noPages shiftingTurns)).flatten)).length ≤ smallRequest.limit := by
    rw [hchunks]
    exact (length_groupKeys_le _).trans (length_survivors_le _ _ _)
  exact hrecords rfl hroom (Row.ofEvent (eventAt "x" 9)) (.head _) (by decide +kernel)
    (eventAt "x" 9) (eventAt_readsBack "x" 9) rfl hshown

end AddressLedger.History
