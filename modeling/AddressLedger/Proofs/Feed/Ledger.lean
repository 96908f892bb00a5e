import AddressLedger.Event
import AddressLedger.Proofs.Feed.Time
import AddressLedger.Service.Procedure
import Mathlib.Data.List.Nodup

/-!
# Ledgers

The whole history of an address, newest first, and the feed that gives it out in pages of one size:
the first items of those that are strictly older than a cursor. Times may be equal and may have
fractions; a cursor is a whole second.
-/
namespace AddressLedger.Feed
open Service

/-- Whether an item has an id and a chain, neither of them empty. -/
def Item.isNamed (i : Item) : Bool := i.id.any (· ≠ "") && i.chain.any (· ≠ "")

/-- The exact time of an item; zero if it has no finite one. -/
def Item.time (i : Item) : ℚ := i.time?.getD 0

/-- The history of one address, newest first. -/
structure Ledger where
  items : List Item
  isNamed : ∀ i ∈ items, i.isNamed = true
  isTimed : ∀ i ∈ items, i.time?.isSome = true
  isDistinct : (items.map fun i => (i.id, i.chain)).Nodup
  newestFirst : items.Pairwise fun i j => j.time ≤ i.time

theorem key_of_ofItem? {owner : String} {i : Item} {e : Event}
    (h : Event.ofItem? owner i = some e) :
    i.id = some e.id ∧ i.chain = some e.chain ∧ e.address = Text.lower owner := by
  obtain ⟨hid, -, hchain, -, -⟩ := Event.ofItem?_eq_some h
  exact ⟨hid, hchain, Event.address_of_ofItem? h⟩

namespace Ledger

variable (l : Ledger) {i j : Item} {n : Nat} {cursor : Option Int64} {owner : String}

/-- The items strictly before a cursor, or all of them. -/
def older (cursor : Option Int64) : List Item := l.items.filter (·.isOlder cursor)

def page (n : Nat) (cursor : Option Int64) : List Item := (l.older cursor).take n

/-- No item lies before its own whole seconds: a negative time is a whole number in the range. -/
def IsSteady : Prop := ∀ i ∈ l.items, i.isEarly = false

def HasDistinctSeconds : Prop := (l.items.map Item.timestamp).Nodup

instance : Decidable l.IsSteady := inferInstanceAs (Decidable (∀ i ∈ l.items, i.isEarly = false))

instance : Decidable l.HasDistinctSeconds :=
  inferInstanceAs (Decidable (l.items.map Item.timestamp).Nodup)

variable {l}

theorem mem_older : i ∈ l.older cursor ↔ i ∈ l.items ∧ i.isOlder cursor = true := List.mem_filter

theorem older_none : l.older none = l.items := List.filter_eq_self.2 fun _ _ => rfl

theorem mem_older_of_mem_page (h : i ∈ l.page n cursor) : i ∈ l.older cursor :=
  List.mem_of_mem_take h

theorem time?_eq (h : i ∈ l.items) : i.time? = some i.time := by
  obtain ⟨t, ht⟩ := Option.isSome_iff_exists.1 (l.isTimed i h)
  rw [Item.time, ht]
  rfl

theorem timestamp_eq (h : i ∈ l.items) : i.timestamp = some (Number.seconds i.time) :=
  Item.timestamp_of_time (time?_eq h)

theorem isOlder_iff (h : i ∈ l.items) (c : Int64) :
    i.isOlder (some c) = true ↔ i.time < c.toInt :=
  Item.isOlder_iff (time?_eq h) c

theorem IsSteady.seconds_le_time (hsteady : l.IsSteady) (h : i ∈ l.items) :
    ((Number.seconds i.time).toInt : ℚ) ≤ i.time := by
  have hearly := hsteady i h
  rw [Item.isEarly, timestamp_eq h, Bool.eq_false_iff, Ne, isOlder_iff h, not_lt] at hearly
  exact hearly

theorem exists_event (h : i ∈ l.items) (owner : String) : ∃ e, Event.ofItem? owner i = some e := by
  have hnamed := l.isNamed i h
  simp only [Item.isNamed, Bool.and_eq_true, Option.any_eq_true, decide_eq_true_eq] at hnamed
  rcases hnamed with ⟨⟨id, hid, hne⟩, chain, hchain, hne'⟩
  simp [Event.ofItem?, hid, hchain, Option.filter, hne, hne']

theorem eq_of_key_eq (hi : i ∈ l.items) (hj : j ∈ l.items) {e f : Event}
    (he : Event.ofItem? owner i = some e) (hf : Event.ofItem? owner j = some f)
    (hkey : e.key = f.key) : i = j := by
  apply List.inj_on_of_nodup_map l.isDistinct hi hj
  obtain ⟨hid, hchain, -⟩ := key_of_ofItem? he
  obtain ⟨hid', hchain', -⟩ := key_of_ofItem? hf
  simp only [Event.key, EventKey.mk.injEq] at hkey
  rw [hid, hid', hchain, hchain', hkey.1, hkey.2.1]

theorem eq_of_timestamp_eq (hdistinct : l.HasDistinctSeconds) (hi : i ∈ l.items) (hj : j ∈ l.items)
    (h : i.timestamp = j.timestamp) : i = j :=
  List.inj_on_of_nodup_map hdistinct hi hj h

variable {oldest : Item}

/-- What is older than a cursor, cut at the last item of a page. -/
theorem older_eq_of_getLast? (h : (l.page n cursor).getLast? = some oldest) :
    ∃ before, l.page n cursor = before ++ [oldest] ∧
      l.older cursor = before ++ oldest :: (l.older cursor).drop n := by
  obtain ⟨before, hpage⟩ := List.getLast?_eq_some_iff.1 h
  refine ⟨before, hpage, ?_⟩
  have hcut : l.page n cursor ++ (l.older cursor).drop n = l.older cursor :=
    List.take_append_drop n _
  rw [hpage, List.append_assoc] at hcut
  exact hcut.symm

theorem mem_page_or_mem_drop (h : i ∈ l.older cursor) :
    i ∈ l.page n cursor ∨ i ∈ (l.older cursor).drop n := by
  rw [← List.take_append_drop n (l.older cursor), List.mem_append] at h
  exact h

theorem oldest_mem (h : (l.page n cursor).getLast? = some oldest) : oldest ∈ l.page n cursor :=
  List.mem_of_getLast? h

theorem oldest_mem_items (h : (l.page n cursor).getLast? = some oldest) : oldest ∈ l.items :=
  (mem_older.1 (mem_older_of_mem_page (oldest_mem h))).1

/-- The whole seconds of the last item of a page, as the next cursor gives them. -/
theorem seconds_oldest (h : (l.page n cursor).getLast? = some oldest) {next : Int64}
    (htime : oldest.timestamp = some next) : Number.seconds oldest.time = next := by
  rwa [timestamp_eq (oldest_mem_items h), Option.some.injEq] at htime

theorem pairwise_older : (l.older cursor).Pairwise fun i j => j.time ≤ i.time :=
  l.newestFirst.filter _

theorem time_le_of_mem_page (h : (l.page n cursor).getLast? = some oldest)
    (hi : i ∈ l.page n cursor) : oldest.time ≤ i.time := by
  obtain ⟨before, hpage, -⟩ := older_eq_of_getLast? h
  have hsorted : (l.page n cursor).Pairwise fun i j => j.time ≤ i.time :=
    pairwise_older.sublist (List.take_sublist n _)
  rw [hpage, List.pairwise_append] at hsorted
  rw [hpage, List.mem_append, List.mem_singleton] at hi
  obtain hi | rfl := hi
  · exact hsorted.2.2 i hi oldest (List.mem_singleton_self _)
  · exact le_rfl

theorem time_le_of_mem_drop (h : (l.page n cursor).getLast? = some oldest)
    (hi : i ∈ (l.older cursor).drop n) : i.time ≤ oldest.time := by
  obtain ⟨before, -, hcut⟩ := older_eq_of_getLast? h
  have hsorted : (l.older cursor).Pairwise fun i j => j.time ≤ i.time := pairwise_older
  rw [hcut, List.pairwise_append, List.pairwise_cons] at hsorted
  exact hsorted.2.1.1 i hi

theorem older_eq_nil_of_page (hn : 1 ≤ n) (h : l.page n cursor = []) : l.older cursor = [] := by
  rcases List.take_eq_nil_iff.1 h with h | h
  · omega
  · exact h

theorem nodup_older : (l.older cursor).Nodup := (List.Nodup.of_map _ l.isDistinct).filter _

theorem notMem_page_of_mem_drop (hi : i ∈ (l.older cursor).drop n) : i ∉ l.page n cursor :=
  fun h => List.disjoint_take_drop nodup_older le_rfl h hi

theorem oldest_notMem_drop (h : (l.page n cursor).getLast? = some oldest) :
    oldest ∉ (l.older cursor).drop n :=
  fun hi => notMem_page_of_mem_drop hi (oldest_mem h)

/-- Where whole seconds are distinct, those after the end of a page are less than at its end. -/
theorem seconds_lt_of_mem_drop (hdistinct : l.HasDistinctSeconds)
    (h : (l.page n cursor).getLast? = some oldest) (hi : i ∈ (l.older cursor).drop n) :
    Number.seconds i.time < Number.seconds oldest.time := by
  apply Int64.lt_of_le_of_ne (Number.seconds_mono (time_le_of_mem_drop h hi))
  intro heq
  have hmem : i ∈ l.items := (mem_older.1 (List.mem_of_mem_drop hi)).1
  have hsame : i = oldest := by
    apply eq_of_timestamp_eq hdistinct hmem (oldest_mem_items h)
    rw [timestamp_eq hmem, timestamp_eq (oldest_mem_items h), heq]
  rw [hsame] at hi
  exact oldest_notMem_drop h hi

theorem exists_mem_page_ne (hn : 2 ≤ n) (h : (l.page n cursor).getLast? = some oldest)
    (hi : i ∈ (l.older cursor).drop n) : ∃ j ∈ l.page n cursor, j ≠ oldest := by
  obtain ⟨before, hpage, hcut⟩ := older_eq_of_getLast? h
  have hnodup : (l.older cursor).Nodup := nodup_older
  have hlength : (l.page n cursor).length = n := by
    apply List.length_take_of_le
    have hpos := List.length_pos_of_mem hi
    rw [List.length_drop] at hpos
    omega
  rw [hcut, List.nodup_append] at hnodup
  rw [hpage, List.length_append, List.length_singleton] at hlength
  obtain ⟨j, hj⟩ := List.exists_mem_of_length_pos (l := before) (by omega)
  rw [hpage]
  exact ⟨j, List.mem_append_left _ hj, hnodup.2.2 j hj oldest List.mem_cons_self⟩

theorem mem_dropLast_of_seconds_lt (hi : i ∈ l.items) (hj : j ∈ l.items)
    (h : Number.seconds j.time < Number.seconds i.time) : i ∈ l.items.dropLast := by
  have hne : l.items ≠ [] := List.ne_nil_of_mem hi
  have hcut := List.dropLast_concat_getLast hne
  have hsorted := l.newestFirst
  rw [← hcut, List.pairwise_append] at hsorted
  rw [← hcut, List.mem_append, List.mem_singleton] at hi hj
  apply hi.resolve_right
  rintro rfl
  apply Int64.not_lt.2 _ h
  obtain hj | rfl := hj
  · exact Number.seconds_mono (hsorted.2.2 j hj _ (List.mem_singleton_self _))
  · exact Int64.le_refl _

end Ledger

variable {φ : Type}

/-- Whether a source answers every request for an owner with a page of a ledger. -/
def Serves (source : PageSource φ) (owner : String) (l : Ledger) (n : Nat) : Prop :=
  ∀ cursor feed, ∃ page feed',
    source.request owner cursor feed = (.answered false (.ok page), feed') ∧
      page.items = l.page n cursor

/-- Whether the pages that a source gives for an owner are those of a ledger. Any request may fail,
and shutdown may be asked for. -/
def ServesOrFails (source : PageSource φ) (owner : String) (l : Ledger) (n : Nat) : Prop :=
  ∀ cursor feed stopping page feed',
    source.request owner cursor feed = (.answered stopping (.ok page), feed') →
      page.items = l.page n cursor

def Ledger.source (l : Ledger) (n : Nat) : PageSource Unit :=
  ⟨fun _ cursor s => (.answered false (.ok ⟨l.page n cursor, [], [], []⟩), s)⟩

theorem Ledger.serves_source (l : Ledger) (n : Nat) (owner : String) :
    Serves (l.source n) owner l n :=
  fun cursor _ => ⟨⟨l.page n cursor, [], [], []⟩, (), rfl, rfl⟩

def Ledger.Answers (l : Ledger) (n : Nat) (cursor : Option Int64)
    (answer : Except FeedError Page) : Prop :=
  ∃ page, answer = .ok page ∧ page.items = l.page n cursor

def Ledger.Allows (l : Ledger) (n : Nat) (cursor : Option Int64)
    (answer : Except FeedError Page) : Prop :=
  ∀ page, answer = .ok page → page.items = l.page n cursor

theorem Ledger.Answers.allows {l : Ledger} {n : Nat} {cursor : Option Int64}
    {answer : Except FeedError Page} (h : l.Answers n cursor answer) :
    l.Allows n cursor answer := by
  rcases h with ⟨page, rfl, hpage⟩
  rintro _ ⟨⟩
  exact hpage

variable {source : PageSource φ} {owner : String} {l : Ledger} {n : Nat}

theorem Serves.fetchPage (h : Serves source owner l n) {s : Shared φ} (hs : s.stopped = false)
    (cursor : Option Int64) :
    l.Answers n cursor (s.fetchPage source owner cursor).1 ∧
      (s.fetchPage source owner cursor).2.stopped = false := by
  obtain ⟨page, feed', hrequest, hpage⟩ := h cursor s.feed
  rw [Shared.fetchPage, hs, hrequest]
  exact ⟨⟨page, rfl, hpage⟩, rfl⟩

theorem ServesOrFails.fetchPage (h : ServesOrFails source owner l n) (s : Shared φ)
    (cursor : Option Int64) : l.Allows n cursor (s.fetchPage source owner cursor).1 := by
  intro page hpage
  rw [Shared.fetchPage] at hpage
  split at hpage
  · cases hpage
  · split at hpage
    · rename_i stopping result feed' hrequest
      cases hpage
      exact h _ _ _ _ _ hrequest
    · cases hpage

end AddressLedger.Feed
