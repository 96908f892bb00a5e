import AddressLedger.Proofs.History.Grouping
import Mathlib.Data.Finset.Card
import Mathlib.Data.Finset.Dedup

/-!
# Slots

Groups are kept in slots, with an index that tells the slot of each key. Whatever is pushed, every
transaction is in one slot, that of its key, the slots are in the order in which their keys were
first seen, and the index names each of them once and nothing else.
-/
namespace AddressLedger.History

variable {ts us : List Transaction} {t : Transaction} {key : GroupKey}

def firstSeen (ts : List Transaction) (key : GroupKey) : Nat :=
  (ts.map Transaction.groupKey).idxOf key

theorem firstSeen_append_of_mem (h : key ∈ groupKeys ts) (us : List Transaction) :
    firstSeen (ts ++ us) key = firstSeen ts key := by
  rw [groupKeys, List.mem_eraseDups] at h
  rw [firstSeen, List.map_append, List.idxOf_append_of_mem h, firstSeen]

theorem firstSeen_lt_iff : firstSeen ts key < ts.length ↔ key ∈ groupKeys ts := by
  rw [firstSeen, ← List.length_map Transaction.groupKey, List.idxOf_lt_length_iff, groupKeys,
    List.mem_eraseDups]

theorem firstSeen_append_singleton (h : t.groupKey ∉ groupKeys ts) :
    firstSeen (ts ++ [t]) t.groupKey = ts.length := by
  rw [groupKeys, List.mem_eraseDups] at h
  rw [firstSeen, List.map_append, List.idxOf_append_of_notMem h]
  simp

theorem pairwise_firstSeen (ts : List Transaction) :
    (groupKeys ts).Pairwise fun a b => firstSeen ts a < firstSeen ts b := by
  induction ts using List.reverseRecOn with
  | nil => exact .nil
  | append_singleton ts t ih =>
    have hold : (groupKeys ts).Pairwise fun a b =>
        firstSeen (ts ++ [t]) a < firstSeen (ts ++ [t]) b := by
      apply ih.imp_of_mem
      intro a b ha hb hlt
      rwa [firstSeen_append_of_mem ha, firstSeen_append_of_mem hb]
    by_cases hknown : t.groupKey ∈ groupKeys ts
    · rwa [groupKeys_append_of_mem hknown]
    · rw [groupKeys_append_of_not_mem hknown, List.pairwise_append]
      refine ⟨hold, List.pairwise_singleton _ _, fun a ha b hb => ?_⟩
      obtain rfl := List.mem_singleton.mp hb
      rw [firstSeen_append_of_mem ha, firstSeen_append_singleton hknown]
      exact firstSeen_lt_iff.mpr ha

theorem nodup_groupKeys (ts : List Transaction) : (groupKeys ts).Nodup := by
  apply (pairwise_firstSeen ts).imp
  rintro a b h rfl
  exact Nat.lt_irrefl _ h

theorem length_groupKeys (ts : List Transaction) :
    (groupKeys ts).length = (ts.map Transaction.groupKey).toFinset.card := by
  rw [← List.toFinset_card_of_nodup (nodup_groupKeys ts)]
  congr 1
  ext key
  rw [List.mem_toFinset, List.mem_toFinset, groupKeys, List.mem_eraseDups]

/-- Of two keys, the one that is listed earlier is first seen earlier. -/
theorem lt_iff_firstSeen_lt {key' : GroupKey} {i j : Nat} (hi : (groupKeys ts)[i]? = some key)
    (hj : (groupKeys ts)[j]? = some key') : i < j ↔ firstSeen ts key < firstSeen ts key' := by
  have hlt : ∀ {i j : Nat} {a b : GroupKey}, (groupKeys ts)[i]? = some a →
      (groupKeys ts)[j]? = some b → i < j → firstSeen ts a < firstSeen ts b := by
    intro i j a b ha hb hij
    obtain ⟨hi, rfl⟩ := List.getElem?_eq_some_iff.mp ha
    obtain ⟨hj, rfl⟩ := List.getElem?_eq_some_iff.mp hb
    exact List.pairwise_iff_getElem.mp (pairwise_firstSeen ts) i j hi hj hij
  refine ⟨hlt hi hj, fun hseen => ?_⟩
  rcases Nat.lt_trichotomy i j with hij | rfl | hji
  · exact hij
  · obtain rfl := Option.some.inj (hi.symm.trans hj)
    exact absurd hseen (Nat.lt_irrefl _)
  · exact absurd hseen (Nat.lt_asymm (hlt hj hi hji))

/-- The groups of all keys make up the transactions. -/
theorem perm_flatten_groupOf {keys : List GroupKey} (hkeys : keys.Nodup)
    (hall : ∀ t ∈ ts, t.groupKey ∈ keys) : (keys.map (groupOf ts)).flatten.Perm ts := by
  induction keys generalizing ts with
  | nil =>
    have hnone : ts = [] := List.eq_nil_iff_forall_not_mem.mpr fun t ht =>
      List.not_mem_nil (hall t ht)
    rw [hnone]
    exact .nil
  | cons key keys ih =>
    rw [List.nodup_cons] at hkeys
    let others := ts.filter fun t => !(t.groupKey == key)
    have hothers : keys.map (groupOf ts) = keys.map (groupOf others) := by
      apply List.map_congr_left
      intro other hother
      rw [groupOf, groupOf, List.filter_filter]
      apply List.filter_congr
      intro t _
      have hne : other ≠ key := fun he => hkeys.1 (he ▸ hother)
      by_cases ht : t.groupKey = other
      · simp [ht, hne]
      · simp [ht]
    have hrest : (keys.map (groupOf others)).flatten.Perm others := by
      apply ih hkeys.2
      intro t ht
      obtain ⟨ht, hne⟩ := List.mem_filter.mp ht
      exact (List.mem_cons.mp (hall t ht)).resolve_left (by simpa using hne)
    rw [List.map_cons, List.flatten_cons, hothers]
    exact (hrest.append_left _).trans (List.filter_append_perm _ ts)

namespace Groups

variable {g : Groups}

/-- The index has an entry for each key, the last one first. -/
def IsIndexed (g : Groups) (ts : List Transaction) : Prop :=
  g.index = (groupKeys ts).zipIdx.reverse

theorem IsIndexed.push (hindexed : g.IsIndexed ts) (h : g.Collects ts) (t : Transaction) :
    (g.push t).IsIndexed (ts ++ [t]) := by
  rw [IsIndexed] at hindexed ⊢
  rw [Groups.push]
  cases hslot : g.slot? t.groupKey with
  | some i =>
    have hknown := List.mem_of_getElem? ((h.index _ i).mp hslot)
    rw [groupKeys_append_of_mem hknown]
    exact hindexed
  | none =>
    rw [groupKeys_append_of_not_mem (h.slot_eq_none.mp hslot), List.zipIdx_append,
      List.reverse_append, ← hindexed, h.slots, List.length_map]
    simp

theorem IsIndexed.pushAll (hindexed : g.IsIndexed ts) (h : g.Collects ts)
    (us : List Transaction) : (g.pushAll us).IsIndexed (ts ++ us) := by
  induction us generalizing g ts with
  | nil => rwa [List.append_nil]
  | cons u us ih =>
    rw [List.append_cons]
    exact ih (hindexed.push h u) (h.push u)

theorem IsIndexed.mem_index_iff (hindexed : g.IsIndexed ts) (h : g.Collects ts) {i : Nat} :
    (key, i) ∈ g.index ↔ g.slot? key = some i := by
  rw [hindexed, List.mem_reverse, List.mem_zipIdx_iff_getElem?, h.index]

end Groups

/-- Whatever is pushed into no groups: the index has one entry for each key that was pushed, and no
others; the slot of a key is there and holds the transactions with the key in the order in which they
were pushed; every slot is that of a key and none is empty; they are in the order in which their keys
were first pushed; together they hold what was pushed, as often as it was; and there are as many as
there are keys. -/
theorem slots_partition_pushed (ts : List Transaction) :
    let g := Groups.empty.pushAll ts
    (∀ key i, (key, i) ∈ g.index ↔ g.slot? key = some i) ∧
    (∀ key, (∃ i, g.slot? key = some i) ↔ ∃ t ∈ ts, t.groupKey = key) ∧
    (∀ key i, g.slot? key = some i →
      ∃ _ : i < g.slots.length, g.slots[i] = ts.filter fun t => t.groupKey == key) ∧
    (∀ i < g.slots.length, ∃ key, g.slot? key = some i) ∧
    (∀ slot ∈ g.slots, slot ≠ []) ∧
    (∀ key key' i j, g.slot? key = some i → g.slot? key' = some j →
      (i < j ↔ firstSeen ts key < firstSeen ts key')) ∧
    g.slots.flatten.Perm ts ∧ g.size = (ts.map Transaction.groupKey).toFinset.card := by
  intro g
  have h : g.Collects ts := Groups.collects_empty.pushAll ts
  have hempty : Groups.empty.IsIndexed [] := rfl
  have hindexed : g.IsIndexed ts := hempty.pushAll Groups.collects_empty ts
  refine ⟨fun key i => hindexed.mem_index_iff h, fun key => ?_, fun key i hslot => ?_,
    fun i hi => ?_, fun slot hslot => ?_, fun key key' i j hi hj => ?_, ?_, ?_⟩
  · simp only [h.index, ← List.mem_iff_getElem?, mem_groupKeys]
  · have hkey := (h.index key i).mp hslot
    have hgroup : g.slots[i]? = some (groupOf ts key) := by
      rw [h.slots, List.getElem?_map, hkey]
      rfl
    exact List.getElem?_eq_some_iff.mp hgroup
  · rw [h.slots, List.length_map] at hi
    exact ⟨_, (h.index _ i).mpr (List.getElem?_eq_getElem hi)⟩
  · rw [h.slots] at hslot
    obtain ⟨key, hkey, rfl⟩ := List.mem_map.mp hslot
    exact groupOf_ne_nil hkey
  · exact lt_iff_firstSeen_lt ((h.index key i).mp hi) ((h.index key' j).mp hj)
  · rw [h.slots]
    exact perm_flatten_groupOf (nodup_groupKeys ts) fun t ht => mem_groupKeys.mpr ⟨t, ht, rfl⟩
  · rw [h.size, length_groupKeys]

end AddressLedger.History
