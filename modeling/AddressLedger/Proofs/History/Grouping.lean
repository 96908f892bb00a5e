import AddressLedger.History.Group
import Mathlib.Data.List.Basic
import Mathlib.Data.List.Induction

/-!
# Groups of transactions

Collected one after the other, transactions are grouped by their keys, in the order in which these
are first seen, and each group holds its transactions in their order. Each group shows one record.
-/
namespace AddressLedger.History

/-- The keys of some transactions, each once, in the order in which they are first seen. -/
def groupKeys (ts : List Transaction) : List GroupKey := (ts.map Transaction.groupKey).eraseDups

def groupOf (ts : List Transaction) (key : GroupKey) : List Transaction :=
  ts.filter fun t => t.groupKey == key

variable {ts us : List Transaction} {t u : Transaction} {key : GroupKey} {owners : List String}

theorem mem_groupKeys : key ∈ groupKeys ts ↔ ∃ t ∈ ts, t.groupKey = key := by
  rw [groupKeys, List.mem_eraseDups, List.mem_map]

theorem mem_groupOf : t ∈ groupOf ts key ↔ t ∈ ts ∧ t.groupKey = key := by
  simp [groupOf]

theorem groupOf_append (ts us : List Transaction) (key : GroupKey) :
    groupOf (ts ++ us) key = groupOf ts key ++ groupOf us key :=
  List.filter_append ts us

theorem groupOf_eq_nil (h : key ∉ groupKeys ts) : groupOf ts key = [] := by
  rw [groupOf, List.filter_eq_nil_iff]
  intro t ht he
  exact h (mem_groupKeys.mpr ⟨t, ht, by simpa using he⟩)

theorem groupOf_ne_nil (h : key ∈ groupKeys ts) : groupOf ts key ≠ [] := by
  rcases mem_groupKeys.mp h with ⟨t, ht, hkey⟩
  exact List.ne_nil_of_mem (mem_groupOf.mpr ⟨ht, hkey⟩)

theorem groupKeys_append (ts us : List Transaction) : groupKeys (ts ++ us) =
    groupKeys ts ++ groupKeys (us.filter fun u => !(groupKeys ts).contains u.groupKey) := by
  have hcontains : ∀ key, (ts.map Transaction.groupKey).elem key = (groupKeys ts).contains key := by
    intro key
    rw [Bool.eq_iff_iff, List.elem_iff, List.contains_iff_mem, groupKeys, List.mem_eraseDups]
  rw [groupKeys, List.map_append, List.eraseDups_append, ← groupKeys, List.removeAll,
    List.filter_map, groupKeys]
  congr 3
  apply List.filter_congr
  intro u _
  rw [Function.comp_apply, hcontains]
  rfl

theorem groupKeys_append_of_mem (h : t.groupKey ∈ groupKeys ts) :
    groupKeys (ts ++ [t]) = groupKeys ts := by
  have hnone : [t].filter (fun u => !(groupKeys ts).contains u.groupKey) = [] := by simp [h]
  rw [groupKeys_append, hnone]
  exact List.append_nil _

theorem groupKeys_append_of_not_mem (h : t.groupKey ∉ groupKeys ts) :
    groupKeys (ts ++ [t]) = groupKeys ts ++ [t.groupKey] := by
  have hall : [t].filter (fun u => !(groupKeys ts).contains u.groupKey) = [t] := by simp [h]
  rw [groupKeys_append, hall]
  rfl

theorem length_groupKeys_le (ts : List Transaction) : (groupKeys ts).length ≤ ts.length := by
  induction ts using List.reverseRecOn with
  | nil => exact Nat.le_refl 0
  | append_singleton ts t ih =>
    rw [List.length_append, List.length_singleton]
    by_cases h : t.groupKey ∈ groupKeys ts
    · rw [groupKeys_append_of_mem h]
      exact Nat.le_succ_of_le ih
    · rw [groupKeys_append_of_not_mem h, List.length_append, List.length_singleton]
      exact Nat.succ_le_succ ih

theorem getElem?_append_singleton {α : Type} (xs : List α) (x y : α) (j : Nat) :
    (xs ++ [x])[j]? = some y ↔ xs[j]? = some y ∨ j = xs.length ∧ x = y := by
  rcases Nat.lt_trichotomy j xs.length with hlt | rfl | hgt
  · rw [List.getElem?_append_left hlt]
    exact ⟨.inl, fun h => h.resolve_right fun hj => absurd hj.1 (Nat.ne_of_lt hlt)⟩
  · simp
  · simp [List.getElem?_append_right (Nat.le_of_lt hgt), Nat.ne_of_gt hgt,
      Nat.sub_ne_zero_of_lt hgt, List.getElem?_eq_none (Nat.le_of_lt hgt)]

/-- Whether slots hold the groups of some transactions, and the index tells the slot of each key. -/
structure Groups.Collects (g : Groups) (ts : List Transaction) : Prop where
  slots : g.slots = (groupKeys ts).map (groupOf ts)
  index : ∀ key i, g.slot? key = some i ↔ (groupKeys ts)[i]? = some key

namespace Groups

variable {g : Groups}

theorem collects_empty : empty.Collects [] := by
  refine ⟨rfl, fun key i => ?_⟩
  simp [slot?, empty, groupKeys]

theorem Collects.size (h : g.Collects ts) : g.size = (groupKeys ts).length := by
  rw [Groups.size, h.slots, List.length_map]

theorem Collects.slot_eq_none (h : g.Collects ts) : g.slot? key = none ↔ key ∉ groupKeys ts := by
  constructor
  · intro hnone hmem
    obtain ⟨i, hi⟩ := List.mem_iff_getElem?.mp hmem
    rw [(h.index key i).mpr hi] at hnone
    cases hnone
  · intro hmem
    cases hslot : g.slot? key with
    | none => rfl
    | some i => exact absurd (List.mem_of_getElem? ((h.index key i).mp hslot)) hmem

theorem Collects.push_known (h : g.Collects ts) {i : Nat} (hslot : g.slot? t.groupKey = some i) :
    (g.push t).Collects (ts ++ [t]) := by
  have hi := (h.index _ i).mp hslot
  have hkeys := groupKeys_append_of_mem (List.mem_of_getElem? hi)
  rw [push, hslot]
  refine ⟨?_, fun key j => ?_⟩
  · rw [hkeys, h.slots]
    apply List.ext_getElem?
    intro j
    rw [List.getElem?_modify, List.getElem?_map, List.getElem?_map]
    cases hj : (groupKeys ts)[j]? with
    | none => simp
    | some key =>
      by_cases hij : i = j
      · subst hij
        obtain rfl : key = t.groupKey := Option.some.inj (hj.symm.trans hi)
        simp [groupOf]
      · have hne : t.groupKey ≠ key := by
          rintro rfl
          exact hij (Option.some.inj (hslot.symm.trans ((h.index _ j).mpr hj)))
        simp [hij, groupOf, hne]
  · rw [hkeys]
    exact h.index key j

/-- A transaction of a new key makes a new last group. -/
theorem Collects.push_new (h : g.Collects ts) (hslot : g.slot? t.groupKey = none) :
    (g.push t).Collects (ts ++ [t]) := by
  have hnew := h.slot_eq_none.mp hslot
  have hkeys := groupKeys_append_of_not_mem hnew
  rw [push, hslot]
  refine ⟨?_, fun key j => ?_⟩
  · change g.slots ++ [[t]] = _
    rw [hkeys, h.slots, List.map_append]
    congr 1
    · apply List.map_congr_left
      intro key hkey
      have hne : t.groupKey ≠ key := by
        rintro rfl
        exact hnew hkey
      simp [groupOf, hne]
    · rw [List.map_singleton, groupOf_append, groupOf_eq_nil hnew]
      simp [groupOf]
  · rw [hkeys]
    by_cases hkey : t.groupKey = key
    · subst hkey
      have hlast : (Groups.mk ((t.groupKey, g.slots.length) :: g.index) (g.slots ++ [[t]])).slot?
          t.groupKey = some (groupKeys ts).length := by
        simp [slot?, h.slots]
      rw [hlast, getElem?_append_singleton, Option.some.injEq]
      constructor
      · exact fun hj => .inr ⟨hj.symm, rfl⟩
      · rintro (hj | ⟨hj, -⟩)
        · exact absurd (List.mem_of_getElem? hj) hnew
        · exact hj.symm
    · have hrest : (Groups.mk ((t.groupKey, g.slots.length) :: g.index) (g.slots ++ [[t]])).slot?
          key = g.slot? key := by
        simp [slot?, hkey]
      rw [hrest, h.index, getElem?_append_singleton]
      exact ⟨.inl, fun hj => hj.resolve_right fun hlast => hkey hlast.2⟩

theorem Collects.push (h : g.Collects ts) (t : Transaction) : (g.push t).Collects (ts ++ [t]) := by
  cases hslot : g.slot? t.groupKey with
  | none => exact h.push_new hslot
  | some i => exact h.push_known hslot

theorem Collects.pushAll (h : g.Collects ts) (us : List Transaction) :
    (g.pushAll us).Collects (ts ++ us) := by
  induction us generalizing g ts with
  | nil => rwa [List.append_nil]
  | cons u us ih =>
    rw [List.append_cons]
    exact ih (h.push u)

end Groups

/-- Which record a group shows: its only one, the first of a sender, the first with a fee, or the
first. One that is sent to an owner is shown as a self transfer. -/
inductive IsRecordOf (owners : List String) : List Transaction → Transaction → Prop
  | only (t : Transaction) : IsRecordOf owners [t] t
  | sent {before after : List Transaction} {t : Transaction}
      (several : 2 ≤ (before ++ t :: after).length) (sender : isSender t = true)
      (first : ∀ u ∈ before, isSender u = false) :
      IsRecordOf owners (before ++ t :: after) (if isInternal owners t then relabelled t else t)
  | paid {before after : List Transaction} {t : Transaction}
      (several : 2 ≤ (before ++ t :: after).length)
      (received : ∀ u ∈ before ++ t :: after, isSender u = false) (fee : hasFee t = true)
      (first : ∀ u ∈ before, hasFee u = false) : IsRecordOf owners (before ++ t :: after) t
  | first {t : Transaction} {rest : List Transaction} (several : rest ≠ [])
      (received : ∀ u ∈ t :: rest, isSender u = false) (free : ∀ u ∈ t :: rest, hasFee u = false) :
      IsRecordOf owners (t :: rest) t

theorem canonical_isRecordOf (owners : List String) {group : List Transaction} (h : group ≠ []) :
    ∃ t, canonical owners group = some t ∧ IsRecordOf owners group t := by
  match group, h with
  | [t], _ => exact ⟨t, rfl, .only t⟩
  | t :: u :: rest, _ =>
    rw [canonical]
    · cases hsender : (t :: u :: rest).find? isSender with
      | some sender =>
        rcases List.find?_eq_some_iff_append.mp hsender with ⟨hs, before, after, hgroup, hfirst⟩
        refine ⟨_, rfl, ?_⟩
        rw [hgroup]
        refine .sent ?_ hs fun v hv => by simpa using hfirst v hv
        rw [← hgroup]
        simp
      | none =>
        have hreceived : ∀ v ∈ t :: u :: rest, isSender v = false := by
          intro v hv
          simpa using List.find?_eq_none.mp hsender v hv
        cases hfee : (t :: u :: rest).find? hasFee with
        | some paid =>
          rcases List.find?_eq_some_iff_append.mp hfee with ⟨hp, before, after, hgroup, hfirst⟩
          refine ⟨paid, rfl, ?_⟩
          rw [hgroup] at hreceived ⊢
          refine .paid ?_ hreceived hp fun v hv => by simpa using hfirst v hv
          rw [← hgroup]
          simp
        | none =>
          refine ⟨t, rfl, .first (List.cons_ne_nil u rest) hreceived fun v hv => ?_⟩
          simpa using List.find?_eq_none.mp hfee v hv
    · exact List.cons_ne_nil t (u :: rest)
    · exact fun v hv => List.cons_ne_nil u rest (List.cons.inj hv).2

theorem IsRecordOf.source {group : List Transaction} (h : IsRecordOf owners group t) :
    ∃ u ∈ group, u.groupKey = t.groupKey ∧ u.timestamp = t.timestamp := by
  cases h with
  | only t => exact ⟨t, .head _, rfl, rfl⟩
  | sent several sender first =>
    refine ⟨_, List.mem_append_right _ (.head _), ?_⟩
    split <;> exact ⟨rfl, rfl⟩
  | paid several received fee first => exact ⟨t, List.mem_append_right _ (.head _), rfl, rfl⟩
  | first several received free => exact ⟨t, .head _, rfl, rfl⟩

def records (owners : List String) (ts : List Transaction) : List Transaction :=
  (groupKeys ts).filterMap fun key => canonical owners (groupOf ts key)

theorem Groups.Collects.canonicals {g : Groups} (h : g.Collects ts) (owners : List String) :
    g.canonicals owners = records owners ts := by
  rw [Groups.canonicals, h.slots, List.filterMap_map]
  rfl

/-- Every group shows exactly one record. -/
theorem map_groupKey_records (owners : List String) (ts : List Transaction) :
    (records owners ts).map Transaction.groupKey = groupKeys ts := by
  have hrecord : ∀ key ∈ groupKeys ts,
      (canonical owners (groupOf ts key)).map Transaction.groupKey = some key := by
    intro key hkey
    rcases canonical_isRecordOf owners (groupOf_ne_nil hkey) with ⟨t, ht, hrecord⟩
    obtain ⟨u, hu, hsame, -⟩ := hrecord.source
    rw [ht, Option.map_some, ← hsame, (mem_groupOf.mp hu).2]
  rw [records, List.map_filterMap, List.filterMap_congr hrecord]
  exact List.filterMap_some

theorem isRecordOf_of_mem_records (h : t ∈ records owners ts) :
    IsRecordOf owners (groupOf ts t.groupKey) t := by
  rcases List.mem_filterMap.mp h with ⟨key, hkey, ht⟩
  rcases canonical_isRecordOf owners (groupOf_ne_nil hkey) with ⟨u, hu, hrecord⟩
  obtain rfl : u = t := Option.some.inj (hu.symm.trans ht)
  rcases hrecord.source with ⟨v, hv, hsame, -⟩
  rwa [← hsame, (mem_groupOf.mp hv).2]

end AddressLedger.History
