import AddressLedger.Proofs.History.Consistency

/-!
# The choice of a record

The record of a group is the first that fits. If only one fits, it is the same in whatever order the
group is, that is, whichever of the owners was synced first. Without a choice to make, a group still
shows one of its own, unless it is empty.
-/
namespace AddressLedger.History

variable {owners : List String} {group other : List Transaction} {t u : Transaction}

theorem find?_eq_some_of_countP {α : Type} {p : α → Bool} {xs : List α} {x : α} (hx : x ∈ xs)
    (hp : p x = true) (hone : xs.countP p = 1) : xs.find? p = some x := by
  rw [List.countP_eq_length_filter, List.length_eq_one_iff] at hone
  obtain ⟨y, hy⟩ := hone
  have hmem : x ∈ xs.filter p := List.mem_filter.mpr ⟨hx, hp⟩
  rw [hy, List.mem_singleton] at hmem
  rw [← List.head?_filter, hy, hmem]
  rfl

theorem find?_eq_none_of_countP {α : Type} {p : α → Bool} {xs : List α} (h : xs.countP p = 0) :
    xs.find? p = none := by
  rw [List.countP_eq_zero] at h
  rw [List.find?_eq_none]
  exact h

theorem canonical_of_two_le (owners : List String) (h : 2 ≤ group.length) :
    canonical owners group = match group.find? isSender with
      | some t => some (if isInternal owners t then relabelled t else t)
      | none => (group.find? hasFee).or group.head? := by
  match group, h with
  | t :: u :: rest, _ => rfl

theorem eq_singleton_of_mem (ht : t ∈ group) (hone : ¬ 2 ≤ group.length) : group = [t] := by
  obtain ⟨u, rfl⟩ := List.length_eq_one_iff.mp
    (Nat.le_antisymm (Nat.lt_succ_iff.mp (Nat.lt_of_not_le hone)) (List.length_pos_of_mem ht))
  rw [List.mem_singleton.mp ht]

/-- The record of a group with a single sender is the sender's. -/
theorem canonical_of_one_sender (owners : List String) (ht : t ∈ group) (hsender : isSender t = true)
    (hone : group.countP isSender = 1) : canonical owners group =
      some (if 2 ≤ group.length ∧ isInternal owners t = true then relabelled t else t) := by
  by_cases hseveral : 2 ≤ group.length
  · rw [canonical_of_two_le owners hseveral, find?_eq_some_of_countP ht hsender hone]
    simp [hseveral]
  · rw [if_neg fun h => hseveral h.1, eq_singleton_of_mem ht hseveral]
    rfl

/-- The record of a group without senders and with a single fee is that with the fee. -/
theorem canonical_of_one_fee (owners : List String) (ht : t ∈ group) (hfee : hasFee t = true)
    (hnone : group.countP isSender = 0) (hone : group.countP hasFee = 1) :
    canonical owners group = some t := by
  by_cases hseveral : 2 ≤ group.length
  · rw [canonical_of_two_le owners hseveral, find?_eq_none_of_countP hnone,
      find?_eq_some_of_countP ht hfee hone]
    rfl
  · rw [eq_singleton_of_mem ht hseveral]
    rfl

theorem canonical_of_perm (owners : List String) (h : other.Perm group)
    (hforced : group.countP isSender = 1 ∨
      group.countP isSender = 0 ∧ group.countP hasFee = 1) :
    canonical owners other = canonical owners group := by
  rcases hforced with hone | ⟨hnone, hone⟩
  · obtain ⟨t, ht, hsender⟩ := List.countP_pos_iff.mp (hone ▸ Nat.zero_lt_one)
    rw [canonical_of_one_sender owners ht hsender hone,
      canonical_of_one_sender owners (h.mem_iff.mpr ht) hsender ((h.countP_eq _).trans hone),
      h.length_eq]
  · obtain ⟨t, ht, hfee⟩ := List.countP_pos_iff.mp (hone ▸ Nat.zero_lt_one)
    rw [canonical_of_one_fee owners ht hfee hnone hone,
      canonical_of_one_fee owners (h.mem_iff.mpr ht) hfee ((h.countP_eq _).trans hnone)
        ((h.countP_eq _).trans hone)]

theorem canonical_eq_none_iff : canonical owners group = none ↔ group = [] := by
  refine ⟨fun hnone => ?_, fun hempty => hempty ▸ rfl⟩
  by_contra hne
  obtain ⟨t, ht, -⟩ := canonical_isRecordOf owners hne
  rw [ht] at hnone
  cases hnone

theorem origin_of_canonical (h : canonical owners group = some t) :
    t ∈ group ∨ ∃ u ∈ group, isSender u = true ∧ isInternal owners u = true ∧ 2 ≤ group.length ∧
      t = relabelled u := by
  have hne : group ≠ [] := fun hempty => by simp [canonical_eq_none_iff.mpr hempty] at h
  obtain ⟨u, hu, hrecord⟩ := canonical_isRecordOf owners hne
  obtain rfl : u = t := Option.some.inj (hu.symm.trans h)
  exact hrecord.origin

/-- If a single transaction of a group is a sender's, or none is and a single one has a fee, the
group shows the same record in any order: that transaction, and a sender's as a self transfer if it
is not alone and went to an owner. In any case a group shows a record unless it is empty, and the
record is one of its own, or one of a sender as a self transfer. -/
theorem forced_choice_ignores_order (owners : List String) (group : List Transaction) :
    (group.countP isSender = 1 ∨ group.countP isSender = 0 ∧ group.countP hasFee = 1 →
      ∀ other : List Transaction, other.Perm group →
        canonical owners other = canonical owners group) ∧
    (∀ t ∈ group, isSender t = true → group.countP isSender = 1 → canonical owners group =
      some (if 2 ≤ group.length ∧ isInternal owners t = true then relabelled t else t)) ∧
    (∀ t ∈ group, hasFee t = true → group.countP isSender = 0 → group.countP hasFee = 1 →
      canonical owners group = some t) ∧
    (canonical owners group = none ↔ group = []) ∧
    ∀ t, canonical owners group = some t →
      t ∈ group ∨ ∃ u ∈ group, isSender u = true ∧ isInternal owners u = true ∧
        2 ≤ group.length ∧ t = relabelled u :=
  ⟨fun hforced _ h => canonical_of_perm owners h hforced,
    fun _ ht hsender hone => canonical_of_one_sender owners ht hsender hone,
    fun _ ht hfee hnone hone => canonical_of_one_fee owners ht hfee hnone hone,
    canonical_eq_none_iff, fun _ => origin_of_canonical⟩

/-- A transfer as one of its owners tells of it. -/
def toldBy (wallet : String) (side : Direction) (other : String) (fee : Option Float) :
    Transaction :=
  ⟨"x", "eth", some 10, "", none, none, sendKind, side, .unresolved, some other, wallet, [], fee,
    none, false, ""⟩

/-- The sender's record is shown, and without one that with a fee, wherever it stands. -/
theorem forced_choices_of_toldBy :
    let sent := toldBy "0xa" .sender "0xB" none
    let received := toldBy "0xb" .receiver "0xa" (some 0)
    let paid := toldBy "0xc" .receiver "0xa" (some 2)
    canonical ["0xb"] [sent, received, paid] = some (relabelled sent) ∧
    canonical ["0xb"] [paid, received, sent] = some (relabelled sent) ∧
    canonical ["0xb"] [received, paid] = some paid ∧
    canonical ["0xb"] [paid, received] = some paid := by
  intro sent received paid
  obtain ⟨hperm, hsender, -⟩ := forced_choice_ignores_order ["0xb"] [sent, received, paid]
  obtain ⟨hperm', -, hfee, -⟩ := forced_choice_ignores_order ["0xb"] [received, paid]
  have hinternal : 2 ≤ [sent, received, paid].length ∧ isInternal ["0xb"] sent = true := by
    decide
  have hsent := hsender sent (.head _) rfl rfl
  rw [if_pos hinternal] at hsent
  have hpaid := hfee paid (.tail _ (.head _)) (by decide) rfl (by decide +kernel)
  refine ⟨hsent, ?_, hpaid, ?_⟩
  · exact (hperm (.inl rfl) _ (List.reverse_perm [sent, received, paid])).trans hsent
  · exact (hperm' (.inr ⟨rfl, by decide⟩) _ (List.reverse_perm [received, paid])).trans
      hpaid

end AddressLedger.History
