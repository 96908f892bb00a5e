import AddressLedger.Settings
import AddressLedger.Proofs.Text.Octets
import AddressLedger.Proofs.Text.Trimmed
import Mathlib.Data.Prod.Lex
import Mathlib.Data.String.Basic

/-!
# Tracked addresses

The variables that give an address to track are put in the order of the octets of their names, and of
their values where the names are equal. This order is total, so the variables may be given in any
order. An address is tracked in normal form.
-/
namespace AddressLedger.Settings

variable {vars vars' : List (String × String)} {a b : String × String}

/-- Whether a variable gives an address: its name starts like those that do, and a character of its
value is not blank. -/
def Tracks (entry : String × String) : Prop :=
  (∃ rest, entry.1 = "TRACKED_ADDRESS_" ++ rest) ∧ ∃ c ∈ entry.2.toList, Text.isBlank c = false

def octets (s : String) : List UInt8 := Text.utf8 s.toList

/-- Names in the ascending order of their octets, and so the values of equal names. -/
def InOrder (a b : String × String) : Prop :=
  octets a.1 < octets b.1 ∨ a.1 = b.1 ∧ ¬ octets b.2 < octets a.2

theorem octets_lt_iff {s t : String} : octets s < octets t ↔ s < t := Text.utf8_lt_utf8_iff

theorem entryLe_iff : entryLe a b = true ↔ toLex a ≤ toLex b := by
  simp only [entryLe, Prod.Lex.toLex_le_toLex, Bool.or_eq_true, Bool.and_eq_true, beq_iff_eq,
    decide_eq_true_eq]

theorem inOrder_iff : InOrder a b ↔ entryLe a b = true := by
  simp only [InOrder, octets_lt_iff, not_lt, entryLe_iff, Prod.Lex.toLex_le_toLex]

theorem pairwise_mergeSort_entryLe (entries : List (String × String)) :
    (entries.mergeSort entryLe).Pairwise fun a b => entryLe a b = true := by
  apply List.pairwise_mergeSort
  · intro a b c
    simp only [entryLe_iff]
    exact le_trans
  · intro a b
    simp only [Bool.or_eq_true, entryLe_iff]
    exact le_total _ _

/-- Entries have a single arrangement in order. -/
theorem mergeSort_entryLe_congr {entries entries' : List (String × String)}
    (h : entries.Perm entries') : entries.mergeSort entryLe = entries'.mergeSort entryLe := by
  have hperm : (entries.mergeSort entryLe).Perm (entries'.mergeSort entryLe) :=
    (List.mergeSort_perm _ _).trans (h.trans (List.mergeSort_perm _ _).symm)
  apply hperm.eq_of_pairwise _ (pairwise_mergeSort_entryLe _) (pairwise_mergeSort_entryLe _)
  intro a b _ _ hab hba
  rw [entryLe_iff] at hab hba
  exact toLex_inj.mp (le_antisymm hab hba)

theorem isPrefixOf_iff {stem name : String} :
    stem.toList.isPrefixOf name.toList = true ↔ ∃ rest, name = stem ++ rest := by
  rw [List.isPrefixOf_iff_prefix]
  constructor
  · rintro ⟨rest, hrest⟩
    refine ⟨String.ofList rest, ?_⟩
    rw [← String.toList_inj, String.toList_append, String.toList_ofList, hrest]
  · rintro ⟨rest, rfl⟩
    exact ⟨rest.toList, String.toList_append.symm⟩

theorem isTracked_iff : isTracked a = true ↔ Tracks a := by
  rw [isTracked, Tracks, ← Text.trim_ne_empty_iff, ← trackedStem, ← isPrefixOf_iff]
  simp

theorem normalizeAddress_ne_empty_of_tracks (h : Tracks a) : normalizeAddress a.2 ≠ "" := by
  have hvalue := Text.trim_ne_empty_iff.mpr h.2
  rw [← String.toList_inj.ne] at hvalue ⊢
  rw [normalizeAddress, Text.toList_lower]
  exact mt Text.lowerAfter_eq_nil_iff.mp hvalue

/-- The variables may be given in any order. The tracked addresses are the normal forms of the
values of some of them: of those with the stem and a value that is not blank, each as often as it is
given, and of no others, in the order of the octets. None of the addresses is empty, and each is its
own normal form. -/
theorem tracked_addresses_in_any_order (h : vars.Perm vars') :
    trackedAddressesFrom vars = trackedAddressesFrom vars' ∧
    (∃ entries : List (String × String), entries.Pairwise InOrder ∧
      (∀ a, (Tracks a → entries.count a = vars.count a) ∧ (¬ Tracks a → a ∉ entries)) ∧
      trackedAddressesFrom vars = entries.map fun a => normalizeAddress a.2) ∧
    ∀ address ∈ trackedAddressesFrom vars, address ≠ "" ∧ normalizeAddress address = address := by
  have hmem : ∀ a, a ∈ (vars.filter isTracked).mergeSort entryLe → Tracks a := by
    intro a ha
    rw [List.mem_mergeSort] at ha
    exact isTracked_iff.mp (List.mem_filter.mp ha).2
  refine ⟨?_, ⟨(vars.filter isTracked).mergeSort entryLe, ?_, fun a => ⟨fun ha => ?_, ?_⟩, rfl⟩, ?_⟩
  · rw [trackedAddressesFrom, mergeSort_entryLe_congr (h.filter isTracked), trackedAddressesFrom]
  · exact (pairwise_mergeSort_entryLe _).imp inOrder_iff.mpr
  · rw [(List.mergeSort_perm _ _).count_eq, List.count_filter (isTracked_iff.mpr ha)]
  · exact mt (hmem a)
  · intro address haddress
    obtain ⟨a, ha, rfl⟩ := List.mem_map.mp haddress
    exact ⟨normalizeAddress_ne_empty_of_tracks (hmem a ha), normalizeAddress_idem a.2⟩

/-- Two variables that count and two that do not, the greater name first. -/
def fourVariables : List (String × String) :=
  [("TRACKED_ADDRESS_2", "\u3000 0xBBBB\n"), ("SERVER_PORT", "8111"), ("TRACKED_ADDRESS_3", " \t"),
    ("TRACKED_ADDRESS_10", "0xΑΣ")]

theorem trackedAddressesFrom_reverse_fourVariables :
    trackedAddressesFrom fourVariables.reverse = ["0xας", "0xbbbb"] := by
  have htracked : fourVariables.reverse.filter isTracked =
      [("TRACKED_ADDRESS_10", "0xΑΣ"), ("TRACKED_ADDRESS_2", "\u3000 0xBBBB\n")] := by
    decide +kernel
  rw [trackedAddressesFrom, htracked, List.mergeSort_of_pairwise (by decide +kernel)]
  decide +kernel

theorem tracked_addresses_of_fourVariables :
    fourVariables.Perm fourVariables.reverse ∧
    trackedAddressesFrom fourVariables = ["0xας", "0xbbbb"] :=
  have hperm : fourVariables.Perm fourVariables.reverse := (List.reverse_perm _).symm
  ⟨hperm, (tracked_addresses_in_any_order hperm).1.trans trackedAddressesFrom_reverse_fourVariables⟩

end AddressLedger.Settings
