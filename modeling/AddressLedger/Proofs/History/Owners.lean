import AddressLedger.Proofs.Catalog.Gathering
import AddressLedger.Proofs.History.Consistency
import Mathlib.Data.List.Destutter
import Mathlib.Data.List.Sort
import Mathlib.Data.String.Basic

/-!
# The set of owners

Of the owners that a request names, only the set of their normal forms counts: it decides whose rows
are read and which addresses are the owners' own. Requests that name the same set, in another order or
spelling, with repetitions or with blank entries, are the same procedure.
-/
namespace AddressLedger.History
open Catalog Service Store

variable {φ : Type} {r : HistoryRequest} {owners : List String} {a : String} {t : Transaction}
  {row : Row}

/-- The owners of a request in normal form, but for the empty one. -/
def HistoryRequest.ownerSet (r : HistoryRequest) : Set String :=
  {a | a ≠ "" ∧ ∃ o ∈ r.owners, normalizeAddress o = a}

def HistoryRequest.withOwners (r : HistoryRequest) (owners : List String) : HistoryRequest :=
  { r with owners := owners }

theorem mem_distinctOwners_iff_mem_ownerSet : a ∈ r.distinctOwners ↔ a ∈ r.ownerSet :=
  mem_distinctOwners

theorem nodup_distinctOwners (r : HistoryRequest) : r.distinctOwners.Nodup := by
  rw [HistoryRequest.distinctOwners, (List.mergeSort_perm _ _).nodup_iff]
  exact nodup_eraseDups _

/-- A list in ascending order that holds the set of owners is the list that a request uses. -/
theorem eq_distinctOwners {xs : List String} (hsorted : xs.Pairwise (· < ·))
    (hmem : ∀ a, a ∈ xs ↔ a ∈ r.ownerSet) : xs = r.distinctOwners := by
  have hperm : xs.Perm r.distinctOwners := by
    rw [List.perm_ext_iff_of_nodup (hsorted.imp ne_of_lt) (nodup_distinctOwners r)]
    intro a
    rw [hmem, mem_distinctOwners_iff_mem_ownerSet]
  exact hperm.eq_of_pairwise (fun a b _ _ => String.le_antisymm) (hsorted.imp le_of_lt)
    (List.pairwise_mergeSort' (· ≤ ·) _)

theorem pairwise_distinctOwners (r : HistoryRequest) : r.distinctOwners.Pairwise (· < ·) := by
  have hle : r.distinctOwners.Pairwise (· ≤ ·) := List.pairwise_mergeSort' (· ≤ ·) _
  exact (hle.and (nodup_distinctOwners r)).imp fun h => lt_of_le_of_ne h.1 h.2

theorem distinctOwners_withOwners (hset : (r.withOwners owners).ownerSet = r.ownerSet) :
    (r.withOwners owners).distinctOwners = r.distinctOwners := by
  apply eq_distinctOwners (pairwise_distinctOwners _)
  intro a
  rw [mem_distinctOwners_iff_mem_ownerSet, hset]

theorem mem_destutter {xs : List String} : a ∈ xs.destutter (· ≠ ·) ↔ a ∈ xs := by
  refine ⟨fun h => (List.destutter_sublist _ xs).subset h, fun h => ?_⟩
  cases xs with
  | nil => cases h
  | cons b xs =>
    rw [List.destutter_cons']
    induction xs generalizing b with
    | nil => exact h
    | cons c xs ih =>
      by_cases hbc : b = c
      · subst hbc
        rw [List.destutter'_cons_neg _ (by simp)]
        exact ih b (by simpa using h)
      · rw [List.destutter'_cons_pos _ hbc]
        rcases List.mem_cons.mp h with rfl | h
        · exact .head _
        · exact .tail _ (ih c h)

/-- The owners may as well be sorted first, then freed of repetitions and then of the empty one. -/
theorem filter_destutter_mergeSort (r : HistoryRequest) :
    (((r.owners.map normalizeAddress).mergeSort fun a b => a ≤ b).destutter (· ≠ ·)).filter
      (· ≠ "") = r.distinctOwners := by
  apply eq_distinctOwners
  · apply List.Pairwise.filter
    have hle := (List.pairwise_mergeSort' (· ≤ ·) (r.owners.map normalizeAddress)).sublist
      (List.destutter_sublist (· ≠ ·) _)
    have hne := List.isChain_destutter (· ≠ ·)
      ((r.owners.map normalizeAddress).mergeSort fun a b => a ≤ b)
    rw [← List.isChain_iff_pairwise, List.isChain_iff_getElem]
    intro i hi
    exact lt_of_le_of_ne (List.isChain_iff_getElem.mp hle.isChain i hi)
      (List.isChain_iff_getElem.mp hne i hi)
  · intro a
    simp [mem_destutter, HistoryRequest.ownerSet, and_comm]

theorem gather_withOwners (howners : (r.withOwners owners).distinctOwners = r.distinctOwners)
    (groups : Groups) (offset : Nat) :
    gather (r.withOwners owners) groups offset = gather r groups offset := by
  have hquery : (r.withOwners owners).query = r.query := by
    rw [HistoryRequest.query, howners]
    rfl
  induction groups, offset using gather.induct r with
  | case1 groups offset h ih =>
    rw [gather, gather, dif_pos h]
    rw [dif_pos (show groups.size < (r.withOwners owners).wanted ∧ offset < offsetBound from h),
      hquery]
    refine congrArg _ (funext fun chunk => ?_)
    split
    · rfl
    · rename_i hchunk
      exact congrArg _ (funext fun ts => ih chunk hchunk ts)
  | case2 groups offset h =>
    rw [gather, gather, dif_neg h]
    exact dif_neg h

theorem readHistory_withOwners (hset : (r.withOwners owners).ownerSet = r.ownerSet) :
    readHistory (r.withOwners owners) = readHistory r := by
  have howners := distinctOwners_withOwners hset
  rw [readHistory, readHistory, howners, gather_withOwners howners]
  rfl

theorem isInternal_iff : isInternal r.distinctOwners t = true ↔
    ∃ a, t.otherAddr = some a ∧ Text.lower a ∈ r.ownerSet := by
  simp only [isInternal, Option.any_eq_true, List.contains_iff_mem,
    mem_distinctOwners_iff_mem_ownerSet]

theorem query_matches_iff : r.query.matches row = true ↔
    row.address ∈ r.ownerSet ∧ (∀ c, r.chain = some c → row.chain = c) ∧
      (row.isScam = true → r.includeScam = true) := by
  have howner : (∃ o ∈ r.distinctOwners, Text.lower o = row.address) ↔
      row.address ∈ r.ownerSet := by
    rw [← mem_distinctOwners_iff_mem_ownerSet]
    constructor
    · rintro ⟨o, ho, haddress⟩
      rwa [← haddress, lower_of_mem_distinctOwners ho]
    · exact fun h => ⟨_, h, lower_of_mem_distinctOwners h⟩
  rw [EventQuery.matches_iff, ← howner]
  rfl

/-- Whatever is stored and whatever is cached, two requests that differ in their lists of owners, but
not in the set of the normal forms that are not empty, give the same answer and leave the same
behind. The owners of a request are listed once each, in ascending order; the rows that it matches are
those of the set, and a transaction is internal exactly if its other address is in the set. -/
theorem owners_count_as_a_set (source : PageSource φ) (s : Shared φ) (r : HistoryRequest)
    (owners : List String) (hset : (r.withOwners owners).ownerSet = r.ownerSet) :
    s.exec source (readHistory (r.withOwners owners)).run = s.exec source (readHistory r).run ∧
    (((r.owners.map normalizeAddress).mergeSort fun a b => a ≤ b).destutter (· ≠ ·)).filter
      (· ≠ "") = r.distinctOwners ∧
    (∀ row, r.query.matches row = true ↔ row.address ∈ r.ownerSet ∧
      (∀ c, r.chain = some c → row.chain = c) ∧ (row.isScam = true → r.includeScam = true)) ∧
    ∀ t, isInternal r.distinctOwners t = true ↔
      ∃ a, t.otherAddr = some a ∧ Text.lower a ∈ r.ownerSet := by
  refine ⟨?_, filter_destutter_mergeSort r, fun row => query_matches_iff, fun t => isInternal_iff⟩
  rw [readHistory_withOwners hset]

def respelledOwners : List String := ["\t0XB ", "", "0xa", " ", "0xb", "0xA\n"]

theorem ownerSet_respelledOwners :
    (bothOwners.withOwners respelledOwners).ownerSet = bothOwners.ownerSet := by
  have hrespelled : respelledOwners.map normalizeAddress = ["0xb", "", "0xa", "", "0xb", "0xa"] := by
    decide
  have hboth : bothOwners.owners.map normalizeAddress = ["0xa", "0xb"] := by decide
  ext a
  change (a ≠ "" ∧ ∃ o ∈ respelledOwners, normalizeAddress o = a) ↔
    a ≠ "" ∧ ∃ o ∈ bothOwners.owners, normalizeAddress o = a
  rw [← List.mem_map, ← List.mem_map, hrespelled, hboth]
  simp only [List.mem_cons, List.not_mem_nil]
  tauto

/-- The transfer between the owners is a self transfer for the respelled list, too. -/
theorem owners_of_ownTransfers :
    (bothOwners.withOwners respelledOwners).ownerSet = bothOwners.ownerSet ∧
    ∃ ts, (ownTransfers.exec noPages
        (readHistory (bothOwners.withOwners respelledOwners)).run).1 = .ok ts ∧
      ts.map (fun t => (t.hash, t.kind)) = [("y", "Send"), ("x", "Self Transfer")] := by
  have hsame := (owners_count_as_a_set noPages ownTransfers bothOwners respelledOwners
    ownerSet_respelledOwners).1
  exact ⟨ownerSet_respelledOwners, _, (congrArg Prod.fst hsame).trans readHistory_ownTransfers,
    by decide +kernel⟩

end AddressLedger.History
