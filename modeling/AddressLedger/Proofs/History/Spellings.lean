import AddressLedger.History.Reader
import AddressLedger.Proofs.Sync.Effect
import AddressLedger.Proofs.Text.Addresses

/-!
# One owner in all spellings

A run keeps its rows under the normal form of its address, and a reader asks for the rows of the
normal forms of its owners. An address that a sync accepts is accepted by a reader in any spelling,
and every spelling has the same normal form. So the rows of an address are found under each of its
spellings.
-/
namespace AddressLedger.History
open Service Store Sync

variable {φ : Type} {source : PageSource φ} {a : String} {mode : Mode}

/-- The rows that a run adds are kept under the normal form of its address. -/
theorem address_of_mem_syncAddress {s : Shared φ} (hopen : s.store.isOpen = true) {row : Row}
    (hrow : row ∈ (s.exec source (syncAddress a mode)).2.store.events)
    (hnew : row ∉ s.store.events) : row.address = normalizeAddress a := by
  obtain ⟨hrows, -⟩ := pageFrom_hasEffect source (normalizeAddress a) mode none 0
    (s := holding s (normalizeAddress a)) hopen
  rw [exec_syncAddress] at hrow
  dsimp only at hrow
  rw [hrows] at hrow
  obtain ⟨e, he, rfl⟩ := List.mem_map.1 ((List.mem_append.1 hrow).resolve_left hnew)
  obtain ⟨i, -, hi⟩ := List.mem_filterMap.1 ((novel_sublist _ _).mem he)
  have haddress := Event.address_of_ofItem? hi
  rwa [lower_normalizeAddress] at haddress

theorem mem_distinctOwners {r : HistoryRequest} {owner : String} :
    owner ∈ r.distinctOwners ↔ owner ≠ "" ∧ ∃ o ∈ r.owners, normalizeAddress o = owner := by
  simp [HistoryRequest.distinctOwners, and_comm]

theorem lower_of_mem_distinctOwners {r : HistoryRequest} {owner : String}
    (h : owner ∈ r.distinctOwners) : Text.lower owner = owner := by
  obtain ⟨-, o, -, rfl⟩ := mem_distinctOwners.1 h
  exact lower_normalizeAddress o

theorem matches_of_mem_distinctOwners {r : HistoryRequest} {row : Row}
    (h : row.address ∈ r.distinctOwners) :
    r.query.matches row =
      (r.chain.all (· == row.chain) && (r.includeScam || !row.isScam)) := by
  have howner : (r.distinctOwners.map Text.lower).contains row.address = true := by
    rw [List.contains_iff_mem]
    exact List.mem_map.2 ⟨row.address, h, lower_of_mem_distinctOwners h⟩
  rw [EventQuery.matches, HistoryRequest.query, howner, Bool.true_and]

theorem normalizeAddress_ne_empty (h : checkAddress a = .ok ()) : normalizeAddress a ≠ "" := by
  obtain ⟨digits, hform, -⟩ := normalizeAddress_form h
  rw [hform, ← String.toList_inj.ne]
  simp

/-- A list of addresses is accepted exactly if it has pieces that are not blank and each of them is
an address as it is written, and then it gives their normal forms in order, each of which is `0x`
and forty hexadecimal digits in lower case and its own normal form. An address has the same normal
form in any case of its letters and with any blanks around it, and no other text has it; in all
these spellings it is accepted, alone and as a list. What a run stored for an address under one
spelling, a reader whose list names it under any spelling asks for. -/
theorem spellings_find_the_same_rows :
    (∀ raw owners, parseAddressList raw = .ok owners ↔ segments raw ≠ [] ∧
      (∀ a ∈ segments raw, checkAddress a = .ok ()) ∧
      owners = (segments raw).map normalizeAddress) ∧
    (∀ raw owners, parseAddressList raw = .ok owners → ∀ owner ∈ owners,
      normalizeAddress owner = owner ∧
      ∃ digits : List Char, owner = String.ofList ('0' :: 'x' :: digits) ∧
        digits.length = 40 ∧ ∀ d ∈ digits, IsSmallHexDigit d) ∧
    (∀ a b, checkAddress a = .ok () →
      (normalizeAddress b = normalizeAddress a ↔
        Text.sameIgnoringAsciiCase (Text.trim b) (Text.trim a) = true) ∧
      (normalizeAddress b = normalizeAddress a →
        checkAddress b = .ok () ∧ parseAddressList b = .ok [normalizeAddress a])) ∧
    ∀ {φ : Type} (source : PageSource φ) (s : Shared φ) (a : String) (mode : Mode),
      s.store.isOpen = true →
      ∀ row ∈ (s.exec source (syncAddress a mode)).2.store.events, row ∉ s.store.events →
      ∀ (r : HistoryRequest) (raw : String), parseAddressList raw = .ok r.owners →
      (∃ b ∈ segments raw, normalizeAddress b = normalizeAddress a) →
      r.query.matches row =
        (r.chain.all (· == row.chain) && (r.includeScam || !row.isScam)) := by
  refine ⟨fun raw owners => parseAddressList_eq_ok_iff, ?_, ?_, ?_⟩
  · intro raw owners h owner howner
    obtain ⟨-, hchecks, rfl⟩ := parseAddressList_eq_ok_iff.1 h
    obtain ⟨a, ha, rfl⟩ := List.mem_map.1 howner
    exact ⟨normalizeAddress_idem a, normalizeAddress_form (hchecks a ha)⟩
  · intro a b h
    refine ⟨normalizeAddress_eq_iff h, fun hsame => ?_⟩
    have hb := checkAddress_congr hsame h
    exact ⟨hb, hsame ▸ parseAddressList_of_ok hb⟩
  · rintro φ source s a mode hopen row hrow hnew r raw hparse ⟨b, hb, hsame⟩
    obtain ⟨-, hchecks, howners⟩ := parseAddressList_eq_ok_iff.1 hparse
    apply matches_of_mem_distinctOwners
    rw [address_of_mem_syncAddress hopen hrow hnew, ← hsame, mem_distinctOwners, howners]
    exact ⟨normalizeAddress_ne_empty (hchecks b hb), normalizeAddress b,
      List.mem_map_of_mem hb, normalizeAddress_idem b⟩

def capitalAddress : String := "0XABCDEFABCDEFABCDEFABCDEFABCDEFABCDEFABCD"

/-- The address with blanks around it and letters of both cases. -/
def spacedAddress : String := "\t0xabcdefABCDEFabcdefABCDEFabcdefABCDEFabcd "

/-- A list that names the address once more, between pieces that are blank. -/
def spacedList : String := " ," ++ spacedAddress ++ ",,"

def capitalRow : Row :=
  Row.ofEvent { bareEvent "b" with address := normalizeAddress capitalAddress }

theorem capitalRow_isStored : capitalRow ∈
    ((tableOf []).exec samePage (syncAddress capitalAddress .catchUp)).2.store.events := by
  rw [syncAddress, pageFrom]
  decide +kernel

/-- The reader whose list names the address in its other spelling finds the row that was stored for
it. -/
theorem spellings_of_capitalAddress :
    checkAddress capitalAddress = .ok () ∧
    parseAddressList spacedAddress = .ok [normalizeAddress capitalAddress] ∧
    parseAddressList spacedList = .ok [normalizeAddress capitalAddress] ∧
    capitalRow ∈
      ((tableOf []).exec samePage (syncAddress capitalAddress .catchUp)).2.store.events ∧
    ∀ r : HistoryRequest, r.owners = [normalizeAddress capitalAddress] →
      r.query.matches capitalRow =
        (r.chain.all (· == capitalRow.chain) && (r.includeScam || !capitalRow.isScam)) := by
  obtain ⟨hlist, -, hspellings, hrows⟩ := spellings_find_the_same_rows
  have hcheck : checkAddress capitalAddress = .ok () := by decide +kernel
  have hcase : Text.sameIgnoringAsciiCase (Text.trim spacedAddress) (Text.trim capitalAddress) =
      true := by
    decide +kernel
  obtain ⟨hiff, haccept⟩ := hspellings capitalAddress spacedAddress hcheck
  have hsame := hiff.2 hcase
  have hsegments : segments spacedList = [spacedAddress] := by decide +kernel
  have hparse : parseAddressList spacedList = .ok [normalizeAddress capitalAddress] := by
    rw [hlist, hsegments]
    simp [haccept hsame, hsame]
  refine ⟨hcheck, (haccept hsame).2, hparse, capitalRow_isStored, fun r howners => ?_⟩
  apply hrows samePage (tableOf []) capitalAddress .catchUp rfl capitalRow capitalRow_isStored
    List.not_mem_nil r spacedList (howners ▸ hparse)
  exact ⟨spacedAddress, by simp [hsegments], hsame⟩

end AddressLedger.History
