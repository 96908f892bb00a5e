import AddressLedger.Proofs.History.Sides

/-!
# Rows without legs

An item that moves nothing is labelled by its own name, which is free text, and described by its
label. A description is worded after its label, so a name that is one of the labels of transfers is
worded as a transfer, of nothing; under any other name the label stands alone or with the other
party.
-/
namespace AddressLedger.History
open Feed

variable {tokens : Tokens} {t : Transaction} {i : Item} {label text : String}

/-- The labels under which transfers are described. -/
def transferKinds : List String := [swapKind, sendKind, receiveKind, selfTransferKind]

inductive IsLabelled (label : String) : String → Prop
  | alone : IsLabelled label label
  | shared (party : String) : IsLabelled label (label ++ " with " ++ party)

theorem kind_of_legless (h : i.hasTransfers = false) :
    kind i = (i.tx.name.filter (· ≠ "")).getD interactionKind := by
  have hnone : i.sends.isEmpty = true ∧ i.receives.isEmpty = true := by
    simpa [Item.hasTransfers] using h
  rw [kind, hnone.1, hnone.2]

theorem kind_mem_transferKinds_iff (h : i.hasTransfers = false) :
    kind i ∈ transferKinds ↔ ∃ name ∈ transferKinds, i.tx.name = some name := by
  have hmadeUp : interactionKind ∉ transferKinds := by decide
  have hnonempty : "" ∉ transferKinds := by decide
  rw [kind_of_legless h]
  cases hname : i.tx.name with
  | none => simpa using hmadeUp
  | some name =>
    by_cases hempty : name = ""
    · simpa [hempty, hnonempty, Option.filter] using hmadeUp
    · simp [hempty, Option.filter]

/-- The word that follows the label in the wording of a transfer of nothing is no party. -/
theorem not_isLabelled_nothing (label rest : String) :
    ¬ IsLabelled label (label ++ (" nothing" ++ rest)) := by
  intro h
  generalize htext : label ++ (" nothing" ++ rest) = text at h
  replace htext := congrArg String.toList htext
  cases h with
  | alone => simp at htext
  | shared party => simp [List.append_assoc] at htext

theorem not_isLabelled_selfTransfer :
    ¬ IsLabelled selfTransferKind "Move nothing between own wallets" := by
  intro h
  generalize htext : "Move nothing between own wallets" = text at h
  replace htext := congrArg String.toList htext
  cases h with
  | alone => simp [selfTransferKind] at htext
  | shared party => simp [selfTransferKind] at htext

/-- Under any other label, a description is the label, with the other party if there is one. -/
theorem describe_of_not_transfer (h : t.kind ∉ transferKinds) :
    describe t = t.kind ++ ((partyLabel t).map (" with " ++ ·)).getD "" := by
  simp only [transferKinds, List.mem_cons, List.not_mem_nil, or_false, not_or] at h
  obtain ⟨hswap, hsend, hreceive, hself⟩ := h
  rw [describe, if_neg hswap, if_neg hsend, if_neg hreceive, if_neg hself]
  cases partyLabel t <;> simp [String.append_assoc]

def nothingMoved (t : Transaction) : String :=
  if t.kind = selfTransferKind then "Move nothing between own wallets"
  else legsDescription [] [] [] t

theorem describe_of_transfer (hchanges : t.changes = []) (h : t.kind ∈ transferKinds) :
    describe t = nothingMoved t := by
  have hsent : sentChanges t = [] := by simp [sentChanges, hchanges]
  have hreceived : receivedChanges t = [] := by simp [receivedChanges, hchanges]
  rw [nothingMoved]
  split
  · rename_i hself
    rw [describe, hself, hsent]
    rfl
  · rename_i hself
    have htransfer : t.kind = swapKind ∨ t.kind = sendKind ∨ t.kind = receiveKind := by
      simpa [transferKinds, hself] using h
    have hlegs : listChanges [] = listLegs [] [] := rfl
    exact describe_eq_legsDescription htransfer (hsent ▸ hlegs) (hreceived ▸ hlegs)

theorem exists_nothingMoved (h : t.kind ∈ transferKinds) (hself : t.kind ≠ selfTransferKind) :
    ∃ rest, nothingMoved t = t.kind ++ (" nothing" ++ rest) := by
  rw [nothingMoved, if_neg hself, legsDescription]
  split
  · rename_i hswap
    refine ⟨" for " ++ "nothing" ++ ((partyLabel t).map (" via " ++ ·)).getD "", ?_⟩
    rw [hswap, ← String.toList_inj]
    simp [listLegs, swapKind]
  · split
    · rename_i hsend
      refine ⟨" to " ++ (partyLabel t).getD "unknown", ?_⟩
      rw [hsend, ← String.toList_inj]
      simp [listLegs, sendKind]
    · rename_i hswap hsend
      have hreceive : t.kind = receiveKind := by simpa [transferKinds, hswap, hsend, hself] using h
      refine ⟨" from " ++ (partyLabel t).getD "unknown", ?_⟩
      rw [hreceive, ← String.toList_inj]
      simp [listLegs, receiveKind]

/-- The wording of a transfer is neither its label nor its label with a party. -/
theorem not_isLabelled_nothingMoved (h : t.kind ∈ transferKinds) :
    ¬ IsLabelled t.kind (nothingMoved t) := by
  by_cases hself : t.kind = selfTransferKind
  · rw [nothingMoved, if_pos hself, hself]
    exact not_isLabelled_selfTransfer
  · obtain ⟨rest, hrest⟩ := exists_nothingMoved h hself
    rw [hrest]
    exact not_isLabelled_nothing t.kind rest

theorem isLabelled_of_not_transfer (h : t.kind ∉ transferKinds) :
    IsLabelled t.kind (describe t) := by
  rw [describe_of_not_transfer h]
  cases partyLabel t with
  | none => simpa using IsLabelled.alone
  | some party => simpa [String.append_assoc] using IsLabelled.shared party

/-- An item without legs is labelled by its own name, or as an interaction if it has none. It is
described by the label alone or with the other party, unless the name is one of the labels of
transfers: then it is described as a transfer of nothing. -/
theorem description_of_legless (ref : Reference) {e : Event}
    (h : e.payload.hasTransfers = false) :
    let t := enrich ref e
    t.kind = (e.payload.tx.name.filter (· ≠ "")).getD interactionKind ∧
    (IsLabelled t.kind t.description ↔
      ¬ ∃ name ∈ transferKinds, e.payload.tx.name = some name) ∧
    t.description =
      if t.kind ∈ transferKinds then nothingMoved t
      else t.kind ++ ((partyLabel t).map (" with " ++ ·)).getD "" := by
  intro t
  have hnone : e.payload.sends = [] ∧ e.payload.receives = [] := by
    simpa [Item.hasTransfers] using h
  have hchanges : t.changes = [] := by
    rw [changes_enrich, hnone.1, hnone.2]
    rfl
  have hdescription : t.description = describe t := rfl
  refine ⟨kind_of_legless h, ?_, ?_⟩
  · rw [← kind_mem_transferKinds_iff h, hdescription]
    constructor
    · intro hlabelled htransfer
      rw [describe_of_transfer hchanges htransfer] at hlabelled
      exact not_isLabelled_nothingMoved htransfer hlabelled
    · exact isLabelled_of_not_transfer (t := t)
  · rw [hdescription]
    split
    · rename_i htransfer
      exact describe_of_transfer hchanges htransfer
    · rename_i hother
      exact describe_of_not_transfer hother

/-- An event without legs, of an item with a name, that is sent to an address. -/
def eventNamed (name : String) : Event :=
  storedAs ⟨some "1", some "eth", none, none, false, none, none, [], [], none,
    ⟨none, some "0x9999999999999999999999999999999999999999", some name, none, none, []⟩, []⟩

/-- The name of a swap is taken for one, any other name is the description. -/
theorem description_of_names :
    (eventNamed "Swap").payload.hasTransfers = false ∧
    ¬ IsLabelled "Swap" (enrich threeTokens (eventNamed "Swap")).description ∧
    (enrich threeTokens (eventNamed "Swap")).description =
      "Swap nothing for nothing via 0x9999…9999" ∧
    (eventNamed "Swap all").payload.hasTransfers = false ∧
    IsLabelled "Swap all" (enrich threeTokens (eventNamed "Swap all")).description ∧
    (enrich threeTokens (eventNamed "Swap all")).description = "Swap all with 0x9999…9999" := by
  obtain ⟨-, hswap, -⟩ := description_of_legless threeTokens (e := eventNamed "Swap") rfl
  obtain ⟨-, hall, -⟩ := description_of_legless threeTokens (e := eventNamed "Swap all") rfl
  refine ⟨rfl, fun h => ?_, by decide +kernel, rfl, ?_, by decide +kernel⟩
  · exact hswap.1 h ⟨"Swap", by decide, rfl⟩
  · exact hall.2 (by decide +kernel)

end AddressLedger.History
