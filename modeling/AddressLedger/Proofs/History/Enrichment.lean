import AddressLedger.History.Reader
import AddressLedger.Proofs.Catalog.Resolution

/-!
# Enriched events

Events are read with the reference data of the store, however the ids are looked up: chunk by chunk,
and from the cache or not. An empty id refers to nothing.
-/
namespace AddressLedger.History
open Catalog Service Store

variable {α : Type}

/-- The rows of a table by their keys, but for the empty key. -/
def named (keyOf : α → String) (rows : List α) : List (String × α) :=
  (rows.filter fun row => keyOf row ≠ "").map fun row => (keyOf row, row)

theorem get?_named (keyOf : α → String) (rows : List α) (id : String) :
    Keyed.get? id (named keyOf rows) = if id = "" then none else Table.get? keyOf id rows := by
  induction rows with
  | nil => simp [named, Table.get?]
  | cons row rows ih =>
    simp only [named, Table.get?] at ih
    by_cases hrow : keyOf row = ""
    · by_cases hid : id = ""
      · simpa [named, hrow, hid] using ih
      · have hne : keyOf row ≠ id := fun e => hid (e.symm.trans hrow)
        simpa [named, Table.get?, hrow, hid, Ne.symm hid] using ih
    · by_cases hid : keyOf row = id
      · subst hid
        simp [named, Table.get?, Keyed.get?, hrow]
      · simpa [named, Table.get?, Keyed.get?, hrow, hid] using ih

def storedReference (st : Store) : Reference :=
  ⟨named Token.id st.tokens, named Project.id st.projects,
    named ExchangeAddress.address st.exchanges⟩

theorem mem_needed {ids : List (Option String)} {id : String} :
    id ∈ needed ids ↔ some id ∈ ids ∧ id ≠ "" := by
  simp [needed]

theorem tokenChange_congr {tokens tokens' : Tokens} {id : String}
    (h : Keyed.get? id tokens = Keyed.get? id tokens') (amount : Float) :
    tokenChange tokens id amount = tokenChange tokens' id amount := by
  rw [tokenChange, h, tokenChange]

/-- An event is read with what the reference data says of the ids that it holds. -/
theorem enrich_congr {ref ref' : Reference} {e : Event}
    (htokens : ∀ id ∈ tokenIds e, Keyed.get? (id.getD "") ref.tokens =
      Keyed.get? (id.getD "") ref'.tokens)
    (hprojects : ∀ id, e.payload.projectId = some id → Keyed.get? id ref.projects =
      Keyed.get? id ref'.projects)
    (hexchanges : ∀ a, (sides e).2 = some a → Keyed.get? (Text.lower a) ref.exchanges =
      Keyed.get? (Text.lower a) ref'.exchanges) : enrich ref e = enrich ref' e := by
  have hchanges : tokenChanges ref.tokens e.payload = tokenChanges ref'.tokens e.payload := by
    have hids : ∀ l ∈ e.payload.sends ++ e.payload.receives, l.tokenId ∈ tokenIds e :=
      fun l hl => List.mem_map.mpr ⟨l, hl, rfl⟩
    rw [tokenChanges, tokenChanges]
    congr 1
    · exact List.map_congr_left fun l hl =>
        tokenChange_congr (htokens _ (hids l (List.mem_append_left _ hl))) _
    · exact List.map_congr_left fun l hl =>
        tokenChange_congr (htokens _ (hids l (List.mem_append_right _ hl))) _
  have hparty : counterparty ref.projects ref.exchanges e.payload.projectId (sides e).2 =
      counterparty ref'.projects ref'.exchanges e.payload.projectId (sides e).2 := by
    have hproject : (e.payload.projectId.bind fun id => Keyed.get? id ref.projects) =
        e.payload.projectId.bind fun id => Keyed.get? id ref'.projects := by
      cases hid : e.payload.projectId with
      | none => rfl
      | some id => exact hprojects id hid
    have hexchange : ((sides e).2.bind fun a => Keyed.get? (Text.lower a) ref.exchanges) =
        (sides e).2.bind fun a => Keyed.get? (Text.lower a) ref'.exchanges := by
      cases ha : (sides e).2 with
      | none => rfl
      | some a => exact hexchanges a ha
    rw [counterparty, hproject, hexchange, counterparty]
  simp only [enrich, hchanges, hparty]

/-- The other address of an event is in lower case. -/
theorem lower_sides {e : Event} {a : String} (h : (sides e).2 = some a) : Text.lower a = a := by
  simp only [sides, otherAddress, Option.map_eq_some_iff] at h
  obtain ⟨b, -, rfl⟩ := h
  exact Text.lower_lower b

theorem get?_storedTokens (st : Store) (id : String) :
    Keyed.get? id (storedReference st).tokens =
      if id = "" then none else (st.record? ⟨.token, id⟩).bind Record.token? := by
  rw [storedReference, get?_named, record?]
  cases Table.get? Token.id id st.tokens <;> rfl

theorem get?_storedProjects (st : Store) (id : String) :
    Keyed.get? id (storedReference st).projects =
      if id = "" then none else (st.record? ⟨.project, id⟩).bind Record.project? := by
  rw [storedReference, get?_named, record?]
  cases Table.get? Project.id id st.projects <;> rfl

theorem get?_storedExchanges (st : Store) (address : String) :
    Keyed.get? address (storedReference st).exchanges =
      if address = "" then none
      else (st.record? ⟨.counterparty, address⟩).bind Record.counterparty? := by
  rw [storedReference, get?_named, record?]
  cases Table.get? ExchangeAddress.address address st.exchanges <;> rfl

/-- What is looked up for a chunk says of each of its events what the store says. -/
theorem finds_referenceFor (st : Store) (events : List Event) :
    Finds st (fun result => ∃ ref, result = .ok ref ∧
      ∀ e ∈ events, enrich ref e = enrich (storedReference st) e) (referenceFor events).run := by
  apply Finds.run_bind (finds_resolveTokens st _)
  intro tokens htokens
  apply Finds.run_bind (finds_resolveProjects st _)
  intro projects hprojects
  apply Finds.run_bind (finds_resolveExchanges st _)
  intro exchanges hexchanges
  refine ⟨_, rfl, fun e he => enrich_congr (fun id hid => ?_) (fun id hid => ?_) ?_⟩
  · rw [htokens, get?_storedTokens]
    cases id with
    | none => simp [mem_needed]
    | some id =>
      by_cases hempty : id = ""
      · simp [mem_needed, hempty]
      · have hmem : id ∈ needed (events.flatMap tokenIds) :=
          mem_needed.mpr ⟨List.mem_flatMap.mpr ⟨e, he, hid⟩, hempty⟩
        simp [hmem, hempty]
  · rw [hprojects, get?_storedProjects]
    by_cases hempty : id = ""
    · simp [mem_needed, hempty]
    · have hmem : id ∈ needed (events.map (·.payload.projectId)) :=
        mem_needed.mpr ⟨List.mem_map.mpr ⟨e, he, hid⟩, hempty⟩
      simp [hmem, hempty]
  · intro a ha
    rw [hexchanges, get?_storedExchanges, lower_sides ha]
    by_cases hempty : a = ""
    · have hnot : a ∉ (needed (events.map fun e => (sides e).2)).map Text.lower := by
        intro hmem
        rcases List.mem_map.mp hmem with ⟨b, hb, hlower⟩
        rcases mem_needed.mp hb with ⟨hb, hne⟩
        rcases List.mem_map.mp hb with ⟨e, -, hside⟩
        rw [lower_sides hside, hempty] at hlower
        exact hne hlower
      rw [if_neg hnot, if_pos hempty]
    · have hmem : a ∈ needed (events.map fun e => (sides e).2) :=
        mem_needed.mpr ⟨List.mem_map.mpr ⟨e, he, ha⟩, hempty⟩
      have hlower : a ∈ (needed (events.map fun e => (sides e).2)).map Text.lower :=
        List.mem_map.mpr ⟨a, hmem, lower_sides ha⟩
      simp [hlower, hempty]

/-- The transactions of some events that are shown: no approval, and not below the least value. -/
def survivors (st : Store) (minValueUsd : Float) (events : List Event) : List Transaction :=
  ((events.filter fun e => !isApprovalOnly e.payload).map (enrich (storedReference st))).filter
    (isShown minValueUsd)

theorem survivors_append (st : Store) (minValueUsd : Float) (events more : List Event) :
    survivors st minValueUsd (events ++ more) =
      survivors st minValueUsd events ++ survivors st minValueUsd more := by
  simp [survivors]

theorem finds_candidates (st : Store) (minValueUsd : Float) (chunk : List Event) :
    Finds st (fun result => ∃ ts, result = .ok ts ∧ ts = survivors st minValueUsd chunk)
      (candidates minValueUsd chunk).run := by
  refine Finds.run_bind (finds_referenceFor st _) fun ref href => ⟨_, rfl, ?_⟩
  rw [survivors, List.map_congr_left href]

end AddressLedger.History
