import AddressLedger.History.Reader
import AddressLedger.Proofs.Feed.Payload
import AddressLedger.Proofs.Number.Sign

/-!
# The sides of a transaction in its description

A description tells what is sent from what is received by the signs of the changes. All that is
received stands on its own side, zero amounts as well. Of what is sent the sign of a zero amount is
lost: it is negative zero, which is not below zero, so the leg is named with those received.
-/
namespace AddressLedger.History
open Catalog Feed Number

variable {tokens : Tokens} {e : Event} {legs : List Leg}

def symbolOf (tokens : Tokens) (tokenId : String) : String :=
  ((Keyed.get? tokenId tokens).bind Token.bestSymbol).getD unknownSymbol

/-- A leg in words: its amount without a sign, and the symbol of its token. -/
def legText (tokens : Tokens) (l : Leg) : String :=
  amountText l.amount.abs ++ " " ++ symbolOf tokens (l.tokenId.getD "")

def listLegs (tokens : Tokens) (legs : List Leg) : String :=
  if legs.isEmpty then "nothing" else ", ".intercalate (legs.map (legText tokens))

def hasAmount (l : Leg) : Bool := !(l.amount == 0)

@[simp] theorem tokenChange_amount (tokens : Tokens) (tokenId : String) (amount : Float) :
    (tokenChange tokens tokenId amount).amount = amount := by
  rw [tokenChange]
  split <;> rfl

@[simp] theorem tokenChange_amountRaw (tokens : Tokens) (tokenId : String) (amount : Float) :
    (tokenChange tokens tokenId amount).amountRaw = amount.abs := by
  rw [tokenChange]
  split <;> rfl

@[simp] theorem tokenChange_symbol (tokens : Tokens) (tokenId : String) (amount : Float) :
    (tokenChange tokens tokenId amount).symbol = symbolOf tokens tokenId := by
  rw [tokenChange, symbolOf]
  cases Keyed.get? tokenId tokens <;> rfl

def sentChange (tokens : Tokens) (l : Leg) : TokenChange :=
  tokenChange tokens (l.tokenId.getD "") (-l.amount.abs)

def receivedChange (tokens : Tokens) (l : Leg) : TokenChange :=
  tokenChange tokens (l.tokenId.getD "") l.amount.abs

theorem changes_enrich (ref : Reference) (e : Event) : (enrich ref e).changes =
    e.payload.sends.map (sentChange ref.tokens) ++
      e.payload.receives.map (receivedChange ref.tokens) := rfl

theorem filter_map_legs {change : Leg → TokenChange} {isListed : TokenChange → Bool}
    {isNamed : Leg → Bool} (h : ∀ l ∈ legs, isListed (change l) = isNamed l) :
    (legs.map change).filter isListed = (legs.filter isNamed).map change := by
  rw [List.filter_map]
  exact congrArg _ (List.filter_congr h)

/-- What is listed as sent: the legs that were sent, but for those without an amount. -/
theorem sentChanges_enrich (ref : Reference) (hsends : ∀ l ∈ e.payload.sends, l.WellFormed) :
    sentChanges (enrich ref e) =
      (e.payload.sends.filter hasAmount).map (sentChange ref.tokens) := by
  have hsent : ∀ l ∈ e.payload.sends,
      decide ((sentChange ref.tokens l).amount < 0) = hasAmount l := by
    intro l hl
    rw [sentChange, tokenChange_amount, Bool.eq_iff_iff, decide_eq_true_iff,
      neg_abs_lt_zero_iff (hsends l hl).amount, hasAmount, Bool.not_eq_true']
  have hreceived : ∀ l ∈ e.payload.receives,
      decide ((receivedChange ref.tokens l).amount < 0) = false := by
    intro l _
    rw [receivedChange, tokenChange_amount, decide_eq_false (not_abs_lt_zero _)]
  rw [sentChanges, changes_enrich, List.filter_append, filter_map_legs hsent,
    filter_map_legs hreceived]
  simp

/-- What is listed as received: legs that were sent without an amount, and then all that were
received. -/
theorem receivedChanges_enrich (ref : Reference) (hsends : ∀ l ∈ e.payload.sends, l.WellFormed)
    (hreceives : ∀ l ∈ e.payload.receives, l.WellFormed) :
    receivedChanges (enrich ref e) =
      (e.payload.sends.filter fun l => !hasAmount l).map (sentChange ref.tokens) ++
        e.payload.receives.map (receivedChange ref.tokens) := by
  have hsent : ∀ l ∈ e.payload.sends,
      decide (0 ≤ (sentChange ref.tokens l).amount) = !hasAmount l := by
    intro l hl
    rw [sentChange, tokenChange_amount, Bool.eq_iff_iff, decide_eq_true_iff,
      zero_le_neg_abs_iff (hsends l hl).amount, hasAmount, Bool.not_not]
  have hreceived : ∀ l ∈ e.payload.receives,
      decide (0 ≤ (receivedChange ref.tokens l).amount) = true := by
    intro l hl
    rw [receivedChange, tokenChange_amount,
      decide_eq_true (zero_le_abs (hreceives l hl).amount)]
  rw [receivedChanges, changes_enrich, List.filter_append, filter_map_legs hsent,
    filter_map_legs hreceived]
  simp

theorem text_sentChange (tokens : Tokens) (l : Leg) :
    amountText (sentChange tokens l).amountRaw ++ " " ++ (sentChange tokens l).symbol =
      legText tokens l := by
  rw [sentChange, tokenChange_amountRaw, tokenChange_symbol, abs_neg_abs, legText]

theorem text_receivedChange (tokens : Tokens) (l : Leg) :
    amountText (receivedChange tokens l).amountRaw ++ " " ++ (receivedChange tokens l).symbol =
      legText tokens l := by
  rw [receivedChange, tokenChange_amountRaw, tokenChange_symbol, abs_abs, legText]

theorem listChanges_legs (tokens : Tokens) (sent received : List Leg) :
    listChanges (sent.map (sentChange tokens) ++ received.map (receivedChange tokens)) =
      listLegs tokens (sent ++ received) := by
  simp [listChanges, listLegs, Function.comp_def, text_sentChange, text_receivedChange]

/-- The description of a transaction that names given legs as sent and as received. -/
def legsDescription (tokens : Tokens) (sent received : List Leg) (t : Transaction) : String :=
  if t.kind = swapKind then
    "Swap " ++ listLegs tokens sent ++ " for " ++ listLegs tokens received ++
      ((partyLabel t).map (" via " ++ ·)).getD ""
  else if t.kind = sendKind then
    "Send " ++ listLegs tokens sent ++ " to " ++ (partyLabel t).getD "unknown"
  else "Receive " ++ listLegs tokens received ++ " from " ++ (partyLabel t).getD "unknown"

theorem kind_of_hasTransfers {i : Item} (h : i.hasTransfers = true) : kind i =
    if i.receives.isEmpty then sendKind else if i.sends.isEmpty then receiveKind else swapKind := by
  rw [kind]
  cases hsends : i.sends.isEmpty <;> cases hreceives : i.receives.isEmpty <;>
    simp_all [Item.hasTransfers]

/-- A description names the changes that are listed on either side. -/
theorem describe_eq_legsDescription {t : Transaction} {sent received : List Leg}
    (hkind : t.kind = swapKind ∨ t.kind = sendKind ∨ t.kind = receiveKind)
    (hsent : listChanges (sentChanges t) = listLegs tokens sent)
    (hreceived : listChanges (receivedChanges t) = listLegs tokens received) :
    describe t = legsDescription tokens sent received t := by
  rw [describe, legsDescription, hsent, hreceived]
  rcases hkind with hkind | hkind | hkind
  · simp only [hkind, if_true]
    cases partyLabel t <;> simp [String.append_assoc]
  · simp [hkind, sendKind, swapKind]
  · simp [hkind, receiveKind, sendKind, swapKind]

/-- The description of an item of a page that has legs, with one entry for each leg in its order.
All that was received is named on its side, whatever the amounts. Of what was sent, a leg of amount
zero is not named with the others: in a swap it comes before those received, and if nothing was
received it is not named at all. So every leg is named on its own side unless a sent leg has the
amount zero. -/
theorem description_names_legs {body : String} {page : Page} (hpage : Page.ofText body = .ok page)
    {e : Event} (he : e.payload ∈ page.items) (hlegs : e.payload.hasTransfers = true)
    (ref : Reference) :
    let i := e.payload
    let t := enrich ref e
    t.kind = (if i.receives.isEmpty then sendKind
      else if i.sends.isEmpty then receiveKind else swapKind) ∧
    t.description = legsDescription ref.tokens (i.sends.filter hasAmount)
      ((i.sends.filter fun l => !hasAmount l) ++ i.receives) t ∧
    ((∀ l ∈ i.sends, hasAmount l = true) →
      t.description = legsDescription ref.tokens i.sends i.receives t) := by
  intro i t
  obtain ⟨r, hr⟩ := Page.exists_decode_of_mem hpage he
  have hwell := Item.wellFormed_of_decode hr
  have hkind : t.kind = _ := kind_of_hasTransfers hlegs
  have hdescription : t.description = legsDescription ref.tokens (i.sends.filter hasAmount)
      ((i.sends.filter fun l => !hasAmount l) ++ i.receives) t := by
    refine describe_eq_legsDescription (t := t) ?_ ?_ ?_
    · rw [hkind]
      split
      · simp
      · split <;> simp
    · rw [sentChanges_enrich ref hwell.sends]
      simpa using listChanges_legs ref.tokens (i.sends.filter hasAmount) []
    · rw [receivedChanges_enrich ref hwell.sends hwell.receives]
      exact listChanges_legs ref.tokens _ _
  refine ⟨hkind, hdescription, fun hamounts => ?_⟩
  have hstill : (i.sends.filter fun l => !hasAmount l) = [] := by simpa using hamounts
  rw [hdescription, List.filter_eq_self.2 hamounts, hstill, List.nil_append]

/-- A page with two swaps, the legs written as arrays of an id and an amount; the first swap sends a
leg without an amount, the second one receives one. -/
def swapsBody : String :=
  "\x7b\"history_list\":[\x7b\"sends\":[[\"usdc\",null],[\"eth\",1]]," ++
    "\"receives\":[[\"dai\",2]]\x7d," ++
    "\x7b\"sends\":[[\"eth\",1]],\"receives\":[[\"dai\",2],[\"usdc\",0]]\x7d]\x7d"

def symbolOnly (id symbol : String) : Token :=
  ⟨id, none, none, some symbol, none, none, none, none, none, none, none, none, none, none, none,
    none, none, none, none⟩

def threeTokens : Reference :=
  ⟨[("dai", symbolOnly "dai" "DAI"), ("eth", symbolOnly "eth" "ETH"),
    ("usdc", symbolOnly "usdc" "USDC")], [], []⟩

def storedAs (i : Item) : Event := ⟨"1", "eth", "0xab", i.cateId, i.timestamp, i.isScam, i⟩

theorem ofText_swapsBody : ∃ page i j, Page.ofText swapsBody = .ok page ∧ page.items = [i, j] ∧
    (i.hasTransfers = true ∧
      (enrich threeTokens (storedAs i)).description = "Swap 1 ETH for 0 USDC, 2 DAI") ∧
    (j.hasTransfers = true ∧ j.sends.all hasAmount = true ∧
      (enrich threeTokens (storedAs j)).description = "Swap 1 ETH for 2 DAI, 0 USDC") := by
  have hread : (Page.ofText swapsBody).toOption.map (fun page => page.items.map fun i =>
      (i.hasTransfers, i.sends.all hasAmount, (enrich threeTokens (storedAs i)).description)) =
        some [(true, false, "Swap 1 ETH for 0 USDC, 2 DAI"),
          (true, true, "Swap 1 ETH for 2 DAI, 0 USDC")] := by
    decide +kernel
  cases hbody : Page.ofText swapsBody with
  | error e => simp [hbody, Except.toOption] at hread
  | ok page =>
    simp only [hbody, Except.toOption, Option.map_some, Option.some.injEq, List.map_eq_cons_iff,
      List.map_eq_nil_iff, Prod.mk.injEq] at hread
    obtain ⟨i, _, hitems, ⟨hi, -, hidescription⟩, j, _, rfl, hj, rfl⟩ := hread
    exact ⟨page, i, j, rfl, hitems, ⟨hi, hidescription⟩, hj⟩

/-- The leg that is sent without an amount is named with those received. -/
theorem description_of_swaps : ∃ page i j, Page.ofText swapsBody = .ok page ∧
    page.items = [i, j] ∧ i.hasTransfers = true ∧ j.hasTransfers = true ∧
    (∀ l ∈ j.sends, hasAmount l = true) ∧
    legsDescription threeTokens.tokens (i.sends.filter hasAmount)
        ((i.sends.filter fun l => !hasAmount l) ++ i.receives) (enrich threeTokens (storedAs i)) =
      "Swap 1 ETH for 0 USDC, 2 DAI" ∧
    legsDescription threeTokens.tokens j.sends j.receives (enrich threeTokens (storedAs j)) =
      "Swap 1 ETH for 2 DAI, 0 USDC" := by
  obtain ⟨page, i, j, hpage, hitems, ⟨hi, hidescription⟩, hj, hamounts, hjdescription⟩ :=
    ofText_swapsBody
  have hamounts := List.all_eq_true.1 hamounts
  obtain ⟨-, hmixed, -⟩ := description_names_legs (e := storedAs i) hpage
    (by simp [storedAs, hitems]) hi threeTokens
  obtain ⟨-, -, hplain⟩ := description_names_legs (e := storedAs j) hpage
    (by simp [storedAs, hitems]) hj threeTokens
  exact ⟨page, i, j, hpage, hitems, hi, hj, hamounts, hmixed.symm.trans hidescription,
    (hplain hamounts).symm.trans hjdescription⟩

end AddressLedger.History
