import AddressLedger.Feed.Page
import AddressLedger.History.Transaction

/-!
# What an item means for its owner

The amounts that an item moves, the side on which the owner stands, the other address and the party
behind it, and the label of the item. Reference data comes in tables with ascending keys.
-/
namespace AddressLedger.History

open Feed Catalog

abbrev Tokens := List (String × Token)

abbrev Projects := List (String × Project)

abbrev Exchanges := List (String × ExchangeAddress)

def unknownSymbol : String := "???"

def unknownName : String := "Unknown"

def swapKind : String := "Swap"

def sendKind : String := "Send"

def receiveKind : String := "Receive"

def selfTransferKind : String := "Self Transfer"

def interactionKind : String := "Interaction"

/-- An approval moves nothing and is not shown. -/
def isApprovalOnly (i : Item) : Bool :=
  !i.hasTransfers && (i.tokenApprove.isSome || i.cateId == some "approve")

def tokenChange (tokens : Tokens) (tokenId : String) (amount : Float) : TokenChange :=
  match Keyed.get? tokenId tokens with
  | some t =>
    let symbol := t.bestSymbol.getD unknownSymbol
    let price := t.price.getD 0
    { tokenId := tokenId, symbol := symbol, name := (t.name.filter (· ≠ "")).getD symbol,
      logoUrl := t.logoUrl, amount := amount, amountRaw := amount.abs, price := price,
      valueUsd := amount * price }
  | none =>
    { tokenId := tokenId, symbol := unknownSymbol, name := unknownName, logoUrl := none,
      amount := amount, amountRaw := amount.abs, price := 0, valueUsd := amount * 0 }

/-- What is sent, with negative amounts, and then what is received. -/
def tokenChanges (tokens : Tokens) (i : Item) : List TokenChange :=
  i.sends.map (fun l => tokenChange tokens (l.tokenId.getD "") (-l.amount.abs)) ++
    i.receives.map (fun l => tokenChange tokens (l.tokenId.getD "") l.amount.abs)

/-- The value that changes move, whatever their direction. -/
def totalValue (changes : List TokenChange) : Float :=
  changes.foldl (fun sum c => sum + c.valueUsd.abs) 0

/-- Whether an address is given and is the owner's, up to the case of ASCII letters. -/
def isOwnedBy (owner : String) (address : Option String) : Bool :=
  address.any fun a => a ≠ "" && Text.sameIgnoringAsciiCase a owner

/-- The owner sends if the transaction is theirs; otherwise receives if anything is received. -/
def direction (i : Item) (owner : String) : Direction :=
  if isOwnedBy owner i.tx.fromAddr || (!i.sends.isEmpty && i.receives.isEmpty) then .sender
  else if !i.receives.isEmpty then .receiver
  else .sender

/-- The explicit other address, or the end of the transaction at which the owner is not. -/
def otherAddress (i : Item) (d : Direction) : Option String :=
  let end? := match d with
    | .sender => i.tx.toAddr
    | .receiver => i.tx.fromAddr
  (((i.otherAddr.filter (· ≠ "")).or end?).filter (· ≠ "")).map Text.lower

/-- The project of the item, else the exchange that owns the other address. -/
def counterparty (projects : Projects) (exchanges : Exchanges)
    (projectId otherAddr : Option String) : Counterparty :=
  match projectId.bind fun id => Keyed.get? id projects with
  | some p => ⟨.project, some p.id, p.name.getD "", p.logoUrl⟩
  | none =>
    match otherAddr.bind fun a => Keyed.get? (Text.lower a) exchanges with
    | some e => ⟨.exchange, e.exchangeId, e.name.getD "", e.logoUrl⟩
    | none => .unresolved

/-- The label of an item: by what it moves, else its own name for itself. -/
def kind (i : Item) : String :=
  match i.sends.isEmpty, i.receives.isEmpty with
  | false, false => swapKind
  | false, true => sendKind
  | true, false => receiveKind
  | true, true => (i.tx.name.filter (· ≠ "")).getD interactionKind

end AddressLedger.History
