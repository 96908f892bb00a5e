import AddressLedger.Input
import AddressLedger.Number.Fixed
import AddressLedger.History.Interpret

/-!
# Descriptions

A transaction in one line. Changes below zero are listed as sent and the others as received.
-/
namespace AddressLedger.History

/-- Amounts with their symbols, or a word for none. -/
def listChanges (changes : List TokenChange) : String :=
  if changes.isEmpty then "nothing"
  else ", ".intercalate (changes.map fun c => Number.amountText c.amountRaw ++ " " ++ c.symbol)

/-- The name of the other party, else the other address in short. -/
def partyLabel (t : Transaction) : Option String :=
  if t.counterparty.name ≠ "" then some t.counterparty.name else t.otherAddr.map shortAddress

def sentChanges (t : Transaction) : List TokenChange := t.changes.filter fun c => c.amount < 0

def receivedChanges (t : Transaction) : List TokenChange := t.changes.filter fun c => 0 ≤ c.amount

def describe (t : Transaction) : String :=
  let sent := listChanges (sentChanges t)
  let received := listChanges (receivedChanges t)
  let party := partyLabel t
  if t.kind = swapKind then
    match party with
    | some p => "Swap " ++ sent ++ " for " ++ received ++ " via " ++ p
    | none => "Swap " ++ sent ++ " for " ++ received
  else if t.kind = sendKind then "Send " ++ sent ++ " to " ++ party.getD "unknown"
  else if t.kind = receiveKind then "Receive " ++ received ++ " from " ++ party.getD "unknown"
  else if t.kind = selfTransferKind then "Move " ++ sent ++ " between own wallets"
  else match party with
    | some p => t.kind ++ " with " ++ p
    | none => t.kind

end AddressLedger.History
