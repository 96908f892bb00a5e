import AddressLedger.History.Describe

/-!
# Groups

Transactions seen from several owned addresses are one: they are collected by hash and chain, in the
order in which each pair is first seen, and one record is chosen for each group.
-/
namespace AddressLedger.History

/-- The record of a transaction between two owned addresses. -/
def relabelled (t : Transaction) : Transaction :=
  let t := { t with kind := selfTransferKind }
  { t with description := describe t }

def isInternal (owners : List String) (t : Transaction) : Bool :=
  t.otherAddr.any fun a => owners.contains (Text.lower a)

def isSender (t : Transaction) : Bool := t.direction == .sender

def hasFee (t : Transaction) : Bool := t.usdGasFee.any fun fee => 0 < fee

/--
The record shown for a group: the only one; else the first of a sender, who usually pays the fee,
as a self transfer if it goes to an owned address; else the first with a fee; else the first.
-/
def canonical (owners : List String) : List Transaction → Option Transaction
  | [] => none
  | [t] => some t
  | group =>
    match group.find? isSender with
    | some t => some (if isInternal owners t then relabelled t else t)
    | none => (group.find? hasFee).or group.head?

structure GroupKey where
  hash : String
  chain : String
  deriving DecidableEq

def Transaction.groupKey (t : Transaction) : GroupKey := ⟨t.hash, t.chain⟩

/-- Groups in slots, and the slot of each key. -/
structure Groups where
  index : List (GroupKey × Nat)
  slots : List (List Transaction)

namespace Groups

def empty : Groups := ⟨[], []⟩

def slot? (g : Groups) (key : GroupKey) : Option Nat :=
  (g.index.find? fun entry => entry.1 == key).map Prod.snd

/-- Adds a transaction to the group of its key, which is a new last one if the key is new. -/
def push (g : Groups) (t : Transaction) : Groups :=
  match g.slot? t.groupKey with
  | some i => { g with slots := g.slots.modify i (· ++ [t]) }
  | none => ⟨(t.groupKey, g.slots.length) :: g.index, g.slots ++ [[t]]⟩

def pushAll (g : Groups) (ts : List Transaction) : Groups := ts.foldl push g

def size (g : Groups) : Nat := g.slots.length

def canonicals (owners : List String) (g : Groups) : List Transaction :=
  g.slots.filterMap (canonical owners)

end Groups

end AddressLedger.History
