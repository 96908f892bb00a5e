import AddressLedger.Json.Decode
import AddressLedger.Json.Writer
import AddressLedger.Number.Binary64

/-!
# Ledger items

One entry of an address's history as the feed tells it. Members of the feed's object that have no
meaning here are kept, so that the item is written back complete.
-/
namespace AddressLedger.Feed

open Json Json.Raw

/-- Members that are kept without being interpreted. -/
abbrev Extra := List (String × Json)

/-- An amount of a token that an item moves. -/
structure Leg where
  tokenId : Option String
  amount : Float
  fromAddr : Option String
  toAddr : Option String

structure TxInfo where
  fromAddr : Option String
  toAddr : Option String
  name : Option String
  usdGasFee : Option Float
  ethGasFee : Option Float
  extra : Extra

def TxInfo.empty : TxInfo := ⟨none, none, none, none, none, []⟩

structure Item where
  id : Option String
  chain : Option String
  cateId : Option String
  timeAt : Option Float
  isScam : Bool
  otherAddr : Option String
  projectId : Option String
  sends : List Leg
  receives : List Leg
  tokenApprove : Option Json
  tx : TxInfo
  extra : Extra

namespace Leg

def fieldNames : List String := ["token_id", "amount", "from_addr", "to_addr"]

def decode (r : Raw) : Decoded Leg := do
  let fields ← r.toFields fieldNames 0
  let tokenId ← field? fields "token_id" toText
  let amount ← fieldOr fields "amount" toFloat 0
  let fromAddr ← field? fields "from_addr" toText
  let toAddr ← field? fields "to_addr" toText
  return ⟨tokenId, amount, fromAddr, toAddr⟩

def toJson (l : Leg) : Json :=
  .object ([("amount", .ofFloat l.amount)] ++ optionalMember "from_addr" (l.fromAddr.map .text) ++
    optionalMember "to_addr" (l.toAddr.map .text) ++ [("token_id", .ofOption .text l.tokenId)])

end Leg

/-- The members whose names are not among the given ones, as free-form values. -/
def extraOf (names : List String) (depth : Nat) (members : List (String × Raw)) :
    Decoded Extra := do
  let unknown ← (members.filter fun member => !names.contains member.1).mapM fun member => do
    let value ← member.2.toJson depth
    return (member.1, value)
  return Keyed.ofList unknown

namespace TxInfo

def fieldNames : List String := ["from_addr", "to_addr", "name", "usd_gas_fee", "eth_gas_fee"]

def decode (depth : Nat) (r : Raw) : Decoded TxInfo := do
  let members ← r.toRecord fieldNames
  let fromAddr ← field? members "from_addr" toText
  let toAddr ← field? members "to_addr" toText
  let name ← field? members "name" toText
  let usdGasFee ← field? members "usd_gas_fee" toFloat
  let ethGasFee ← field? members "eth_gas_fee" toFloat
  let extra ← extraOf fieldNames (depth + 1) members
  return ⟨fromAddr, toAddr, name, usdGasFee, ethGasFee, extra⟩

def toJson (t : TxInfo) : Json :=
  .object ([("from_addr", .ofOption .text t.fromAddr), ("to_addr", .ofOption .text t.toAddr),
    ("name", .ofOption .text t.name), ("usd_gas_fee", .ofOption .ofFloat t.usdGasFee),
    ("eth_gas_fee", .ofOption .ofFloat t.ethGasFee)] ++ t.extra)

end TxInfo

namespace Item

def fieldNames : List String :=
  ["id", "chain", "cate_id", "time_at", "is_scam", "other_addr", "project_id", "sends",
    "receives", "token_approve", "tx"]

/-- An item in an object with `depth` containers open around it. -/
def decode (depth : Nat) (r : Raw) : Decoded Item := do
  let members ← r.toRecord fieldNames
  let id ← field? members "id" toText
  let chain ← field? members "chain" toText
  let cateId ← field? members "cate_id" toText
  let timeAt ← field? members "time_at" toFloat
  let isScam ← fieldOr members "is_scam" toBool false
  let otherAddr ← field? members "other_addr" toText
  let projectId ← field? members "project_id" toText
  let sends ← fieldOr members "sends" (Raw.toList Leg.decode) []
  let receives ← fieldOr members "receives" (Raw.toList Leg.decode) []
  let tokenApprove ← field? members "token_approve" (Raw.toJson (depth + 1))
  let tx ← fieldOr members "tx" (TxInfo.decode (depth + 1)) TxInfo.empty
  let extra ← extraOf fieldNames (depth + 1) members
  return ⟨id, chain, cateId, timeAt, isScam, otherAddr, projectId, sends, receives, tokenApprove,
    tx, extra⟩

def toJson (i : Item) : Json :=
  .object ([("id", .ofOption .text i.id), ("chain", .ofOption .text i.chain),
    ("cate_id", .ofOption .text i.cateId), ("time_at", .ofOption .ofFloat i.timeAt),
    ("is_scam", .bool i.isScam), ("other_addr", .ofOption .text i.otherAddr),
    ("project_id", .ofOption .text i.projectId),
    ("sends", .array (i.sends.map Leg.toJson)),
    ("receives", .array (i.receives.map Leg.toJson))] ++
    optionalMember "token_approve" i.tokenApprove ++ [("tx", i.tx.toJson)] ++ i.extra)

/-- The item as text, in the form in which it is stored. -/
def encode (i : Item) : String := i.toJson.encode

def ofText (s : String) : Decoded Item :=
  match Json.readTree? s with
  | some tree => decode 0 tree
  | none => malformed

/-- The time of the item in whole seconds. -/
def timestamp (i : Item) : Option Int64 := i.timeAt.bind Number.truncate?

def hasTransfers (i : Item) : Bool := !(i.sends.isEmpty && i.receives.isEmpty)

end Item

end AddressLedger.Feed
