import AddressLedger.Json.Writer

/-!
# Readable transactions

What a reader of the ledger gets to see: one record for a transaction, with the token amounts that
it moves, the other party and a description in words.
-/
namespace AddressLedger.History

inductive Direction
  | sender
  | receiver
  deriving DecidableEq

inductive CounterpartySource
  | project
  | exchange
  | unresolved
  deriving DecidableEq

structure Counterparty where
  source : CounterpartySource
  id : Option String
  name : String
  logoUrl : Option String
  deriving DecidableEq

def Counterparty.unresolved : Counterparty := ⟨.unresolved, none, "", none⟩

/-- An amount of a token with what is known about the token; amounts sent are negative. -/
structure TokenChange where
  tokenId : String
  symbol : String
  name : String
  logoUrl : Option String
  amount : Float
  amountRaw : Float
  price : Float
  valueUsd : Float

structure Transaction where
  hash : String
  chain : String
  timestamp : Option Int64
  dateTime : String
  cateId : Option String
  txName : Option String
  kind : String
  direction : Direction
  counterparty : Counterparty
  otherAddr : Option String
  walletAddr : String
  changes : List TokenChange
  usdGasFee : Option Float
  ethGasFee : Option Float
  isScam : Bool
  description : String

def Direction.name : Direction → String
  | sender => "sender"
  | receiver => "receiver"

def CounterpartySource.name : CounterpartySource → String
  | project => "project"
  | exchange => "exchange"
  | unresolved => "unresolved"

def Counterparty.toJson (c : Counterparty) : Json :=
  .object [("id", .ofOption .text c.id), ("logo_url", .ofOption .text c.logoUrl),
    ("name", .text c.name), ("source", .text c.source.name)]

def TokenChange.toJson (c : TokenChange) : Json :=
  .object [("amount", .ofFloat c.amount), ("amount_raw", .ofFloat c.amountRaw),
    ("logo_url", .ofOption .text c.logoUrl), ("name", .text c.name), ("price", .ofFloat c.price),
    ("symbol", .text c.symbol), ("token_id", .text c.tokenId), ("value_usd", .ofFloat c.valueUsd)]

def Transaction.toJson (t : Transaction) : Json :=
  .object [("cate_id", .ofOption .text t.cateId), ("chain", .text t.chain),
    ("counterparty", t.counterparty.toJson), ("date_time", .text t.dateTime),
    ("description", .text t.description), ("direction", .text t.direction.name),
    ("eth_gas_fee", .ofOption .ofFloat t.ethGasFee), ("is_scam", .bool t.isScam),
    ("kind", .text t.kind), ("other_addr", .ofOption .text t.otherAddr),
    ("timestamp", .ofOption (fun s => .integer s.toInt) t.timestamp),
    ("token_changes", .array (t.changes.map TokenChange.toJson)), ("tx_hash", .text t.hash),
    ("tx_name", .ofOption .text t.txName), ("usd_gas_fee", .ofOption .ofFloat t.usdGasFee),
    ("wallet_addr", .text t.walletAddr)]

end AddressLedger.History
