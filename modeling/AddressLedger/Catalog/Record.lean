import AddressLedger.Text.Lower

/-!
# Catalog records

What is known about projects, tokens and the addresses of exchanges. A record is identified by its
kind and a key: the id of a project or token, the lower-case address of an exchange.
-/
namespace AddressLedger.Catalog

structure Project where
  id : String
  chain : Option String
  name : Option String
  logoUrl : Option String
  siteUrl : Option String
  deriving DecidableEq, Inhabited

structure Token where
  id : String
  chain : Option String
  name : Option String
  symbol : Option String
  displaySymbol : Option String
  optimizedSymbol : Option String
  decimals : Option Int64
  logoUrl : Option String
  protocolId : Option String
  price : Option Float
  priceChange : Option Float
  isVerified : Option Bool
  isCore : Option Bool
  isWallet : Option Bool
  isScam : Option Bool
  isSuspicious : Option Bool
  creditScore : Option Float
  totalSupply : Option Float
  timeAt : Option Float
  deriving Inhabited

structure ExchangeAddress where
  address : String
  exchangeId : Option String
  name : Option String
  logoUrl : Option String
  isDeposit : Option Bool
  isCollect : Option Bool
  isGasTopUp : Option Bool
  isVault : Option Bool
  isWithdraw : Option Bool
  deriving Inhabited

/-- The first symbol of the list that is not empty. -/
def firstNonEmpty (symbols : List (Option String)) : Option String :=
  (symbols.filterMap id).find? (· ≠ "")

def Token.bestSymbol (t : Token) : Option String :=
  firstNonEmpty [t.optimizedSymbol, t.displaySymbol, t.symbol]

inductive Kind
  | project
  | token
  | counterparty
  deriving DecidableEq

def Kind.name : Kind → String
  | project => "project"
  | token => "token"
  | counterparty => "counterparty"

inductive Record
  | project (p : Project)
  | token (t : Token)
  | counterparty (e : ExchangeAddress)
  deriving Inhabited

namespace Record

def kind : Record → Kind
  | project _ => .project
  | token _ => .token
  | counterparty _ => .counterparty

/-- The id of a project or token, the address of an exchange. -/
def id : Record → String
  | project p => p.id
  | token t => t.id
  | counterparty e => e.address

def project? : Record → Option Project
  | project p => some p
  | _ => none

def token? : Record → Option Token
  | token t => some t
  | _ => none

def counterparty? : Record → Option ExchangeAddress
  | counterparty e => some e
  | _ => none

end Record

structure Key where
  kind : Kind
  id : String
  deriving DecidableEq

namespace Key

/-- The key for an id as a caller gives it: addresses are told apart in lower case only. -/
def of (kind : Kind) (id : String) : Key :=
  match kind with
  | .counterparty => ⟨kind, Text.lower id⟩
  | _ => ⟨kind, id⟩

def ofRecord (r : Record) : Key := of r.kind r.id

def toText (k : Key) : String := k.kind.name ++ ":" ++ k.id

end Key

end AddressLedger.Catalog
