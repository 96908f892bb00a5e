import AddressLedger.Catalog.Record
import AddressLedger.Feed.Item

/-!
# Pages

What the feed answers to one request: items, newest first, and dictionaries of the projects, tokens
and exchange addresses that they mention. A dictionary entry gives a catalog record: the entry's own
id comes before the key under which it stands, and the key of an exchange address is the address.
-/
namespace AddressLedger.Feed

open Json Json.Raw Catalog

structure Page where
  items : List Item
  projects : List (String × Project)
  tokens : List (String × Token)
  exchanges : List (String × ExchangeAddress)

namespace Page

def empty : Page := ⟨[], [], [], []⟩

def projectFields : List String := ["id", "chain", "logo_url", "name", "site_url"]

def decodeProject (key : String) (r : Raw) : Decoded Project := do
  let fields ← r.toFields projectFields projectFields.length
  let text (name : String) := field? fields name toText
  let id ← text "id"
  let chain ← text "chain"
  let logoUrl ← text "logo_url"
  let name ← text "name"
  let siteUrl ← text "site_url"
  return { id := id.getD key, chain := chain, name := name, logoUrl := logoUrl,
           siteUrl := siteUrl }

def tokenFields : List String :=
  ["id", "chain", "name", "symbol", "display_symbol", "optimized_symbol", "decimals", "logo_url",
    "protocol_id", "price", "price_24h_change", "is_verified", "is_core", "is_wallet", "is_scam",
    "is_suspicious", "credit_score", "total_supply", "time_at"]

def decodeToken (key : String) (r : Raw) : Decoded Token := do
  let fields ← r.toFields tokenFields tokenFields.length
  let text (name : String) := field? fields name toText
  let flag (name : String) := field? fields name toBool
  let number (name : String) := field? fields name toFloat
  let id ← text "id"
  let chain ← text "chain"
  let name ← text "name"
  let symbol ← text "symbol"
  let displaySymbol ← text "display_symbol"
  let optimizedSymbol ← text "optimized_symbol"
  let decimals ← field? fields "decimals" toInt64
  let logoUrl ← text "logo_url"
  let protocolId ← text "protocol_id"
  let price ← number "price"
  let priceChange ← number "price_24h_change"
  let isVerified ← flag "is_verified"
  let isCore ← flag "is_core"
  let isWallet ← flag "is_wallet"
  let isScam ← flag "is_scam"
  let isSuspicious ← flag "is_suspicious"
  let creditScore ← number "credit_score"
  let totalSupply ← number "total_supply"
  let timeAt ← number "time_at"
  return ⟨id.getD key, chain, name, symbol, displaySymbol, optimizedSymbol, decimals, logoUrl,
    protocolId, price, priceChange, isVerified, isCore, isWallet, isScam, isSuspicious,
    creditScore, totalSupply, timeAt⟩

def exchangeFields : List String :=
  ["id", "name", "logo_url", "is_deposit", "is_collect", "is_gastopup", "is_vault", "is_withdraw"]

def decodeExchange (key : String) (r : Raw) : Decoded ExchangeAddress := do
  let fields ← r.toFields exchangeFields exchangeFields.length
  let text (name : String) := field? fields name toText
  let flag (name : String) := field? fields name toBool
  let exchangeId ← text "id"
  let name ← text "name"
  let logoUrl ← text "logo_url"
  let isDeposit ← flag "is_deposit"
  let isCollect ← flag "is_collect"
  let isGasTopUp ← flag "is_gastopup"
  let isVault ← flag "is_vault"
  let isWithdraw ← flag "is_withdraw"
  return ⟨Text.lower key, exchangeId, name, logoUrl, isDeposit, isCollect, isGasTopUp, isVault,
    isWithdraw⟩

def fieldNames : List String := ["history_list", "project_dict", "token_dict", "cex_dict"]

/-- How many containers are open around an item of a page. -/
def itemDepth : Nat := 2

def decode (r : Raw) : Decoded Page := do
  let fields ← r.toFields fieldNames 0
  let items ← fieldOr fields "history_list" (Raw.toList (Item.decode itemDepth)) []
  let projects ← fieldOr fields "project_dict" (toTable decodeProject) []
  let tokens ← fieldOr fields "token_dict" (toTable decodeToken) []
  let exchanges ← fieldOr fields "cex_dict" (toTable decodeExchange) []
  return ⟨items, projects, tokens, exchanges⟩

def ofText (s : String) : Decoded Page :=
  match Json.readTree? s with
  | some tree => decode tree
  | none => malformed

/-- The catalog records of a page: projects, then tokens, then exchange addresses. -/
def records (p : Page) : List Record :=
  p.projects.map (.project ·.2) ++ p.tokens.map (.token ·.2) ++
    p.exchanges.map (.counterparty ·.2)

def hasReferenceData (p : Page) : Bool :=
  !(p.projects.isEmpty && p.tokens.isEmpty && p.exchanges.isEmpty)

end Page

end AddressLedger.Feed
