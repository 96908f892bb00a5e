import AddressLedger.History.Reader
import AddressLedger.Input
import AddressLedger.Text.Form

/-!
# Parameters of a read request

The query of a request for readable transactions. Each known parameter may come once and must hold
a value of its kind; unknown ones are passed over. The values are then checked against their limits
in a fixed order, of which the first failure is reported.
-/
namespace AddressLedger.Http

open History Text

structure ReadParameters where
  addresses : String
  skip : Nat
  limit : Nat
  chain : Option String
  includeScam : Bool
  minValueUsd : Float

namespace ReadParameters

def names : List String := ["addresses", "skip", "limit", "chain", "include_scam", "min_value_usd"]

/-- The value of a parameter, or a default if it is missing; nothing if it is of another kind. -/
def value? {α : Type} (pairs : List (String × String)) (name : String)
    (parse : String → Option α) (default : Option α) : Option α :=
  match pairs.find? fun pair => pair.1 == name with
  | some pair => parse pair.2
  | none => default

/-- Whether some known parameter comes twice. -/
def repeats (pairs : List (String × String)) : Bool :=
  names.any fun name => 1 < (pairs.filter fun pair => pair.1 == name).length

def ofQuery? (query : List Char) : Option ReadParameters := do
  let pairs := decodeForm query
  if repeats pairs then none
  let number := natural? maxUInt64
  let addresses ← value? pairs "addresses" some none
  let skip ← value? pairs "skip" number (some 0)
  let limit ← value? pairs "limit" number (some HistoryRequest.defaultLimit)
  let chain ← value? pairs "chain" (fun s => some (some s)) (some none)
  let includeScam ← value? pairs "include_scam" bool? (some false)
  let minValueUsd ← value? pairs "min_value_usd" float? (some HistoryRequest.defaultMinValue)
  return ⟨addresses, skip, limit, chain, includeScam, minValueUsd⟩

/-- The request that the parameters make, if all are within their limits. -/
def toRequest (p : ReadParameters) : Except InputError HistoryRequest := do
  let owners ← parseAddressList p.addresses
  let skip ← checkSkip p.skip
  let limit ← checkLimit p.limit
  let minValueUsd ← checkMinValue p.minValueUsd
  let chain := p.chain.filter (· ≠ "")
  chain.forM checkChain
  return ⟨owners, skip, limit, chain, p.includeScam, minValueUsd⟩

end ReadParameters

end AddressLedger.Http
