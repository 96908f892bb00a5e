import AddressLedger.Input
import AddressLedger.Text.Numeral

/-!
# Settings

The settings of the service, read from named text variables. A variable that is absent or does not
hold a value of its kind leaves the default in place.
-/
namespace AddressLedger

structure Settings where
  databaseUrl : String
  serverHost : String
  serverPort : Nat
  feedUrl : String
  feedAccessKey : Option String
  feedTimeoutSeconds : Nat
  feedRateLimit : Option Nat
  syncConcurrency : Nat
  syncIntervalSeconds : Nat
  syncOnStartup : Bool
  cacheLifetimeSeconds : Nat
  cacheCapacity : Nat
  trackedAddresses : List String
  deriving DecidableEq, Repr

namespace Settings

def defaultFeedUrl : String := "https://pro-openapi.debank.com/v1/user/all_history_list"

/-- What the name of a variable with an address to track starts with. -/
def trackedStem : String := "TRACKED_ADDRESS_"

/-- The least time between two scheduled runs. -/
def minIntervalSeconds : Nat := 1

/-- The time between scheduled runs: a day if nothing valid is given. -/
def intervalSeconds (raw : Option String) : Nat :=
  max minIntervalSeconds
    ((raw.bind fun s => Text.natural? Text.maxUInt64 (Text.trim s)).getD 86400)

/-- Names first, then values, each in the order of their code points. -/
def entryLe (a b : String × String) : Bool := a.1 < b.1 || (a.1 == b.1 && a.2 ≤ b.2)

/-- Whether a variable gives an address to track. -/
def isTracked (entry : String × String) : Bool :=
  trackedStem.toList.isPrefixOf entry.1.toList && Text.trim entry.2 != ""

/-- The addresses to track, in the order of the variables' names. -/
def trackedAddressesFrom (vars : List (String × String)) : List String :=
  ((vars.filter isTracked).mergeSort entryLe).map fun entry => normalizeAddress entry.2

def lookup (vars : List (String × String)) (name : String) : Option String :=
  (vars.find? fun entry => entry.1 == name).map Prod.snd

/-- Settings from variables with distinct names, on a machine with `cpus` processors. -/
def ofVariables (cpus : Nat) (vars : List (String × String)) : Settings :=
  let get := lookup vars
  let number (most : Nat) (name : String) := (get name).bind (Text.natural? most)
  { databaseUrl := (get "DATABASE_URL").getD "sqlite:history.db"
    serverHost := (get "SERVER_HOST").getD "127.0.0.1"
    serverPort := (number Text.maxUInt16 "SERVER_PORT").getD 8111
    feedUrl := (get "FEED_URL").getD defaultFeedUrl
    feedAccessKey := (get "FEED_ACCESS_KEY").filter (· ≠ "")
    feedTimeoutSeconds := (number Text.maxUInt64 "FEED_TIMEOUT_SECS").getD 60
    feedRateLimit := number Text.maxUInt32 "FEED_RATE_LIMIT"
    syncConcurrency := max 1 ((number Text.maxUInt64 "SYNC_CONCURRENCY").getD cpus)
    syncIntervalSeconds := intervalSeconds (get "SYNC_INTERVAL_SECS")
    syncOnStartup := (get "SYNC_ON_STARTUP").any (Text.sameIgnoringAsciiCase · "true")
    cacheLifetimeSeconds := (number Text.maxUInt64 "CATALOG_CACHE_TTL").getD 600
    cacheCapacity := (number Text.maxUInt64 "CATALOG_CACHE_MAX_CAPACITY").getD 10000
    trackedAddresses := trackedAddressesFrom vars }

end Settings

end AddressLedger
