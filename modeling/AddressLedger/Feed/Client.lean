import AddressLedger.Feed.Endpoint
import AddressLedger.Feed.Error
import AddressLedger.Feed.Page

/-!
# The client of the feed

The request for one page of an address's history, and what is made of the answer: any success is
decoded, any other status is reported with the text that comes with it.
-/
namespace AddressLedger.Feed

structure PageRequest where
  method : String
  target : String
  accessKey : Option String
  deriving DecidableEq, Repr

structure PageResponse where
  status : Nat
  body : String

structure Client where
  /-- The feed's URL after its authority. -/
  endpoint : String
  accessKey : Option String

namespace Client

def isHeaderValue (s : String) : Bool :=
  s.toList.all fun c => c == '\t' || (0x20 ≤ c.toNat && c.toNat != 0x7F)

/-- The owner, and the time before which items are asked for. -/
def parameters (address : String) (cursor : Option Int64) : List (String × String) :=
  ("id", address) :: (cursor.map fun time =>
    ("start_time", String.ofList (Json.renderInt time.toInt))).toList

/-- The request for a page; none if the settings do not make one. -/
def request? (c : Client) (address : String) (cursor : Option Int64) : Option PageRequest := do
  let endpoint ← Endpoint.ofText? c.endpoint
  if c.accessKey.all isHeaderValue then
    return ⟨"GET", endpoint.target (parameters address cursor), c.accessKey⟩
  else none

/-- What an answer means, if there is one. -/
def interpret : Option PageResponse → Except FeedError Page
  | none => .error .request
  | some response =>
    if 200 ≤ response.status && response.status < 300 then
      match Page.ofText response.body with
      | .ok page => .ok page
      | .error _ => .error .decode
    else .error (.status response.status response.body)

/-- Asks for a page over a connection that answers a request or not. -/
def fetchPage (c : Client) (send : PageRequest → Option PageResponse) (address : String)
    (cursor : Option Int64) : Except FeedError Page :=
  interpret ((c.request? address cursor).bind send)

end Client

end AddressLedger.Feed
