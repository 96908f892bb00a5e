import AddressLedger.Http.MediaType
import AddressLedger.Http.Message
import AddressLedger.Http.ReadParameters
import AddressLedger.Sync.Request

/-!
# Routes

What the service answers to an HTTP request: a sync of addresses, a window of the readable history,
or a drop of all cached catalog records. A request is checked completely before anything is done,
and every answer may be read from any origin.
-/
namespace AddressLedger.Http

open Catalog History Json Service Sync

inductive Route
  | sync
  | readable
  | invalidate
  deriving DecidableEq

namespace Route

def ofPath? (path : String) : Option Route :=
  if path = "/history/sync" then some sync
  else if path = "/history/readable" then some readable
  else if path = "/catalog/invalidate" then some invalidate
  else none

/-- The methods of a route; what can be read can be asked for without its body. -/
def methods : Route → List String
  | readable => ["GET", "HEAD"]
  | sync | invalidate => ["POST"]

end Route

def errorResponse (status : Nat) (message : String) : Response :=
  .ofJson status (.object [("error", .text message)])

def inputErrorResponse : InputError → Response
  | .missing name => errorResponse 400 ("Invalid request: Missing parameter: " ++ name)
  | e => errorResponse 400 e.message

def maxBody : Nat := 2 * 1024 * 1024

def hasJsonBody (r : Request) : Bool :=
  ((r.header? "content-type").bind MediaType.ofText?).any MediaType.isJson

/-- The request for a sync that a body holds, or the answer that refuses it. -/
def readSyncRequest (r : Request) : Except Response SyncRequest :=
  if !hasJsonBody r then .error (.ofRemark 415)
  else if maxBody < r.body.utf8ByteSize then .error (.ofRemark 413)
  else match SyncRequest.ofText r.body with
    | .error .malformed => .error (.ofRemark 400)
    | .error .mismatched => .error (.ofRemark 422)
    | .ok request =>
      if request.addresses.isEmpty then
        .error (errorResponse 400 "Invalid request: No addresses to sync")
      else match request.addresses.forM checkAddress with
        | .error e => .error (inputErrorResponse e)
        | .ok () => .ok request

def answerSync (r : Request) : Procedure Response := do
  match readSyncRequest r with
  | .error response => return response
  | .ok request =>
    let results ← syncAll request.addresses request.mode
    return .ofJson 200 (.object [("results", .array (results.map SyncResult.toJson))])

/-- The read request that a query holds, or the answer that refuses it. -/
def readHistoryRequest (r : Request) : Except Response HistoryRequest :=
  match ReadParameters.ofQuery? r.query with
  | none => .error (.ofRemark 400)
  | some parameters => parameters.toRequest.mapError inputErrorResponse

def answerReadable (r : Request) : Procedure Response := do
  match readHistoryRequest r with
  | .error response => return response
  | .ok request =>
    match ← (readHistory request).run with
    | .error _ => return errorResponse 500 "Database error occurred"
    | .ok ts => return .ofJson 200 (.object [("data", .array (ts.map Transaction.toJson))])

def answerInvalidate : Procedure Response := do
  invalidateAll
  return .ofStatus 204

namespace Route

def answer (route : Route) (r : Request) : Procedure Response :=
  match route with
  | sync => answerSync r
  | readable => answerReadable r
  | invalidate => answerInvalidate

/-- A route's answer to a request by one of its methods. -/
def answerByMethod (route : Route) (r : Request) : Procedure Response :=
  let allowed (response : Response) :=
    response.withHeader "allow" (",".intercalate route.methods)
  if r.method = "OPTIONS" then return allowed (.ofStatus 200)
  else if !route.methods.contains r.method then return allowed (.ofStatus 405)
  else do
    let response ← route.answer r
    return if r.method = "HEAD" then response.withoutBody else response

end Route

/-- The answer to a request before it is opened to all origins. -/
def answerByPath (r : Request) : Procedure Response :=
  match Route.ofPath? r.path with
  | some route => route.answerByMethod r
  | none => return .ofStatus (if r.method = "OPTIONS" then 200 else 404)

def answer (r : Request) : Procedure Response := do
  let response ← answerByPath r
  return response.withHeader "access-control-allow-origin" "*"

end AddressLedger.Http
