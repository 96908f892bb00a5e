import AddressLedger.Json.Basic
import AddressLedger.Text.Lower
import AddressLedger.Text.Split

/-!
# HTTP messages

Requests and responses as far as the service looks at them. A target is a path with a query, after
a scheme and an authority or not; a fragment is no part of it.
-/
namespace AddressLedger.Http

open Text

structure Request where
  method : String
  target : String
  headers : List (String × String)
  body : String

namespace Request

/-- The value of the first header of a name, whose case does not matter. -/
def header? (r : Request) (name : String) : Option String :=
  (r.headers.find? fun header => sameIgnoringAsciiCase header.1 name).map Prod.snd

/-- The target of a URL without its scheme and authority. -/
def dropOrigin (cs : List Char) : List Char :=
  match cs.dropWhile (· != ':') with
  | ':' :: '/' :: '/' :: rest =>
    if cs.head? = some '/' then cs else rest.dropWhile fun c => c != '/' && c != '?'
  | _ => cs

def pathAndQuery (r : Request) : List Char × List Char :=
  let (path, query) := cutAt '?' (dropOrigin (cutAt '#' r.target.toList).1)
  (path, query.getD [])

def path (r : Request) : String := String.ofList r.pathAndQuery.1

def query (r : Request) : List Char := r.pathAndQuery.2

end Request

inductive Body
  | empty
  | json (value : Json)
  /-- A remark on the form of the request, in words. -/
  | remark

structure Response where
  status : Nat
  headers : List (String × String)
  body : Body

namespace Response

def ofStatus (status : Nat) : Response := ⟨status, [], .empty⟩

def ofJson (status : Nat) (value : Json) : Response := ⟨status, [], .json value⟩

def ofRemark (status : Nat) : Response := ⟨status, [], .remark⟩

def withHeader (name value : String) (r : Response) : Response :=
  { r with headers := r.headers ++ [(name, value)] }

def withoutBody (r : Response) : Response := { r with body := .empty }

def isSuccess (r : Response) : Bool := 200 ≤ r.status && r.status < 300

end Response

end AddressLedger.Http
