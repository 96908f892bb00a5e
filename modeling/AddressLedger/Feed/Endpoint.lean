import AddressLedger.Text.Form
import AddressLedger.Text.Lower

/-!
# The address of the feed

The part of the feed's URL after the authority, and the target of a request for one page. Dot
segments of the path are resolved, and characters that a URL cannot hold are written as codes.
-/
namespace AddressLedger.Feed

open Text

/-- The path of the feed with its segments resolved, and a query if there is one. -/
structure Endpoint where
  path : List Char
  query : Option (List Char)
  deriving DecidableEq

namespace Endpoint

/-- Whether an octet needs a code wherever it stands, or is among the given characters. -/
def needsCode (marks : List Char) (b : UInt8) : Bool :=
  b ≤ 0x20 || 0x7E < b || marks.contains (Char.ofNat b.toNat)

/-- Characters whose octets need no code stand for themselves. -/
def encodeWith (marks cs : List Char) : List Char :=
  (utf8 cs).flatMap fun b =>
    if needsCode marks b then
      ['%', upperHexDigit (b.toNat / 16), upperHexDigit (b.toNat % 16)]
    else [Char.ofNat b.toNat]

def pathMarks : List Char := ['"', '#', '<', '>', '?', '`', '\x7b', '\x7d']

def queryMarks : List Char := ['"', '#', '<', '>', '\'']

/-- A segment with points in place of their codes. -/
def plainPoints : List Char → List Char
  | '%' :: '2' :: 'e' :: cs => '.' :: plainPoints cs
  | '%' :: '2' :: 'E' :: cs => '.' :: plainPoints cs
  | c :: cs => c :: plainPoints cs
  | [] => []

/-- Resolves dot segments after the segments read so far, which are given in reverse. -/
def resolveSegments (before : List (List Char)) : List (List Char) → List (List Char)
  | [] => before.reverse
  | segment :: rest =>
    let points := plainPoints segment
    if points = ['.', '.'] then
      resolveSegments (if rest.isEmpty then [] :: before.tail else before.tail) rest
    else if points = ['.'] then
      resolveSegments (if rest.isEmpty then [] :: before else before) rest
    else resolveSegments (segment :: before) rest

/-- The path with its segments resolved; an empty one is the root. -/
def resolvePath (cs : List Char) : List Char :=
  let segments := splitAt '/' ((cs.map fun c => if c = '\\' then '/' else c).drop 1)
  (resolveSegments [] segments).flatMap fun segment => '/' :: encodeWith pathMarks segment

/-- The endpoint of what follows the authority, unless it would change the authority. -/
def ofText? (s : String) : Option Endpoint :=
  let cs := s.toList.filter fun c => c != '\t' && c != '\n' && c != '\r'
  let cs := (cs.reverse.dropWhile fun c => c.toNat ≤ 0x20).reverse
  let (path, query) := cutAt '?' (cutAt '#' cs).1
  if path.isEmpty || path.head? == some '/' || path.head? == some '\\' then
    some ⟨resolvePath path, query.map (encodeWith queryMarks)⟩
  else none

/-- The target of a request with the given pairs after the endpoint's own query. -/
def target (e : Endpoint) (pairs : List (String × String)) : String :=
  let query := match e.query with
    | some (c :: cs) => c :: cs ++ '&' :: encodeForm pairs
    | _ => encodeForm pairs
  String.ofList (e.path ++ '?' :: query)

end Endpoint

end AddressLedger.Feed
