import AddressLedger.Json.Decode
import AddressLedger.Sync.Run

/-!
# Requests for a sync

A list of addresses and a mode, as a JSON object or as an array of the two. The text is judged in
its order: what comes first decides whether it is malformed or of the wrong shape. Members that have
no meaning here only have to be well-formed.
-/
namespace AddressLedger.Sync

open Json Json.Raw

structure SyncRequest where
  addresses : List String
  mode : Mode
  deriving DecidableEq

def Mode.ofFlag (resumeGaps : Bool) : Mode := if resumeGaps then .fillGaps else .catchUp

namespace SyncRequest

def toAddresses : Raw → Decoded (List String) := Raw.toList toText

def toMode (r : Raw) : Decoded Mode := Mode.ofFlag <$> r.toBool

/-- The members of an object in turn, after those that are known already. -/
def decodeMembers (closed : Bool) (addresses : Option (List String)) (mode : Option Mode) :
    List (Option String × Raw) → Decoded SyncRequest
  | [] =>
    if !closed then malformed
    else match addresses with
      | some addresses => .ok ⟨addresses, mode.getD .catchUp⟩
      | none => mismatched
  | (none, _) :: _ => malformed
  | (some name, value) :: members =>
    if name = "addresses" then
      if addresses.isSome then mismatched
      else do
        let addresses ← toAddresses value
        decodeMembers closed (some addresses) mode members
    else if name = "resume_gaps" then
      if mode.isSome then mismatched
      else do
        let mode ← toMode value
        decodeMembers closed addresses (some mode) members
    else if value.isComplete then decodeMembers closed addresses mode members
    else malformed

/-- The items of an array: the addresses, and the mode unless it is left out. -/
def decodeItems (closed : Bool) : List Raw → Decoded SyncRequest
  | [] => if closed then mismatched else malformed
  | first :: rest => do
    let addresses ← toAddresses first
    match rest with
    | [] => if closed then return ⟨addresses, .catchUp⟩ else malformed
    | second :: surplus =>
      let mode ← toMode second
      if closed && surplus.isEmpty then return ⟨addresses, mode⟩ else malformed

def decode : Raw → Decoded SyncRequest
  | Raw.object members closed => decodeMembers closed none none members
  | Raw.array items closed => decodeItems closed items
  | r => r.refuse

/-- A request from its text, after which nothing may follow. -/
def ofText (s : String) : Decoded SyncRequest := do
  let (tree, ended) := readTree s
  let request ← decode tree
  if ended then return request else malformed

end SyncRequest

end AddressLedger.Sync
