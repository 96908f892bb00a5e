import AddressLedger.Service.Procedure

/-!
# Calls under way

Several calls over one shared state. The turns say which call makes its next access, which cached
record is lost, and when shutdown is asked for. A call waits for a lock until it is free. Calls are
started in their order, and only so many at once that a limit on those after the first unfinished
one is kept.
-/
namespace AddressLedger.Service

variable {φ α : Type}

def Procedure.result? : Procedure α → Option α
  | done result => some result
  | access _ _ => none

/-- Whether an access can be made now. -/
def Shared.admits (s : Shared φ) : Access → Bool
  | .lock address => !s.locked.contains address
  | _ => true

inductive Turn
  | call (i : Nat)
  /-- The record of a key is too old for the cache, or one too many. -/
  | expire (key : Catalog.Key)
  | shutdown
  deriving DecidableEq

structure Pool (φ α : Type) where
  calls : List (Procedure α)
  /-- How many calls may be under way at once. -/
  limit : Nat
  shared : Shared φ

namespace Pool

/-- The number of calls before the first unfinished one. -/
def settled (p : Pool φ α) : Nat := (p.calls.takeWhile (·.result?.isSome)).length

/-- Whether a call may be under way. -/
def isStarted (p : Pool φ α) (i : Nat) : Bool := i < p.settled + p.limit

/-- The pool after the next access of a call, or as it is if the call cannot make one now. -/
def advance (source : PageSource φ) (p : Pool φ α) (i : Nat) : Pool φ α :=
  match p.calls[i]? with
  | some (.access a next) =>
    if p.isStarted i && p.shared.admits a then
      let (answer, shared) := p.shared.perform source a
      { p with calls := p.calls.set i (next answer), shared := shared }
    else p
  | _ => p

def turn (source : PageSource φ) (p : Pool φ α) : Turn → Pool φ α
  | .call i => p.advance source i
  | .expire key => { p with shared := p.shared.forget key }
  | .shutdown => { p with shared := { p.shared with stopped := true } }

def run (source : PageSource φ) (p : Pool φ α) (turns : List Turn) : Pool φ α :=
  turns.foldl (turn source) p

/-- The results of all calls in their order, once all are finished. -/
def results? (p : Pool φ α) : Option (List α) := p.calls.mapM Procedure.result?

theorem run_append (source : PageSource φ) (p : Pool φ α) (turns more : List Turn) :
    p.run source (turns ++ more) = (p.run source turns).run source more :=
  List.foldl_append

end Pool

end AddressLedger.Service
