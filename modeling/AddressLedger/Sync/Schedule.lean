import AddressLedger.Settings
import AddressLedger.Sync.Run

/-!
# Scheduled runs

A clock that makes a sync of the tracked addresses due once in a period, until shutdown. The first
tick is due at once. A tick that comes late puts the next one a full period after it, unless it is
so little late that the schedule is kept.
-/
namespace AddressLedger.Sync

/-- Times are in milliseconds since the start. -/
structure Schedule where
  addresses : List String
  period : Nat
  now : Nat
  nextTick : Nat
  finished : Bool

namespace Schedule

/-- How late a tick may come without moving those after it. -/
def tolerance : Nat := 5

/-- When the next tick is due after one that comes now. -/
def tickAfter (s : Schedule) : Nat :=
  if s.nextTick + tolerance < s.now then s.now + s.period else s.nextTick + s.period

/-- A schedule over no addresses is finished. Without a run at the start the first tick is spent. -/
def start (addresses : List String) (every : Nat) (runAtStart : Bool) : Schedule :=
  let period := max every (Settings.minIntervalSeconds * 1000)
  ⟨addresses, period, 0, if runAtStart then 0 else period, addresses.isEmpty⟩

def advance (s : Schedule) (time : Nat) : Schedule := { s with now := s.now + time }

def isDue (s : Schedule) : Bool := !s.finished && s.nextTick ≤ s.now

def tick (s : Schedule) : Schedule := { s with nextTick := s.tickAfter }

def stop (s : Schedule) : Schedule := { s with finished := true }

end Schedule

open Service

/-- Lets the schedule act at its time: it ends at shutdown, and else runs a sync if one is due. -/
def Schedule.act {φ : Type} (source : PageSource φ) (s : Schedule) (shared : Shared φ) :
    Schedule × Shared φ :=
  if s.finished then (s, shared)
  else if shared.stopped then (s.stop, shared)
  else if s.isDue then
    let (_, shared) := shared.exec source (syncAll s.addresses .catchUp)
    (if shared.stopped then s.tick.stop else s.tick, shared)
  else (s, shared)

end AddressLedger.Sync
