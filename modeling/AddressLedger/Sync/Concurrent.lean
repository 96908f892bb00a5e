import AddressLedger.Service.Interleaving
import AddressLedger.Sync.Run

/-!
# Runs at the same time

The runs that a sync of several addresses starts, of which a limited number is under way at once.
Running them one after the other, as `syncAll` does, is one of the ways in which they can go.
-/
namespace AddressLedger.Sync

open Service

variable {φ : Type}

/-- The runs for the distinct addresses of a list. -/
def syncPool (limit : Nat) (addresses : List String) (mode : Mode) (shared : Shared φ) :
    Pool φ SyncResult :=
  ⟨(distinctAddresses addresses).map fun address => syncAddress address mode, max 1 limit, shared⟩

end AddressLedger.Sync
