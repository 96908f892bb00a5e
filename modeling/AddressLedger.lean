import AddressLedger.Feed.Client
import AddressLedger.Http.Router
import AddressLedger.Proofs.Sync.Effect
import AddressLedger.Proofs.Catalog.Staleness
import AddressLedger.Proofs.History.Tiling
import AddressLedger.Sync.Concurrent
import AddressLedger.Sync.Schedule
import AddressLedger.Proofs.Feed.Ledger
import AddressLedger.Proofs.Sync.Requests
import AddressLedger.Proofs.Sync.Walk
import AddressLedger.Proofs.Sync.GapFill
import AddressLedger.Proofs.Sync.PageSize
import AddressLedger.Proofs.Sync.CatchUp
import AddressLedger.Proofs.Service.Agreement
import AddressLedger.Proofs.Sync.Modes
import AddressLedger.Proofs.Catalog.Invisibility
import AddressLedger.Proofs.Catalog.Gathering
import AddressLedger.Proofs.Catalog.Settling
import AddressLedger.Proofs.Catalog.Refresh
import AddressLedger.Proofs.Number.Digits
import AddressLedger.Proofs.Number.Rounding
import AddressLedger.Proofs.Json.Numbers
import AddressLedger.Proofs.Json.Reading
import AddressLedger.Proofs.Json.Decoding
import AddressLedger.Proofs.Json.Records
import AddressLedger.Proofs.Feed.Payload
import AddressLedger.Proofs.Store.Reading
import AddressLedger.Proofs.Sync.Payloads
import AddressLedger.Proofs.Sync.Repetition
import AddressLedger.Proofs.Store.Soundness
import AddressLedger.Proofs.Service.Operations
import AddressLedger.Proofs.Text.Trimmed
import AddressLedger.Proofs.Service.Turnstile
import AddressLedger.Proofs.Service.Serial
import AddressLedger.Proofs.Service.Completion
import AddressLedger.Proofs.Sync.Counting
import AddressLedger.Proofs.Sync.Overlap
import AddressLedger.Proofs.Sync.Separation
import AddressLedger.Proofs.Sync.Siblings
import AddressLedger.Proofs.History.Paging
import AddressLedger.Proofs.History.Insertions
import AddressLedger.Proofs.Sync.Alone
import AddressLedger.Proofs.Sync.Verdict
import AddressLedger.Proofs.Sync.Cancellation
import AddressLedger.Proofs.Catalog.Visibility
import AddressLedger.Proofs.History.Spellings
import AddressLedger.Proofs.Http.Refusal
import AddressLedger.Proofs.Catalog.Traversal
import AddressLedger.Proofs.Number.Sign
import AddressLedger.Proofs.History.Sides
import AddressLedger.Proofs.History.Labels
import AddressLedger.Proofs.History.Served
import AddressLedger.Proofs.History.Chains
import AddressLedger.Proofs.Feed.Revision
import AddressLedger.Proofs.History.Owners
import AddressLedger.Proofs.History.Choice
import AddressLedger.Proofs.History.Slots
import AddressLedger.Proofs.Store.Windows
import AddressLedger.Proofs.Number.Places
import AddressLedger.Proofs.Text.Octets
import AddressLedger.Proofs.Settings.Tracked
