import AddressLedger.Proofs.Catalog.Keys
import AddressLedger.Proofs.History.Chains
import AddressLedger.Proofs.Service.Operations

/-!
# Histories of a running service

Whatever the service does, it caches records under their own keys. So what holds of a request over a
cache of this kind holds of every request to a service that began with nothing cached.
-/
namespace AddressLedger.History
open Catalog Service Store Sync

variable {φ : Type} {source : PageSource φ} {s : Shared φ}

theorem syncAddress_caches (address : String) (mode : Mode) :
    (syncAddress address mode).FollowsAlways caching := by
  have hpages : (pageFrom (normalizeAddress address) mode none 0).FollowsAlways caching := by
    refine .of_within (pageFrom_within _ mode none 0) fun told a ha _ => ?_
    cases a with
    | keep key r => exact ha.elim
    | _ => trivial
  refine .bind (.of_call fun _ _ => trivial) fun _ => hpages.bind fun outcome => ?_
  exact .bind (.of_call fun _ _ => trivial) fun _ => .done _

theorem caching_admitsParts : AdmitsParts caching where
  sync := syncAddress_caches
  task
    | .call c => fun _ => follows_caching c.procedure_follows fun _ => trivial
    | .write record => .run_bind (.of_call fun _ _ => trivial) fun _ => .done _
  invalidate := fun _ => follows_caching invalidateAll_follows fun _ => trivial
  resolve kind ids := fun _ => follows_caching (resolve_follows kind ids) fun _ => trivial
  looks told a ha _ := by
    cases a with
    | keep key r => exact ha.elim
    | _ => trivial

theorem isKeyed_apply (source : PageSource φ) (hs : s.IsKeyed) (op : Operation) :
    (op.apply source s).IsKeyed := by
  cases op with
  | insert owner item =>
    rw [Operation.apply]
    split <;> exact hs
  | serve calls limit turns =>
    refine isKeyed_run source (p := ⟨calls.map ServiceCall.procedure, limit, s⟩) hs ?_ turns
    intro i call hcall
    rw [List.getElem?_map] at hcall
    obtain ⟨c, -, rfl⟩ := Option.map_eq_some_iff.mp hcall
    exact caching_admitsParts.procedure c True
  | restart => exact fun key r hr => by cases hr
  | _ => exact hs

theorem isKeyed_afterAll (source : PageSource φ) (hs : s.IsKeyed) (ops : List Operation) :
    (Operation.afterAll source s ops).IsKeyed := by
  induction ops using List.reverseRecOn with
  | nil => exact hs
  | append_singleton ops op ih =>
    rw [Operation.afterAll, List.foldl_append, List.foldl_cons, List.foldl_nil]
    exact isKeyed_apply source ih op

theorem isKeyed_of_cache_nil (h : s.cache = []) : s.IsKeyed := by
  intro key record hcached
  rw [Shared.cached?_of_cache_nil h] at hcached
  cases hcached

/-- Whatever was done since nothing was cached, the records that a request returns are described
after their labels, and each is what a row that was read shows. -/
theorem consistent_afterAll (source : PageSource φ) {start : Shared φ} (hstart : start.cache = [])
    {ops : List Operation} (hs : s = Operation.afterAll source start ops) {r : HistoryRequest}
    (hbound : s.store.events.length < offsetBound) {ts : List Transaction}
    (hts : (s.exec source (readHistory r).run).1 = .ok ts) :
    ∃ rows, r.IsRead s.overlaid rows ∧ ∀ t ∈ ts,
      t.description = describe t ∧ t.dateTime = Calendar.dateTimeText t.timestamp ∧
      ∃ row ∈ rows, r.ShowsRow s.overlaid rows t row := by
  have hkeyed : s.IsKeyed := hs ▸ isKeyed_afterAll source (isKeyed_of_cache_nil hstart) ops
  obtain ⟨rows, hread, hwindow⟩ := exists_window_of_readHistory source hkeyed hbound hts
  exact ⟨rows, hread, fun t ht => consistent_of_mem_records (mem_records_of_mem_window
    (hwindow t ht))⟩

/-- Whatever was done since nothing was stored or cached, a request for one chain with room for all
rows is answered as the one for all chains, less what is of other chains. -/
theorem onChain_afterAll (hclient : IsClient source) {start : Shared φ}
    (hempty : start.store.events = []) (hstart : start.cache = []) {ops : List Operation}
    (hitems : ∀ op ∈ ops, ∀ i ∈ op.items, Service.IsRead i)
    (hs : s = Operation.afterAll source start ops) (r : HistoryRequest) (c : String)
    (hbound : s.store.events.length < offsetBound) (hskip : r.skip = 0)
    (hroom : s.store.events.length ≤ r.limit) :
    (s.exec source (readHistory (r.onChain (some c))).run).1 =
      (s.exec source (readHistory (r.onChain none)).run).1.map (ofChain c) := by
  have hkeyed : s.IsKeyed := hs ▸ isKeyed_afterAll source (isKeyed_of_cache_nil hstart) ops
  exact readHistory_onChain_of_readable source r c hkeyed hbound hskip hroom
    (hs ▸ readable_afterAll hclient hempty hitems)

end AddressLedger.History
