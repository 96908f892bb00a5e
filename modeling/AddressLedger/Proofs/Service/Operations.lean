import AddressLedger.Proofs.Catalog.Refresh
import AddressLedger.Proofs.History.Looking
import AddressLedger.Proofs.Http.Answer
import AddressLedger.Proofs.Store.Soundness
import AddressLedger.Proofs.Sync.Payloads

/-!
# All that the service does

Events put in directly, any calls at once, a closed store, a new start. Only runs of a sync come to
insert events, and these are of items that the feed gave; every other call leaves the event table
alone. So whatever is done from an empty table on, the table only grows at its end, its keys are all
different and each row is what its own item gives.
-/
namespace AddressLedger.Service
open Catalog Feed History Http Store Sync

variable {φ : Type} {source : PageSource φ} {kind : Item → Prop}

inductive ServiceCall
  | sync (address : String) (mode : Mode)
  | syncAll (addresses : List String) (mode : Mode)
  | readHistory (r : HistoryRequest)
  | hasEvent (key : EventKey)
  | fetchEvents (query : EventQuery) (offset limit : Int)
  | catalog (task : Task)
  | resolveTokens (ids : List String)
  | resolveProjects (ids : List String)
  | resolveExchanges (addresses : List String)
  | readRecords (kind : Kind) (ids : List String)
  | http (r : Request)

namespace ServiceCall

/-- The accesses of a call; what it answers does not matter here. -/
def procedure : ServiceCall → Procedure Unit
  | sync address mode => do
    let _ ← syncAddress address mode
    return
  | syncAll addresses mode => do
    let _ ← Sync.syncAll addresses mode
    return
  | readHistory r => do
    let _ ← (History.readHistory r).run
    return
  | hasEvent key => do
    let _ ← Procedure.call (.hasEvent key)
    return
  | fetchEvents query offset limit => do
    let _ ← Procedure.call (.fetchEvents query offset limit)
    return
  | catalog task => do
    let _ ← task.procedure.run
    return
  | resolveTokens ids => do
    let _ ← (Catalog.resolveTokens ids).run
    return
  | resolveProjects ids => do
    let _ ← (Catalog.resolveProjects ids).run
    return
  | resolveExchanges addresses => do
    let _ ← (Catalog.resolveExchanges addresses).run
    return
  | readRecords kind ids => do
    let _ ← Procedure.call (.readRecords kind ids)
    return
  | http r => do
    let _ ← Http.answer r
    return

end ServiceCall

def LooksUp : Access → Prop
  | .hasEvent _ | .fetchEvents _ _ _ | .readRecords _ _ => True
  | _ => False

variable {μ : Type} {m : Monitor μ}

/-- Whether a monitor admits, whatever was before, what the calls of the service are made of. -/
structure AdmitsParts (m : Monitor μ) : Prop where
  sync : ∀ address mode, (syncAddress address mode).FollowsAlways m
  task : ∀ task : Task, task.procedure.run.FollowsAlways m
  invalidate : invalidateAll.FollowsAlways m
  resolve : ∀ kind ids, (resolve kind ids).run.FollowsAlways m
  looks : ∀ x a, LooksUp a → m.admits x a

namespace AdmitsParts

variable (h : AdmitsParts m)
include h

theorem syncEach (mode : Mode) (addresses : List String) :
    (Sync.syncEach mode addresses).FollowsAlways m := by
  induction addresses with
  | nil => exact .done []
  | cons address addresses ih =>
    apply (h.sync address mode).bind
    intro result
    exact ih.bind fun _ => .done _

theorem readHistory (r : HistoryRequest) : (History.readHistory r).run.FollowsAlways m :=
  readHistory_followsAlways h.resolve (fun x _ _ _ => h.looks x _ trivial) r

-- what holds of an answer is known from its cases; it is not to be unfolded
attribute [local irreducible] Http.answer

theorem answer (r : Request) : (Http.answer r).FollowsAlways m := by
  refine answer_cases .done (fun p dress _ hp => hp.bind fun _ => .done _)
    (fun addresses mode report => ?_) (fun request respond hrespond => ?_) ?_ r
  · exact (h.syncEach mode _).bind fun _ => .done _
  · apply (h.readHistory request).bind
    intro result
    obtain ⟨response, hresponse⟩ := hrespond result
    rw [hresponse]
    exact .done _
  · exact h.invalidate.bind fun _ => .done _

theorem procedure (call : ServiceCall) : call.procedure.FollowsAlways m := by
  have hlooks : ∀ a, LooksUp a → (Procedure.call a).FollowsAlways m :=
    fun a ha => .of_call fun x => h.looks x a ha
  cases call with rw [ServiceCall.procedure]
  | sync address mode => exact (h.sync address mode).bind fun _ => .done _
  | syncAll addresses mode => exact (h.syncEach mode _).bind fun _ => .done _
  | readHistory r => exact (h.readHistory r).bind fun _ => .done _
  | catalog task => exact (h.task task).bind fun _ => .done _
  | resolveTokens ids => exact ((h.resolve .token ids).run_map _).bind fun _ => .done _
  | resolveProjects ids => exact ((h.resolve .project ids).run_map _).bind fun _ => .done _
  | resolveExchanges addresses =>
    exact ((h.resolve .counterparty addresses).run_map _).bind fun _ => .done _
  | http r => exact (h.answer r).bind fun _ => .done _
  | hasEvent key => exact (hlooks (.hasEvent key) trivial).bind fun _ => .done _
  | fetchEvents query offset limit =>
    exact (hlooks (.fetchEvents query offset limit) trivial).bind fun _ => .done _
  | readRecords kind ids => exact (hlooks (.readRecords kind ids) trivial).bind fun _ => .done _

end AdmitsParts

theorem leavesEvents_of_phase {x : Phase} {a : Access} (h : x.admits a) : LeavesEvents a := by
  cases a with
  | fetchPage address cursor => cases x <;> exact h.elim
  | insertEvents es => cases x <;> exact h.elim
  | _ => trivial

/-- Every call of the service inserts events of items that it received, if any. -/
theorem received_admitsParts : AdmitsParts received := by
  have hphases : ∀ {α : Type} {p : Procedure α} {post} {x},
      p.Follows phases post x → p.FollowsAlways received := fun hp =>
    .of_within (hp.within fun _ _ => leavesEvents_of_phase)
      fun _ _ ha => (received_of_leavesEvents ha).1
  refine ⟨syncAddress_follows_received, fun task => ?_, hphases invalidateAll_follows,
    fun kind ids => hphases (resolve_follows kind ids), fun x a ha => ?_⟩
  · cases task with
    | call c => exact hphases c.procedure_follows
    | write record => exact .run_bind (.of_call fun _ => trivial) fun _ => .done _
  · cases a with
    | insertEvents es => exact ha.elim
    | _ => trivial

abbrev Given := List (String × Item)

inductive Operation
  /-- One event is inserted directly. -/
  | insert (owner : String) (item : Item)
  /-- The events of several items are inserted as one page. -/
  | insertPage (given : Given)
  /-- Calls are under way, and are given up if the turns do not bring them to their ends. -/
  | serve (calls : List ServiceCall) (limit : Nat) (turns : List Turn)
  /-- The store is closed and answers nothing any more. -/
  | close
  /-- All but the store and the feed is built anew. -/
  | restart

namespace Operation

def eventsOf (given : Given) : List Event :=
  given.filterMap fun entry => Event.ofItem? entry.1 entry.2

/-- The shared state after an operation. -/
def apply (source : PageSource φ) (s : Shared φ) : Operation → Shared φ
  | insert owner item =>
    match Event.ofItem? owner item with
    | some e => { s with store := (s.store.insertEvent e).2 }
    | none => s
  | insertPage given => { s with store := (s.store.insertEvents (eventsOf given)).2 }
  | serve calls limit turns =>
    -- The locks of calls that are given up are free again.
    { ((⟨calls.map ServiceCall.procedure, limit, s⟩ : Pool φ Unit).run source turns).shared with
      locked := s.locked }
  | close => { s with store := { s.store with isOpen := false } }
  | restart =>
    { s with store := { s.store with isOpen := true }, cache := [], generation := 0, locked := [],
             stopped := false }

def items : Operation → List Item
  | insert _ item => [item]
  | insertPage given => given.map Prod.snd
  | _ => []

def afterAll (source : PageSource φ) (s : Shared φ) (ops : List Operation) : Shared φ :=
  ops.foldl (apply source) s

end Operation

open Operation

theorem insertEvent_events (s : Store) (e : Event) :
    (s.insertEvent e).2.events =
      if s.isOpen then s.events ++ (novel s.events.keys [e]).map Row.ofEvent else s.events := by
  rw [Store.insertEvent, Events.insert_eq]
  by_cases he : e.key ∈ s.events.keys <;> cases s.isOpen <;> simp [novel, he]

theorem prefix_apply (source : PageSource φ) (s : Shared φ) (op : Operation) :
    s.store.events <+: (op.apply source s).store.events := by
  cases op with
  | insert owner item =>
    rw [Operation.apply]
    split
    · dsimp only
      rw [insertEvent_events]
      split
      · exact List.prefix_append _ _
      · exact List.prefix_rfl
    · exact List.prefix_rfl
  | insertPage given => exact prefix_insertEvents s.store _
  | serve calls limit turns => exact Pool.prefix_run source ⟨_, limit, s⟩ turns
  | close => exact List.prefix_rfl
  | restart => exact List.prefix_rfl

/-- Calls under way keep a table sound if the feed gives items of the kind only. -/
theorem isSound_run (hsource : GivesOnly source kind) {s : Shared φ}
    (h : IsSound kind s.store.events) (calls : List ServiceCall) (limit : Nat) (turns : List Turn) :
    IsSound kind ((⟨calls.map ServiceCall.procedure, limit, s⟩ : Pool φ Unit).run
      source turns).shared.store.events := by
  have hfollows : (⟨calls.map ServiceCall.procedure, limit, s⟩ : Pool φ Unit).Follows received
      (fun _ _ => True) fun _ => [] := by
    intro i call hcall
    rw [List.getElem?_map] at hcall
    rcases Option.map_eq_some_iff.1 hcall with ⟨c, -, rfl⟩
    exact received_admitsParts.procedure c []
  refine (hfollows.run source (fun s given => IsSound kind s.store.events ∧
    ∀ call, ∀ i ∈ given call, kind i) turns ?_ ?_ ⟨h, by simp⟩).1.1
  · rintro s given call a - hadmits ⟨hsound, hgiven⟩
    refine ⟨?_, hsource.moved hgiven call a⟩
    rw [events_perform]
    cases a with
    | insertEvents es =>
      dsimp only
      rw [events_insertEvents]
      split
      · apply hsound.append_novel
        intro e he
        rcases hadmits e he with ⟨i, hi, owner, hevent⟩
        exact ⟨i, hgiven call i hi, owner, hevent⟩
      · exact hsound
    | _ => exact hsound
  · rintro s s' given hdrift ⟨hsound, hgiven⟩
    rw [hdrift.store_eq]
    exact ⟨hsound, hgiven⟩

theorem isSound_apply (hsource : GivesOnly source kind) {s : Shared φ}
    (h : IsSound kind s.store.events) {op : Operation} (hitems : ∀ i ∈ op.items, kind i) :
    IsSound kind (op.apply source s).store.events := by
  cases op with
  | insert owner item =>
    rw [Operation.apply]
    split
    · rename_i e he
      dsimp only
      rw [insertEvent_events]
      split
      · apply h.append_novel
        intro f hf
        obtain rfl := List.mem_singleton.1 hf
        exact ⟨item, hitems item (by simp [items]), owner, he⟩
      · exact h
    · exact h
  | insertPage given =>
    change IsSound kind (s.store.insertEvents (eventsOf given)).2.events
    rw [events_insertEvents]
    split
    · apply h.append_novel
      intro e he
      rcases List.mem_filterMap.1 he with ⟨⟨owner, item⟩, hentry, hevent⟩
      exact ⟨item, hitems item (List.mem_map_of_mem hentry), owner, hevent⟩
    · exact h
  | serve calls limit turns => exact isSound_run hsource h calls limit turns
  | close => exact h
  | restart => exact h

/-- Whatever is done from an empty table on, the table stays sound. -/
theorem isSound_afterAll (hsource : GivesOnly source kind) {s : Shared φ}
    (hempty : s.store.events = []) {ops : List Operation}
    (hitems : ∀ op ∈ ops, ∀ i ∈ op.items, kind i) :
    IsSound kind (afterAll source s ops).store.events := by
  induction ops using List.reverseRecOn with
  | nil =>
    rw [afterAll, List.foldl_nil, hempty]
    exact isSound_nil kind
  | append_singleton ops op ih =>
    rw [afterAll, List.foldl_append, List.foldl_cons, List.foldl_nil, ← afterAll]
    apply isSound_apply hsource
    · exact ih fun op' hop' => hitems op' (List.mem_append_left _ hop')
    · exact hitems op (by simp)

/-- An item as it comes out of a text. -/
def IsRead (i : Item) : Prop := ∃ depth r, Item.decode depth r = .ok i

theorem isRead_of_isDecoded {i : Item} (h : IsDecoded i) : IsRead i := by
  rcases h with ⟨body, page, hpage, hi⟩
  rcases Page.exists_decode_of_mem hpage hi with ⟨r, hr⟩
  exact ⟨_, r, hr⟩

theorem readsBack_of_isRead {e : Event} (h : IsRead e.payload) : ReadsBack e := by
  obtain ⟨depth, tree, htree⟩ := h
  exact readsBack_of_decode htree

/-- If items come out of texts, every row reads back as the item that it is of. -/
theorem exists_ofText_of_afterAll (hclient : IsClient source) {s : Shared φ}
    (hempty : s.store.events = []) {ops : List Operation}
    (hread : ∀ op ∈ ops, ∀ i ∈ op.items, IsRead i) :
    ∀ r ∈ (afterAll source s ops).store.events, ∃ i, Item.ofText r.payload = .ok i ∧ r.IsOf i := by
  intro r hr
  have hgives : GivesOnly source IsRead := fun s address cursor page hpage i hi =>
    isRead_of_isDecoded (hclient.givesOnly s address cursor page hpage i hi)
  rcases (isSound_afterAll hgives hempty hread).derived r hr with ⟨i, ⟨depth, tree, htree⟩, hof⟩
  refine ⟨i, ?_, hof⟩
  rw [hof.payload]
  exact Item.ofText_encode htree

theorem readable_afterAll (hclient : IsClient source) {s : Shared φ}
    (hempty : s.store.events = []) {ops : List Operation}
    (hread : ∀ op ∈ ops, ∀ i ∈ op.items, IsRead i) :
    ∀ r ∈ (afterAll source s ops).store.events, r.toEvent.toBool = true := by
  intro r hr
  rcases exists_ofText_of_afterAll hclient hempty hread r hr with ⟨i, hi, -⟩
  rw [Row.toEvent, hi]
  rfl

/-- In every state that operations reach from an empty table no two rows have the same key, any
further operation only adds rows at the end, and each row has an id, a chain and an address in lower
case and is what the item that its payload stands for gives. If items come out of texts, the payload
reads back as that item. -/
theorem table_grows_and_stays_sound (source : PageSource φ) {s : Shared φ}
    (hempty : s.store.events = []) (ops : List Operation) :
    let rows := (afterAll source s ops).store.events
    rows.keys.Nodup ∧
    (∀ op : Operation, rows <+: (op.apply source (afterAll source s ops)).store.events) ∧
    (∀ r ∈ rows, r.id ≠ "" ∧ r.chain ≠ "" ∧ Text.lower r.address = r.address ∧
      ∃ i : Item, r.payload = i.encode ∧ r.IsOf i) ∧
    (IsClient source → (∀ op ∈ ops, ∀ i ∈ op.items, IsRead i) →
      ∀ r ∈ rows, ∃ i, Item.ofText r.payload = .ok i ∧ r.IsOf i) := by
  intro rows
  have hsound : IsSound (fun _ => True) rows :=
    isSound_afterAll (fun _ _ _ _ _ _ _ => trivial) hempty fun _ _ _ _ => trivial
  refine ⟨hsound.nodup, fun op => prefix_apply source _ op, fun r hr => ?_,
    fun hclient hread => exists_ofText_of_afterAll hclient hempty hread⟩
  rcases hsound.derived r hr with ⟨i, -, hof⟩
  rcases hof.named with ⟨hid, hchain, haddress⟩
  exact ⟨hid, hchain, haddress, i, hof.payload, hof⟩

/-- An event is inserted directly, a run stores the item of its first page and is given up, the
service starts anew, and the store is closed. -/
def eventful : List Operation :=
  [.insert "0xAB" (bareItem "2"), .serve [.sync " 0xAB" .catchUp] 1 (List.replicate 4 (.call 0)),
    .restart, .close]

theorem length_eventful :
    (afterAll (answering notedBody) unstored eventful).store.events.length = 2 := by
  rw [eventful, afterAll, List.foldl_cons, List.foldl_cons, Operation.apply, Operation.apply,
    List.map_singleton, ServiceCall.procedure, syncAddress, pageFrom]
  decide +kernel

theorem isRead_bareItem : IsRead (bareItem "2") :=
  ⟨0, .object [(some "id", .text (some "2")), (some "chain", .text (some "eth"))] true, rfl⟩

/-- The two rows have different keys, stay whatever comes next, and read back. -/
theorem table_of_eventful :
    unstored.store.events = [] ∧
    let rows := (afterAll (answering notedBody) unstored eventful).store.events
    rows.length = 2 ∧ rows.keys.Nodup ∧
    (∀ op : Operation, rows <+: (op.apply (answering notedBody)
      (afterAll (answering notedBody) unstored eventful)).store.events) ∧
    ∀ r ∈ rows, r.id ≠ "" ∧ r.chain ≠ "" ∧ Text.lower r.address = r.address ∧
      ∃ i, Item.ofText r.payload = .ok i ∧ r.IsOf i := by
  have hitems : ∀ op ∈ eventful, ∀ i ∈ op.items, IsRead i := by
    simp [eventful, items, isRead_bareItem]
  rcases table_grows_and_stays_sound (answering notedBody) (s := unstored) rfl eventful with
    ⟨hkeys, hgrows, hnamed, hread⟩
  refine ⟨rfl, length_eventful, hkeys, hgrows, fun r hr => ?_⟩
  rcases hnamed r hr with ⟨hid, hchain, haddress, -⟩
  exact ⟨hid, hchain, haddress, hread (answering_isClient notedBody) hitems r hr⟩

end AddressLedger.Service
