import AddressLedger.Feed.Client
import AddressLedger.Proofs.Feed.Payload
import AddressLedger.Proofs.Service.Growth
import AddressLedger.Proofs.Store.Reading
import AddressLedger.Proofs.Sync.Accesses

/-!
# Stored payloads

Runs insert events of items that the feed gave them and no others. The feed gives what the client
decodes, and an item that was decoded reads back. So whatever runs go on, and however far, a reader
of the table is given the events that were inserted.
-/
namespace AddressLedger.Sync
open Catalog Feed Service Store

variable {φ : Type} {source : PageSource φ} {known : List Item}
  {e : Event}

/-- A source whose answers are what the client makes of responses. -/
def IsClient (source : PageSource φ) : Prop :=
  ∀ address cursor feed stopping result feed',
    source.request address cursor feed = (.answered stopping result, feed') →
      ∃ response, result = Client.interpret response

def IsDecoded (i : Item) : Prop :=
  ∃ body page, Page.ofText body = .ok page ∧ i ∈ page.items

theorem isDecoded_of_interpret {response : Option PageResponse} {page : Page} {i : Item}
    (h : Client.interpret response = .ok page) (hi : i ∈ page.items) : IsDecoded i := by
  rw [Client.interpret.eq_def] at h
  split at h
  · cases h
  · rename_i response
    split at h
    · cases hbody : Page.ofText response.body with
      | error fault =>
        rw [hbody] at h
        cases h
      | ok decoded =>
        rw [hbody] at h
        obtain rfl := Except.ok.inj h
        exact ⟨response.body, decoded, hbody, hi⟩
    · cases h

/-- Whether all items of the pages that a source gives are of a kind. -/
def GivesOnly (source : PageSource φ) (kind : Item → Prop) : Prop :=
  ∀ (s : Shared φ) address cursor page, (s.fetchPage source address cursor).1 = .ok page →
    ∀ i ∈ page.items, kind i

theorem IsClient.givesOnly (hclient : IsClient source) : GivesOnly source IsDecoded := by
  intro s address cursor page h i hi
  rw [Shared.fetchPage] at h
  split at h
  · cases h
  · split at h
    · rename_i stopping result feed' heq
      rcases hclient _ _ _ _ _ _ heq with ⟨response, rfl⟩
      exact isDecoded_of_interpret h hi
    · cases h

def IsOfDecoded (e : Event) : Prop := ∃ i owner, IsDecoded i ∧ Event.ofItem? owner i = some e

theorem readsBack_of_isOfDecoded (h : IsOfDecoded e) : ReadsBack e := by
  rcases h with ⟨i, owner, ⟨body, page, hpage, hi⟩, he⟩
  rcases Page.exists_decode_of_mem hpage hi with ⟨r, hr⟩
  rw [← Event.payload_of_ofItem? he] at hr
  exact readsBack_of_decode hr

/-- Collects the items that a call receives, and admits the insertion of their events only. -/
def received : Monitor (List Item) where
  next items made := items ++ (made.page?.elim [] Page.items)
  admits items
    | .insertEvents es => ∀ e ∈ es, ∃ i ∈ items, ∃ owner, Event.ofItem? owner i = some e
    | _ => True

theorem received_of_leavesEvents {a : Access} (ha : LeavesEvents a) :
    received.admits known a ∧ ∀ answer, received.next known ⟨a, answer⟩ = known := by
  cases a with
  | fetchPage address cursor => exact ha.elim
  | insertEvents es => exact ha.elim
  | _ => exact ⟨trivial, fun _ => List.append_nil _⟩

theorem received_lasts (owner : String) : Lasts received owner fun _ _ => True where
  request _ _ := ⟨trivial, fun _ => trivial⟩
  study _ _ _ a ha := by
    apply received_of_leavesEvents
    cases a with
    | fetchPage address cursor => exact ha.elim
    | insertEvents es => exact ha.elim
    | _ => trivial
  insertion _ _ _ es hes := by
    refine ⟨fun e he => ?_, fun _ => trivial⟩
    rcases hes e he with ⟨i, hi, hevent⟩
    exact ⟨i, List.mem_append_right _ hi, owner, hevent⟩

theorem syncAddress_follows_received (address : String) (mode : Mode) (known : List Item) :
    (syncAddress address mode).Follows received (fun _ _ => True) known :=
  syncAddress_follows (received_lasts _) trivial trivial (fun _ _ _ => ⟨trivial, trivial⟩) mode

/-- A table that began with some events and got events of decoded items, while the calls have
received decoded items only. -/
def HoldsDecoded (es : List Event) (s : Shared φ) (given : Nat → List Item) : Prop :=
  (∃ new, s.store.events = (es ++ new).map Row.ofEvent ∧ ∀ e ∈ new, IsOfDecoded e) ∧
    ∀ call, ∀ i ∈ given call, IsDecoded i

variable {es : List Event} {s : Shared φ} {given : Nat → List Item}

theorem HoldsDecoded.drift {s' : Shared φ} (hdrift : Pool.Drift s s')
    (h : HoldsDecoded es s given) : HoldsDecoded es s' given := by
  cases hdrift <;> exact h

/-- What calls have received is of the kind that the source gives, also after another access. -/
theorem GivesOnly.moved {kind : Item → Prop} (hsource : GivesOnly source kind)
    (hkind : ∀ call, ∀ i ∈ given call, kind i) (call : Nat) (a : Access) :
    ∀ other, ∀ i ∈ Pool.moved received given (call, ⟨a, (s.perform source a).1⟩) other,
      kind i := by
  intro other i hi
  by_cases hother : other = call
  · subst hother
    rw [Pool.moved_self] at hi
    rcases List.mem_append.1 hi with hi | hi
    · exact hkind other i hi
    · cases a with
      | fetchPage address cursor =>
        cases hanswer : (s.fetchPage source address cursor).1 with
        | error failure =>
          simp only [Shared.perform, hanswer] at hi
          cases hi
        | ok page =>
          simp only [Shared.perform, hanswer] at hi
          exact hsource s address cursor page hanswer i hi
      | _ => cases hi
  · rw [Pool.moved_other hother] at hi
    exact hkind other i hi

theorem HoldsDecoded.perform (hclient : IsClient source) (h : HoldsDecoded es s given) {call : Nat}
    {a : Access} (ha : received.admits (given call) a) :
    HoldsDecoded es (s.perform source a).2
      (Pool.moved received given (call, ⟨a, (s.perform source a).1⟩)) := by
  rcases h with ⟨⟨new, hevents, hnew⟩, hdecoded⟩
  refine ⟨?_, hclient.givesOnly.moved hdecoded call a⟩
  rw [events_perform]
  cases a with
  | insertEvents batch =>
    dsimp only
    rw [events_insertEvents]
    split
    · refine ⟨new ++ novel s.store.events.keys batch, ?_, ?_⟩
      · rw [hevents, ← List.map_append, List.append_assoc]
      · intro e he
        rcases List.mem_append.1 he with he | he
        · exact hnew e he
        · rcases ha e ((novel_sublist _ _).mem he) with ⟨i, hi, owner, hevent⟩
          exact ⟨i, owner, hdecoded call i hi, hevent⟩
    · exact ⟨new, hevents, hnew⟩
  | _ => exact ⟨new, hevents, hnew⟩

def runsPool (runs : List (String × Mode)) (limit : Nat) (s : Shared φ) : Pool φ SyncResult :=
  ⟨runs.map fun run => syncAddress run.1 run.2, limit, s⟩

theorem runsPool_follows (runs : List (String × Mode)) (limit : Nat) (s : Shared φ) :
    (runsPool runs limit s).Follows received (fun _ _ => True) fun _ => [] := by
  intro i call hcall
  rw [runsPool, List.getElem?_map] at hcall
  rcases Option.map_eq_some_iff.1 hcall with ⟨run, -, rfl⟩
  exact syncAddress_follows_received run.1 run.2 []

/-- An item of a page is decoded as itself from the text in which it is stored. And whatever runs go
on over a table whose rows read back, and however far, the rows that they add are those of events of
such items, and a reader is given the events of the whole table that it asks for. -/
theorem payloads_read_back (source : PageSource φ) (hclient : IsClient source) (s : Shared φ)
    (es : List Event) (hrows : s.store.events = es.map Row.ofEvent)
    (hread : ∀ e ∈ es, ReadsBack e) (runs : List (String × Mode)) (limit : Nat)
    (turns : List Turn) :
    (∀ body page, Page.ofText body = .ok page → ∀ i ∈ page.items,
      Item.ofText i.encode = .ok i) ∧
    ∃ new : List Event,
      (∀ e ∈ new, IsOfDecoded e ∧ (Row.ofEvent e).toEvent = .ok e) ∧
      ((runsPool runs limit s).run source turns).shared.store.events =
        (es ++ new).map Row.ofEvent ∧
      ∀ q offset room,
        ((runsPool runs limit s).run source turns).shared.store.fetchEvents q offset room =
          if q.owners.isEmpty ∨ room ≤ 0 then .ok []
          else ((runsPool runs limit s).run source turns).shared.store.whenOpen
            (eventWindow (es ++ new) q offset room) := by
  constructor
  · intro body page hpage i hi
    rcases Page.exists_decode_of_mem hpage hi with ⟨r, hr⟩
    exact Item.ofText_encode hr
  · have hstart : HoldsDecoded es s fun _ => [] := ⟨⟨[], by simpa using hrows, by simp⟩, by simp⟩
    obtain ⟨⟨new, hevents, hnew⟩, -⟩ := ((runsPool_follows runs limit s).run source
      (HoldsDecoded es) turns (fun s given call a _ ha h => h.perform hclient ha)
      (fun s s' given hdrift h => h.drift hdrift) hstart).1
    have hreadNew : ∀ e ∈ new, ReadsBack e := fun e he => readsBack_of_isOfDecoded (hnew e he)
    have hall : ∀ e ∈ es ++ new, ReadsBack e := by
      intro e he
      rcases List.mem_append.1 he with he | he
      · exact hread e he
      · exact hreadNew e he
    exact ⟨new, fun e he => ⟨hnew e he, hreadNew e he⟩, hevents, fetchEvents_eq hevents hall⟩

/-- A connection over which every request gets the same body. -/
def answering (body : String) : PageSource Unit :=
  ⟨fun _ _ s => (.answered false (Client.interpret (some ⟨200, body⟩)), s)⟩

theorem answering_isClient (body : String) : IsClient (answering body) := by
  intro address cursor feed stopping result feed' h
  rcases Prod.mk.inj h with ⟨hreply, -⟩
  rcases Reply.answered.inj hreply with ⟨-, rfl⟩
  exact ⟨_, rfl⟩

def notedBody : String :=
  "\x7b\"history_list\":[\x7b\"id\":\"1\",\"chain\":\"eth\",\"time_at\":0.1," ++
    "\"memo\":\x7b\"note\":[1,\"\\n\"]\x7d\x7d]\x7d"

def unstored : Shared Unit := ⟨Store.empty, [], 0, [], false, ()⟩

/-- A run that has stored the item of its first page and not yet asked for the next one. -/
def halfway : Pool Unit SyncResult :=
  (runsPool [("0xab", .catchUp)] 1 unstored).run (answering notedBody)
    (List.replicate 4 (.call 0))

theorem halfway_store :
    halfway.shared.store.isOpen = true ∧ halfway.shared.store.events.length = 1 := by
  rw [halfway, runsPool, List.map_singleton, syncAddress, pageFrom]
  decide +kernel

/-- The item of the page is stored and read while the run goes on. -/
theorem payloads_read_back_halfway :
    IsClient (answering notedBody) ∧
    (∃ page, Page.ofText notedBody = .ok page ∧ page.items.length = 1 ∧
      ∀ i ∈ page.items, Item.ofText i.encode = .ok i) ∧
    ∃ new : List Event, new.length = 1 ∧ (∀ e ∈ new, (Row.ofEvent e).toEvent = .ok e) ∧
      halfway.shared.store.fetchEvents ⟨["0xab"], none, true⟩ 0 10 =
        .ok (eventWindow new ⟨["0xab"], none, true⟩ 0 10) := by
  have hclient := answering_isClient notedBody
  obtain ⟨hitems, new, hnew, hevents, hfetch⟩ := payloads_read_back (answering notedBody) hclient
    unstored [] rfl (by simp) [("0xab", .catchUp)] 1 (List.replicate 4 (.call 0))
  rcases halfway_store with ⟨hopen, hlength⟩
  refine ⟨hclient, ?_, new, ?_, fun e he => (hnew e he).2, ?_⟩
  · have hpage : (Page.ofText notedBody).toOption.map (·.items.length) = some 1 := by
      decide +kernel
    cases hbody : Page.ofText notedBody with
    | error fault =>
      rw [hbody] at hpage
      cases hpage
    | ok page =>
      rw [hbody] at hpage
      exact ⟨page, rfl, Option.some.inj hpage, hitems notedBody page hbody⟩
  · rw [halfway, hevents] at hlength
    simpa using hlength
  · have hroom : ¬ ((["0xab"] : List String).isEmpty = true ∨ (10 : Int) ≤ 0) := by decide
    rw [halfway, hfetch, if_neg hroom, ← halfway, Store.whenOpen, hopen]
    rfl

end AddressLedger.Sync
