import AddressLedger.Proofs.History.Looking
import AddressLedger.Proofs.Http.Answer
import AddressLedger.Proofs.Text.Addresses

/-!
# Refused requests

A request is checked completely before anything is done. What is then done either ends with an
answer of success, as a sync does whatever becomes of its runs, or writes nothing, as a read does
even if the store fails in the middle of it. So a request that is answered otherwise than with
success leaves the store and the feed as they were.
-/
namespace AddressLedger.Service

variable {α β : Type} {post : β → Prop}

/-- Whether a procedure ends with a result of a kind, whatever it is answered. -/
def Procedure.Returns (post : α → Prop) : Procedure α → Prop
  | done result => post result
  | access _ next => ∀ answer, (next answer).Returns post

namespace Procedure

theorem Returns.bind {mid : α → Prop} {p : Procedure α} {k : α → Procedure β}
    (hp : p.Returns mid) (hk : ∀ result, mid result → (k result).Returns post) :
    (p >>= k).Returns post := by
  induction p with
  | done result => exact hk result hp
  | access a next ih => exact fun answer => ih answer (hp answer)

theorem returns_true (p : Procedure α) : p.Returns fun _ => True := by
  induction p with
  | done result => trivial
  | access a next ih => exact ih

theorem Returns.run {σ : Type} {post : α → Prop} {p : Procedure α} (h : p.Returns post)
    (perform : (a : Access) → σ → a.Answer × σ) (s : σ) : post (p.run perform s).1 := by
  induction p generalizing s with
  | done result => exact h
  | access a next ih => exact ih _ (h _) _

end Procedure

end AddressLedger.Service

namespace AddressLedger.Http
open History Service Sync

variable {r : Request} {p : Procedure Response}

/-- Whether a procedure ends with success, or else comes to write nothing, whatever it is
answered. -/
def SucceedsOrReads (p : Procedure Response) : Prop :=
  p.Returns (fun response => response.isSuccess = true) ∨ p.Within LeavesData

namespace SucceedsOrReads

theorem done (response : Response) : SucceedsOrReads (.done response) := .inr trivial

theorem map (h : SucceedsOrReads p) {f : Response → Response}
    (hf : ∀ response, (f response).isSuccess = response.isSuccess) :
    SucceedsOrReads (p >>= fun response => .done (f response)) := by
  refine h.imp (fun hp => ?_) fun hp => hp.bind fun _ => trivial
  exact hp.bind fun response hresponse => (hf response).trans hresponse

theorem answer (r : Request) : SucceedsOrReads (Http.answer r) := by
  refine answer_cases done (fun p dress hdress h => h.map hdress) (fun addresses mode report => ?_)
    (fun request respond hrespond => ?_) (.inl fun _ _ => rfl) r
  · exact .inl ((Procedure.returns_true _).bind fun results _ => rfl)
  · refine .inr ((readHistory_leavesData _).bind fun result => ?_)
    obtain ⟨response, hresponse⟩ := hrespond result
    rw [hresponse]
    trivial

/-- A request that is answered without success has come to write nothing. -/
theorem within_of_not_isSuccess (h : SucceedsOrReads p) {σ : Type}
    {perform : (a : Access) → σ → a.Answer × σ} {s : σ}
    (hfails : (p.run perform s).1.isSuccess = false) : p.Within LeavesData := by
  refine h.resolve_left fun hsucceeds => ?_
  simp [hsucceeds.run perform s] at hfails

end SucceedsOrReads

theorem isSuccess_inputErrorResponse (e : InputError) :
    (inputErrorResponse e).isSuccess = false := by
  cases e <;> rfl

/-- One bad address is enough for the request to be refused. -/
theorem readSyncRequest_of_bad {request : SyncRequest} {a : String}
    (hbody : SyncRequest.ofText r.body = .ok request) (ha : a ∈ request.addresses)
    (hbad : checkAddress a ≠ .ok ()) :
    ∃ response, readSyncRequest r = .error response ∧ response.isSuccess = false := by
  have hne : request.addresses ≠ [] := List.ne_nil_of_mem ha
  obtain ⟨e, hchecks⟩ : ∃ e, request.addresses.forM checkAddress = .error e := by
    cases hchecks : request.addresses.forM checkAddress with
    | error e => exact ⟨e, rfl⟩
    | ok _ => exact absurd (forM_eq_ok_iff.1 hchecks a ha) hbad
  rw [readSyncRequest, hbody]
  split
  · exact ⟨_, rfl, rfl⟩
  · split
    · exact ⟨_, rfl, rfl⟩
    · exact ⟨inputErrorResponse e, by simp [hne, hchecks], isSuccess_inputErrorResponse e⟩

theorem answer_of_refused {response : Response} (hmethod : r.method = "POST")
    (hpath : r.path = "/history/sync") (h : readSyncRequest r = .error response) :
    answer r = .done (response.withHeader "access-control-allow-origin" "*") := by
  have hroute : Route.ofPath? r.path = some .sync := by rw [hpath]; rfl
  simp [answer, answerByPath, hroute, Route.answerByMethod, hmethod, Route.methods, Route.answer,
    answerSync, h]

-- from here on an answer is known by its cases and by what refuses it; it is not to be unfolded
attribute [local irreducible] answer

/-- A request that is answered otherwise than with success writes nothing to the store and asks the
feed for nothing, whatever it is answered on the way, be it that the store fails or that other calls
are under way; so alone it leaves both as they were. A sync of a list in which one address is bad is
refused so, with nothing done for the others. -/
theorem refused_requests_change_nothing (r : Request) :
    (∀ {σ : Type} (perform : (a : Access) → σ → a.Answer × σ) (s : σ),
      ((answer r).run perform s).1.isSuccess = false →
        ∀ made ∈ (answer r).trace perform s, LeavesData made.access) ∧
    (∀ {φ : Type} (source : PageSource φ) (s : Shared φ),
      (s.exec source (answer r)).1.isSuccess = false →
        (s.exec source (answer r)).2.store = s.store ∧
        (s.exec source (answer r)).2.feed = s.feed) ∧
    (r.method = "POST" → r.path = "/history/sync" →
      ∀ request, SyncRequest.ofText r.body = .ok request →
      (∃ a ∈ request.addresses, checkAddress a ≠ .ok ()) →
        ∀ {φ : Type} (source : PageSource φ) (s : Shared φ),
          (s.exec source (answer r)).1.isSuccess = false ∧ (s.exec source (answer r)).2 = s) := by
  have hanswer := SucceedsOrReads.answer r
  refine ⟨fun perform s hfails made hmade => ?_, fun source s hfails => ?_, ?_⟩
  · have hreads := hanswer.within_of_not_isSuccess hfails
    exact hreads.mem_trace hmade
  · have hreads := hanswer.within_of_not_isSuccess hfails
    exact Shared.exec_of_leavesData source hreads s
  · rintro hmethod hpath request hbody ⟨a, ha, hbad⟩ φ source s
    obtain ⟨response, hrefused, hfails⟩ := readSyncRequest_of_bad hbody ha hbad
    rw [answer_of_refused hmethod hpath hrefused]
    exact ⟨hfails, rfl⟩

def ownedAddress : String := "0x1111111111111111111111111111111111111111"

def readOfOne : Request :=
  ⟨"GET", "/history/readable?limit=1&addresses=" ++ ownedAddress, [], ""⟩

def syncWithShort : Request :=
  ⟨"POST", "/history/sync", [("content-type", "application/json")],
    "\x7b\"addresses\":[\"" ++ ownedAddress ++ "\",\"0x1\",\"" ++ ownedAddress ++ "\"]\x7d"⟩

def closedState : Shared Unit := ⟨{ Store.empty with isOpen := false }, [], 0, [], false, ()⟩

theorem readOfOne_fails : (closedState.exec noPages (answer readOfOne)).1.isSuccess = false := by
  decide +kernel

/-- The read fails with the store, and the sync of the list is refused whatever the state is. -/
theorem readOfOne_and_syncWithShort_change_nothing :
    (closedState.exec noPages (answer readOfOne)).1.isSuccess = false ∧
    (∀ made ∈ (answer readOfOne).trace (Shared.perform noPages) closedState,
      LeavesData made.access) ∧
    (closedState.exec noPages (answer readOfOne)).2.store = closedState.store ∧
    ∀ {φ : Type} (source : PageSource φ) (s : Shared φ),
      (s.exec source (answer syncWithShort)).1.isSuccess = false ∧
      (s.exec source (answer syncWithShort)).2 = s := by
  obtain ⟨hmade, hdata, -⟩ := refused_requests_change_nothing readOfOne
  obtain ⟨-, -, hlist⟩ := refused_requests_change_nothing syncWithShort
  have hbody : SyncRequest.ofText syncWithShort.body =
      .ok ⟨[ownedAddress, "0x1", ownedAddress], .catchUp⟩ := by
    decide +kernel
  have hshort : checkAddress "0x1" ≠ .ok () := by decide +kernel
  refine ⟨readOfOne_fails, hmade _ _ readOfOne_fails, (hdata _ _ readOfOne_fails).1,
    fun source s => ?_⟩
  exact hlist rfl (by decide +kernel) _ hbody ⟨"0x1", by simp, hshort⟩ source s

end AddressLedger.Http
