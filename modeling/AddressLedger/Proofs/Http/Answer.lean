import AddressLedger.Http.Router

/-!
# What an answer is made of

The ways that a request takes through the routes, followed once: what holds of a finished answer, of
the three things that the service does for a request, and of each of these with another dress of its
answer, holds of the answer to every request.
-/
namespace AddressLedger.Http
open History Service Sync

variable {P : Procedure Response → Prop}

section
variable (hdone : ∀ response, P (.done response))
include hdone

theorem answerSync_cases
    (hsync : ∀ addresses mode (report : List SyncResult → Json),
      P (syncAll addresses mode >>= fun results => .done (.ofJson 200 (report results))))
    (r : Request) : P (answerSync r) := by
  rw [answerSync]
  split
  · exact hdone _
  · exact hsync _ _ fun results => .object [("results", .array (results.map SyncResult.toJson))]

theorem answerReadable_cases
    (hread : ∀ request (respond : Except Store.StoreError (List Transaction) → Procedure Response),
      (∀ result, ∃ response, respond result = .done response) →
        P ((readHistory request).run >>= respond))
    (r : Request) : P (answerReadable r) := by
  rw [answerReadable]
  split
  · exact hdone _
  · exact hread _ _ fun result => by cases result <;> exact ⟨_, rfl⟩

variable
  (hdress : ∀ p (dress : Response → Response),
    (∀ response, (dress response).isSuccess = response.isSuccess) → P p →
      P (p >>= fun response => .done (dress response)))
include hdress

/-- A request is answered at once, or by the route that it takes. -/
theorem answer_cases
    (hsync : ∀ addresses mode (report : List SyncResult → Json),
      P (syncAll addresses mode >>= fun results => .done (.ofJson 200 (report results))))
    (hread : ∀ request (respond : Except Store.StoreError (List Transaction) → Procedure Response),
      (∀ result, ∃ response, respond result = .done response) →
        P ((readHistory request).run >>= respond))
    (hinvalidate : P answerInvalidate) (r : Request) : P (answer r) := by
  have hroute : ∀ route : Route, P (route.answer r) := by
    intro route
    cases route with rw [Route.answer]
    | sync => exact answerSync_cases hdone hsync r
    | readable => exact answerReadable_cases hdone hread r
    | invalidate => exact hinvalidate
  refine hdress _ _ (fun _ => rfl) ?_
  rw [answerByPath]
  split
  · rw [Route.answerByMethod]
    split
    · exact hdone _
    · split
      · exact hdone _
      · exact hdress _ _ (fun response => by split <;> rfl) (hroute _)
  · exact hdone _

end

end AddressLedger.Http
