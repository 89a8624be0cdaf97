import StakedChain.Proofs.Staking.Exchange

namespace StakedChain.CallQueue

inductive Event where
  | queued (response : Except CallError Bytes)
  | answered (x : Exchange)
  | unanswered (x : Exchange)

namespace Event

def supply : Event → Option (Except CallError Bytes)
  | queued response => some response
  | answered _ | unanswered _ => none

def answer : Event → Option (Except CallError Bytes)
  | answered x => some x.response
  | queued _ | unanswered _ => none

def asked : Event → Option (Request × BlockRef)
  | answered x | unanswered x => some x.asked
  | queued _ => none

-- The k-th answered request has the k-th response, and one goes without when all are gone.
def Follows (before : List Event) : Event → Prop
  | queued _ => True
  | answered x =>
    (before.filterMap supply)[(before.filterMap answer).length]? = some x.response
  | unanswered x =>
    (before.filterMap answer).length = (before.filterMap supply).length ∧
      x.response = .error (.other "no response queued")

end Event

def Fair (events : List Event) : Prop :=
  ∀ before event after, events = before ++ event :: after → event.Follows before

theorem fair_nil : Fair [] := by
  intro before event after h
  exact absurd h.symm (List.append_ne_nil_of_right_ne_nil before (List.cons_ne_nil event after))

theorem Fair.concat {events : List Event} {event : Event} (h : Fair events)
    (follows : event.Follows events) : Fair (events ++ [event]) := by
  intro before other after hsplit
  rcases List.eq_nil_or_concat after with rfl | ⟨init, last, rfl⟩
  · obtain ⟨rfl, hlast⟩ := List.append_inj' hsplit rfl
    cases hlast
    exact follows
  · rw [List.concat_eq_append, ← List.cons_append, ← List.append_assoc] at hsplit
    exact h before other init (List.append_inj' hsplit rfl).1

def logged : Caller (CallQueue × List Event) := fun request block (queue, events) =>
  let (response, rest) := call request block queue
  match queue.responses with
  | [] => (response, (rest, events ++ [.unanswered ⟨request, block, response⟩]))
  | _ :: _ => (response, (rest, events ++ [.answered ⟨request, block, response⟩]))

def pushLogged (state : CallQueue × List Event) (response : Except CallError Bytes) :
    CallQueue × List Event :=
  (state.1.push response, state.2 ++ [.queued response])

theorem logged_refines : Caller.Refines Prod.fst logged call := by
  rintro request block ⟨⟨responses, requests⟩, events⟩
  cases responses <;> rfl

structure Recorded (pushed : List (Except CallError Bytes)) (state : CallQueue × List Event) :
    Prop where
  fair : Fair state.2
  supplied : state.2.filterMap Event.supply = pushed
  responses : state.2.filterMap Event.answer ++ state.1.responses = pushed
  requests : state.2.filterMap Event.asked = state.1.requests

theorem recorded_nil : Recorded [] (empty, []) :=
  ⟨fair_nil, rfl, rfl, rfl⟩

theorem Recorded.push {pushed : List (Except CallError Bytes)} {state : CallQueue × List Event}
    (h : Recorded pushed state) (response : Except CallError Bytes) :
    Recorded (pushed ++ [response]) (pushLogged state response) := by
  obtain ⟨⟨responses, requests⟩, events⟩ := state
  obtain ⟨fair, rfl, hresponses, hrequests⟩ := h
  simp only at hresponses hrequests
  subst hrequests
  refine ⟨fair.concat trivial, ?_, ?_, ?_⟩
  · simp [pushLogged, Event.supply]
  · simp [pushLogged, CallQueue.push, List.filterMap_cons, Event.answer, ← hresponses]
  · simp [pushLogged, CallQueue.push, List.filterMap_cons, Event.asked]

theorem keeps_recorded (pushed : List (Except CallError Bytes)) :
    logged.Keeps (Recorded pushed) := by
  rintro request block ⟨⟨responses, requests⟩, events⟩ ⟨fair, rfl, hresponses, hrequests⟩
  simp only at fair hresponses hrequests
  subst hrequests
  cases responses with
  | nil =>
    refine ⟨fair.concat ⟨?_, rfl⟩, ?_, ?_, ?_⟩
    · simpa using congrArg List.length hresponses
    · simp [logged, List.filterMap_cons, Event.supply]
    · simpa [logged, call, List.filterMap_cons, Event.answer] using hresponses
    · simp [logged, call, Event.asked, Exchange.asked]
  | cons response rest =>
    refine ⟨fair.concat ?_, ?_, ?_, ?_⟩
    · have hget : (events.filterMap Event.supply)[(events.filterMap Event.answer).length]? =
          some response := by
        rw [← hresponses, List.getElem?_append_right (Nat.le_refl _), Nat.sub_self]
        rfl
      exact hget
    · simp [logged, List.filterMap_cons, Event.supply]
    · simpa [logged, call, answer, List.filterMap_cons, Event.answer] using hresponses
    · simp [logged, call, Event.asked, Exchange.asked]

end StakedChain.CallQueue
