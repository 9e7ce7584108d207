import SpiderSearch.WakeUp

namespace SpiderSearch.Delivery

open DoWork Runs WakeUp

variable {m n : Nat} {T : Type}

/-- The way of a work: a producer hands it over and puts it into the queue, a consumer takes it out
and returns with it. -/
inductive Event (m n : Nat) (T : Type) where
  | called (i : Fin m) (work : T)
  | enqueued (i : Fin m) (work : T)
  | dequeued (j : Fin n) (work : T)
  | returned (j : Fin n) (work : T)

def pushEvents (i : Fin m) : PushPc T → List (Event m n T)
  | .lock work => [.enqueued i work]
  | .idle | .leave => []

def popEvents (j : Fin n) (works : List T) : PopPc T → List (Event m n T)
  | .lock =>
    match SafeQueue.pop works with
    | none => []
    | some (work, _) => [.dequeued j work]
  | .leave work => [.returned j work]
  | .idle | .wait => []

def events (s : Threads m n T) : Act m n T → List (Event m n T)
  | .call i work => [.called i work]
  | .push i => pushEvents i (s.push i)
  | .pop j => popEvents j s.works (s.pop j)

namespace Event

def calledBy (i : Fin m) : Event m n T → Option T
  | .called k work => if k = i then some work else none
  | _ => none

def enqueuedBy (i : Fin m) : Event m n T → Option T
  | .enqueued k work => if k = i then some work else none
  | _ => none

def enqueuedWork : Event m n T → Option T
  | .enqueued _ work => some work
  | _ => none

def dequeuedWork : Event m n T → Option T
  | .dequeued _ work => some work
  | _ => none

def dequeuedBy (j : Fin n) : Event m n T → Option T
  | .dequeued k work => if k = j then some work else none
  | _ => none

def returnedTo (j : Fin n) : Event m n T → Option T
  | .returned k work => if k = j then some work else none
  | _ => none

end Event

open Event

/-- The work a producer is about to put into the queue. -/
def pushHand : PushPc T → List T
  | .lock work => [work]
  | .idle | .leave => []

/-- The work a consumer has taken out and not yet returned with. -/
def popHand : PopPc T → List T
  | .leave work => [work]
  | .idle | .lock | .wait => []

/-- Nothing is lost, doubled or reordered on the way from the producers to the consumers. -/
structure InOrder (s : Threads m n T) (es : List (Event m n T)) : Prop where
  handed : ∀ i, es.filterMap (calledBy i) = es.filterMap (enqueuedBy i) ++ pushHand (s.push i)
  queued : es.filterMap enqueuedWork = es.filterMap dequeuedWork ++ s.works
  taken : ∀ j, es.filterMap (dequeuedBy j) = es.filterMap (returnedTo j) ++ popHand (s.pop j)

theorem inOrder_initial : InOrder (.initial m n T) [] :=
  ⟨fun _ => rfl, rfl, fun _ => rfl⟩

theorem handed_step {s t : Threads m n T} {a : Act m n T} {es : List (Event m n T)} (i : Fin m)
    (hi : es.filterMap (calledBy i) = es.filterMap (enqueuedBy i) ++ pushHand (s.push i))
    (h : ThreadStep s a t) :
    (es ++ events s a).filterMap (calledBy i) =
      (es ++ events s a).filterMap (enqueuedBy i) ++ pushHand (t.push i) := by
  rw [List.filterMap_append, List.filterMap_append, hi]
  cases h with
  | call k work h | push k work h | pushed k h =>
    by_cases hk : k = i
    · subst hk
      simp [events, pushEvents, calledBy, enqueuedBy, pushHand, Threads.pushTo, h]
    · simp [events, pushEvents, calledBy, enqueuedBy, Threads.pushTo, h, hk,
        Function.update_of_ne (Ne.symm hk)]
  | enter j h | sleep j h hw | pop j work works h hw | wake j h | popped j work h =>
    simp [events, popEvents, calledBy, enqueuedBy, Threads.popTo, SafeQueue.pop,
      List.filterMap_cons, *]

theorem queued_step {s t : Threads m n T} {a : Act m n T} {es : List (Event m n T)}
    (hi : es.filterMap enqueuedWork = es.filterMap dequeuedWork ++ s.works)
    (h : ThreadStep s a t) :
    (es ++ events s a).filterMap enqueuedWork =
      (es ++ events s a).filterMap dequeuedWork ++ t.works := by
  rw [List.filterMap_append, List.filterMap_append, hi]
  cases h with
  | call i work h | push i work h | pushed i h =>
    simp [events, pushEvents, enqueuedWork, dequeuedWork, Threads.pushTo, List.filterMap_cons, h]
  | enter j h | sleep j h hw | pop j work works h hw | wake j h | popped j work h =>
    simp [events, popEvents, enqueuedWork, dequeuedWork, Threads.popTo, SafeQueue.pop,
      List.filterMap_cons, *]

theorem taken_step {s t : Threads m n T} {a : Act m n T} {es : List (Event m n T)} (j : Fin n)
    (hi : es.filterMap (dequeuedBy j) = es.filterMap (returnedTo j) ++ popHand (s.pop j))
    (h : ThreadStep s a t) :
    (es ++ events s a).filterMap (dequeuedBy j) =
      (es ++ events s a).filterMap (returnedTo j) ++ popHand (t.pop j) := by
  rw [List.filterMap_append, List.filterMap_append, hi]
  cases h with
  | call i work h | push i work h | pushed i h =>
    simp [events, pushEvents, dequeuedBy, returnedTo, Threads.pushTo, List.filterMap_cons, h]
  | enter k h | sleep k h hw | pop k work works h hw | wake k h | popped k work h =>
    by_cases hk : k = j
    · subst hk
      simp [events, popEvents, dequeuedBy, returnedTo, popHand, Threads.popTo, SafeQueue.pop, *]
    · simp [events, popEvents, dequeuedBy, returnedTo, Threads.popTo, SafeQueue.pop,
        Function.update_of_ne (Ne.symm hk), *]

theorem inOrder_step {s t : Threads m n T} {a : Act m n T} {es : List (Event m n T)}
    (hi : InOrder s es) (h : ThreadStep s a t) : InOrder t (es ++ events s a) where
  handed i := handed_step i (hi.handed i) h
  queued := queued_step hi.queued h
  taken j := taken_step j (hi.taken j) h

/-- However producers and consumers are interleaved, every producer's works enter the queue in the
order of its calls, they leave it in the order in which they entered it, each for one consumer, and
that consumer returns with it. -/
theorem delivered_in_order (m n : Nat) (T : Type) (as : List (Act m n T)) (s : Threads m n T)
    (h : run step (.initial m n T) as = some s) :
    InOrder s (record step events (.initial m n T) as) :=
  run_recorded (fun _ _ _ _ hi hst => inOrder_step hi (step_cases hst)) inOrder_initial h

theorem inTime_delivered : ∃ s : Threads 1 1 Nat, s.works = [] ∧ s.pop lone = .idle ∧
    InOrder s (record step events (.initial 1 1 Nat) inTime) :=
  ⟨_, rfl, rfl, delivered_in_order 1 1 Nat inTime _ rfl⟩

end SpiderSearch.Delivery
