import Mathlib.Algebra.GroupWithZero.Nat
import Mathlib.Order.WellFounded
import SpiderSearch.Runs
import SpiderSearch.Serving

namespace SpiderSearch.Sessions

open CppTypes DbClient Runs Triples Serving
open HttpServer (Request Response Failure)

variable {ε : Type}

/-- One `HTTP_Server`. `reading`, `writing` and `waiting` say which handlers of `async_read`,
`async_write` and `async_wait` have not run yet; they hold its `self`. `request` is kept with the
database that answered it, `late` is whether the socket was closed before the write began, and `sent`
whether the write succeeded, once it is over. -/
structure Session (ε : Type) where
  request : Option (Request × (Str → Except ε (StdMap Int)))
  connection : Connection
  reading : Bool
  writing : Bool
  waiting : Bool
  late : Bool
  sent : Option Bool
  shutdown_send : Bool
  cancelled : Bool
  expired : Bool
  closed : Bool

/-- `start()`. -/
def Session.start : Session ε :=
  ⟨none, .initial, true, false, true, false, none, false, false, false, false⟩

/-- How a pending operation ends, as its handler is told; `shut` is how the shutdown after a write
ends, which the handler does not look at. -/
inductive Completion (ε : Type) where
  | read (request : Request) (getUrl : Str → Except ε (StdMap Int))
  | readFailed
  | written (sent shut : Bool)
  | expired
  | aborted

/-- A handler that has run lets go of its `self`. The last one takes the socket with it. -/
def Session.release (c : Session ε) : Session ε :=
  if c.reading || c.writing || c.waiting then c else { c with closed := true }

/-- Handlers keep a session; without one its socket is closed. -/
@[simp] theorem release_eq (c : Session ε) : c.release =
    { c with closed := c.closed || !(c.reading || c.writing || c.waiting) } := by
  rw [Session.release]
  split <;> simp [*]

/-- A handler runs. With an error of its own it throws. -/
def Session.handle (c : Session ε) : Completion ε → Option (Session ε × Option (Failure ε))
  | .read request getUrl =>
    if c.reading then
      let r := exec (processRequest getUrl request) c.connection
      let c := { c with request := some (request, getUrl), connection := r.2, reading := false }
      match r.1 with
      | .ok _ => some ({ c with writing := true, late := c.closed }, none)
      | .error e => some (c.release, some e)
    else none
  | .readFailed => if c.reading then some (({ c with reading := false }).release, none) else none
  -- the error of the write is overwritten by that of the shutdown, and neither is looked at
  | .written sent shut =>
    if c.writing then
      some (({ c with
        writing := false
        sent := some (sent && !c.late)
        shutdown_send := shut && !c.closed
        cancelled := true }).release, none)
    else none
  | .expired =>
    if c.waiting then
      some (({ c with waiting := false, expired := true, closed := true }).release, none)
    else none
  | .aborted =>
    if c.waiting && c.cancelled then some (({ c with waiting := false }).release, none) else none

/-- The sessions in the order of their connections. `failure` is what left `ioc.run()`. -/
structure Server (ε : Type) where
  sessions : List (Session ε)
  failure : Option (Failure ε)

def Server.initial : Server ε := ⟨[], none⟩

inductive Event (ε : Type) where
  | accepted
  | acceptFailed
  | completed (i : Nat) (completion : Completion ε)

/-- The handler of `async_accept` starts the next one in any case, so that there always is one. -/
def step (s : Server ε) (e : Event ε) : Option (Server ε) :=
  match s.failure with
  | some _ => none
  | none =>
    match e with
    | .accepted => some { s with sessions := s.sessions ++ [.start] }
    | .acceptFailed => some s
    | .completed i completion =>
      match s.sessions[i]? with
      | none => none
      | some c =>
        (c.handle completion).map fun (c', failure) => ⟨s.sessions.set i c', failure⟩

/-- The cases of `handle`. -/
inductive Handled (c : Session ε) : Session ε → Option (Failure ε) → Prop
  | answered (request : Request) (getUrl : Str → Except ε (StdMap Int)) (d : Connection)
      (h : c.reading = true) (hr : exec (processRequest getUrl request) c.connection = (.ok (), d)) :
      Handled c
        { c with
          request := some (request, getUrl)
          connection := d
          reading := false
          writing := true
          late := c.closed }
        none
  | thrown (request : Request) (getUrl : Str → Except ε (StdMap Int)) (d : Connection)
      (e : Failure ε) (h : c.reading = true)
      (hr : exec (processRequest getUrl request) c.connection = (.error e, d)) :
      Handled c
        ({ c with request := some (request, getUrl), connection := d, reading := false }).release
        (some e)
  | readFailed (h : c.reading = true) : Handled c ({ c with reading := false }).release none
  | written (sent shut : Bool) (h : c.writing = true) :
      Handled c
        ({ c with
          writing := false
          sent := some (sent && !c.late)
          shutdown_send := shut && !c.closed
          cancelled := true }).release
        none
  | expired (h : c.waiting = true) :
      Handled c ({ c with waiting := false, expired := true, closed := true }).release none
  | aborted (h : c.waiting = true) (hc : c.cancelled = true) :
      Handled c ({ c with waiting := false }).release none

theorem handle_cases {c c' : Session ε} {completion : Completion ε} {failure : Option (Failure ε)}
    (h : c.handle completion = some (c', failure)) : Handled c c' failure := by
  cases completion with
  | read request getUrl =>
    simp only [Session.handle] at h
    split at h
    · rename_i hc
      generalize hr : exec (processRequest getUrl request) c.connection = r at h
      obtain ⟨a | e, d⟩ := r
      · cases h
        exact .thrown request getUrl d _ hc hr
      · cases h
        exact .answered request getUrl d hc hr
    · cases h
  | readFailed =>
    simp only [Session.handle] at h
    split at h
    · cases h
      exact .readFailed ‹_›
    · cases h
  | written sent shut =>
    simp only [Session.handle] at h
    split at h
    · cases h
      exact .written sent shut ‹_›
    · cases h
  | expired =>
    simp only [Session.handle] at h
    split at h
    · cases h
      exact .expired ‹_›
    · cases h
  | aborted =>
    simp only [Session.handle, Bool.and_eq_true] at h
    split at h
    · rename_i hc
      cases h
      exact .aborted hc.1 hc.2
    · cases h

/-- What one event does to the server. -/
inductive ServerStep (s : Server ε) : Event ε → Server ε → Prop
  | accepted : ServerStep s .accepted { s with sessions := s.sessions ++ [.start] }
  | acceptFailed : ServerStep s .acceptFailed s
  | completed (i : Nat) (completion : Completion ε) (before after : List (Session ε))
      (c c' : Session ε) (failure : Option (Failure ε)) (hs : s.sessions = before ++ c :: after)
      (h : Handled c c' failure) :
      ServerStep s (.completed i completion) ⟨before ++ c' :: after, failure⟩

theorem step_cases {s t : Server ε} {e : Event ε} (h : step s e = some t) :
    s.failure = none ∧ ServerStep s e t := by
  cases hf : s.failure with
  | some f => simp [step, hf] at h
  | none =>
    refine ⟨rfl, ?_⟩
    simp only [step, hf] at h
    cases e with
    | accepted =>
      cases h
      rw [← hf]
      exact .accepted
    | acceptFailed =>
      cases h
      exact .acceptFailed
    | completed i completion =>
      cases hc : s.sessions[i]? with
      | none => simp [hc] at h
      | some c =>
        simp only [hc, Option.map_eq_some_iff] at h
        obtain ⟨⟨c', failure⟩, hh, rfl⟩ := h
        obtain ⟨hi, rfl⟩ := List.getElem?_eq_some_iff.mp hc
        rw [List.set_eq_take_append_cons_drop, if_pos hi]
        refine .completed i completion _ _ s.sessions[i] c' failure ?_ (handle_cases hh)
        rw [List.getElem_cons_drop, List.take_append_drop]

/-- The one response of a session is the answer to the request that was read. -/
def Session.Answered (c : Session ε) : Prop :=
  ∃ request getUrl response, c.request = some (request, getUrl) ∧
    HttpServer.processRequest getUrl request = .ok response ∧ c.connection.written = [response]

/-- The handler of the session has thrown `e`. -/
def Session.Threw (c : Session ε) (e : Failure ε) : Prop :=
  ∃ request getUrl, c.request = some (request, getUrl) ∧
    HttpServer.processRequest getUrl request = .error e ∧ c.connection.written = []

/-- What has come of the session so far. -/
structure Progress (c : Session ε) : Prop where
  fresh : c.reading = true → c.connection = .initial ∧ c.writing = false
  unsent : c.reading = true ∨ c.writing = true → c.sent = none
  answered : c.connection.written = [] ∨ c.Answered
  written : c.connection.written ≠ [] ↔ c.writing = true ∨ c.sent.isSome = true
  late : c.sent = some true → c.late = false
  cancelled : c.cancelled = true → c.sent.isSome = true
  shutdown_send : c.shutdown_send = true → c.sent.isSome = true
  waited : c.waiting = false → c.expired = true ∨ c.sent.isSome = true
  expired : c.expired = true → c.closed = true

/-- Whatever else is pending, a session that is no longer waited for has closed its socket. -/
structure Sound (c : Session ε) : Prop extends Progress c where
  deadline : c.waiting = false → c.closed = true

theorem sound_start : Sound (.start : Session ε) where
  fresh _ := ⟨rfl, rfl⟩
  unsent _ := rfl
  answered := .inl rfl
  written := by simp [Session.start, Connection.initial]
  late := nofun
  cancelled := nofun
  shutdown_send := nofun
  waited := nofun
  expired := nofun
  deadline := nofun

/-- A session whose write is over has nothing to read or write. -/
theorem Progress.over {c : Session ε} (h : Progress c) (hs : c.sent.isSome = true) :
    c.reading = false ∧ c.writing = false := by
  have hnone : ¬ (c.reading = true ∨ c.writing = true) := by
    intro hp
    rw [h.unsent hp] at hs
    cases hs
  exact ⟨Bool.eq_false_iff.mpr fun hr => hnone (.inl hr),
    Bool.eq_false_iff.mpr fun hw => hnone (.inr hw)⟩

theorem Progress.release {c : Session ε} (h : Progress c) : Sound c.release where
  fresh := by simpa using h.fresh
  unsent := by simpa using h.unsent
  answered := by simpa [Session.Answered] using h.answered
  written := by simpa using h.written
  late := by simpa using h.late
  cancelled := by simpa using h.cancelled
  shutdown_send := by simpa using h.shutdown_send
  waited := by simpa using h.waited
  expired he := by
    rw [release_eq] at he ⊢
    simp [h.expired he]
  deadline hw := by
    rw [release_eq] at hw ⊢
    obtain he | hs := h.waited hw
    · simp [h.expired he]
    · obtain ⟨hr, hwr⟩ := h.over hs
      have hwait : c.waiting = false := hw
      simp [hr, hwr, hwait]

theorem exec_processRequest_ok {getUrl : Str → Except ε (StdMap Int)} {request : Request}
    {d : Connection} (h : exec (processRequest getUrl request) .initial = (.ok (), d)) :
    ∃ response, HttpServer.processRequest getUrl request = .ok response ∧ d.written = [response] := by
  obtain ⟨response, hr, he⟩ | ⟨e, response, -, he⟩ := exec_processRequest getUrl request
  · cases h.symm.trans he
    exact ⟨response, hr, rfl⟩
  · cases h.symm.trans he

theorem exec_processRequest_error {getUrl : Str → Except ε (StdMap Int)} {request : Request}
    {d : Connection} {e : Failure ε}
    (h : exec (processRequest getUrl request) .initial = (.error e, d)) :
    HttpServer.processRequest getUrl request = .error e ∧ d.written = [] := by
  obtain ⟨response, -, he⟩ | ⟨e', response, hr, he⟩ := exec_processRequest getUrl request
  · cases h.symm.trans he
  · cases h.symm.trans he
    exact ⟨hr, rfl⟩

theorem Handled.sound {c c' : Session ε} {failure : Option (Failure ε)} (hs : Sound c)
    (h : Handled c c' failure) : Sound c' ∧ ∀ e, failure = some e → c'.Threw e := by
  cases h with
  | answered request getUrl d h hr =>
    obtain ⟨hc, -⟩ := hs.fresh h
    rw [hc] at hr
    obtain ⟨response, ho, hd⟩ := exec_processRequest_ok hr
    refine ⟨{ hs with
      fresh := nofun
      unsent := fun _ => hs.unsent (.inl h)
      answered := .inr ⟨request, getUrl, response, rfl, ho, hd⟩
      written := by simp [hd]
      late := by simp [hs.unsent (.inl h)] }, nofun⟩
  | thrown request getUrl d e h hr =>
    obtain ⟨hc, hw⟩ := hs.fresh h
    rw [hc] at hr
    obtain ⟨ho, hd⟩ := exec_processRequest_error hr
    refine ⟨Progress.release { hs with
      fresh := nofun
      unsent := fun _ => hs.unsent (.inl h)
      answered := .inl hd
      written := by simp [hd, hw, hs.unsent (.inl h)] }, ?_⟩
    rintro e' he
    cases he
    exact ⟨request, getUrl, by simp, ho, by simpa using hd⟩
  | readFailed h =>
    exact ⟨Progress.release { hs with
      fresh := nofun
      unsent := fun _ => hs.unsent (.inl h) }, nofun⟩
  | written sent shut h =>
    have hread : c.reading ≠ true := fun hr => by simp [(hs.fresh hr).2] at h
    refine ⟨Progress.release { hs with
      fresh := fun hr => absurd hr hread
      unsent := by simp [hread]
      written := iff_of_true (hs.written.mpr (.inl h)) (.inr rfl)
      late := by simp
      cancelled := fun _ => rfl
      shutdown_send := fun _ => rfl
      waited := fun _ => .inr rfl }, nofun⟩
  | expired h =>
    exact ⟨Progress.release { hs with
      waited := fun _ => .inl rfl
      expired := fun _ => rfl }, nofun⟩
  | aborted h hc =>
    exact ⟨Progress.release { hs with waited := fun _ => .inr (hs.cancelled hc) }, nofun⟩

/-- The sessions are sound, and only the exception of one of them ends the server. -/
structure Inv (s : Server ε) : Prop where
  sessions : ∀ c ∈ s.sessions, Sound c
  failure : ∀ e, s.failure = some e → ∃ c ∈ s.sessions, c.Threw e

theorem inv_initial : Inv (.initial : Server ε) where
  sessions _ hc := absurd hc List.not_mem_nil
  failure e he := by cases he

theorem inv_step {s t : Server ε} {e : Event ε} (hi : Inv s) (h : step s e = some t) : Inv t := by
  obtain ⟨hf, hst⟩ := step_cases h
  cases hst with
  | accepted =>
    refine ⟨fun c hc => ?_, fun e he => ?_⟩
    · obtain hc | hc := List.mem_append.mp hc
      · exact hi.sessions c hc
      · obtain rfl := List.mem_singleton.mp hc
        exact sound_start
    · cases hf.symm.trans he
  | acceptFailed => exact hi
  | completed i completion before after c c' failure hs hh =>
    have hmem : ∀ d, d ∈ s.sessions ↔ d = c ∨ d ∈ before ∨ d ∈ after := by
      simp [hs, or_left_comm]
    obtain ⟨hc', hthrew⟩ := hh.sound (hi.sessions c ((hmem c).mpr (.inl rfl)))
    refine ⟨fun d hd => ?_, fun e he => ⟨c', by simp, hthrew e he⟩⟩
    obtain hd | hd := List.mem_append.mp hd
    · exact hi.sessions d ((hmem d).mpr (.inr (.inl hd)))
    · obtain rfl | hd := List.mem_cons.mp hd
      · exact hc'
      · exact hi.sessions d ((hmem d).mpr (.inr (.inr hd)))

theorem inv_run {es : List (Event ε)} {s : Server ε} (h : run step .initial es = some s) : Inv s :=
  run_invariant (fun _ _ _ hi hst => inv_step hi hst) inv_initial h

/-- Whatever the clients send and in whatever order the handlers run, a connection gets no response
but one, which answers the request that was read from it, and the server stops only with the exception
of such a request. -/
theorem connections_sound (es : List (Event ε)) (s : Server ε)
    (h : run step .initial es = some s) : Inv s :=
  inv_run h

/-- One client asks for the page with the form and gets it, another one says nothing. -/
def visitors : List (Event Unit) :=
  [.accepted, .accepted, .completed 0 (.read ⟨11, .get, str "/", []⟩ fun _ => .ok ∅),
    .completed 0 (.written true true), .completed 1 .expired, .completed 0 .aborted,
    .completed 1 .readFailed]

theorem visitors_sound : ∃ s, run step .initial visitors = some s ∧
    s.sessions.map Session.sent = [some true, none] ∧ Inv s :=
  ⟨_, rfl, rfl, connections_sound visitors _ rfl⟩

/-- The answer was sent, or its write failed, or the deadline ran out before there was one. -/
inductive Session.Outcome (c : Session ε) : Prop
  | sent (ha : c.Answered) (hs : c.sent = some true)
  | failed (ha : c.Answered) (hs : c.sent = some false)
  | unanswered (hw : c.connection.written = []) (he : c.expired = true)

/-- All handlers have run and the socket is closed. -/
structure Session.Ended (c : Session ε) : Prop where
  released : c.reading = false ∧ c.writing = false ∧ c.waiting = false
  closed : c.closed = true
  outcome : c.Outcome

theorem ended_of_released {c : Session ε} (hs : Sound c)
    (h : c.reading = false ∧ c.writing = false ∧ c.waiting = false) : c.Ended := by
  refine ⟨h, hs.deadline h.2.2, ?_⟩
  cases hc : c.sent with
  | none =>
    have hw : c.connection.written = [] := by
      by_contra hne
      simpa [h.2.1, hc] using hs.written.mp hne
    exact .unanswered hw ((hs.waited h.2.2).resolve_right (by simp [hc]))
  | some sent =>
    have ha : c.Answered := hs.answered.resolve_left (hs.written.mpr (.inr (by simp [hc])))
    cases sent with
    | false => exact .failed ha hc
    | true => exact .sent ha hc

/-- A handler that runs, once no more connections come in. -/
def handlers (s : Server ε) (a : Nat × Completion ε) : Option (Server ε) :=
  step s (.completed a.1 a.2)

/-- How many handlers may still run for the session. -/
def pending (c : Session ε) : Nat :=
  2 * c.reading.toNat + c.writing.toNat + c.waiting.toNat

theorem Handled.pending_lt {c c' : Session ε} {failure : Option (Failure ε)}
    (h : Handled c c' failure) : pending c' < pending c := by
  cases h with
  | answered request getUrl d h hr | thrown request getUrl d e h hr | readFailed h
  | written sent shut h | expired h | aborted h =>
    simp [pending, h] <;> omega

theorem handlers_descend {s t : Server ε} {a : Nat × Completion ε} (h : handlers s a = some t) :
    (t.sessions.map pending).sum < (s.sessions.map pending).sum := by
  cases (step_cases h).2 with
  | completed i completion before after c c' failure hs hh =>
    have hlt := hh.pending_lt
    simp only [hs, List.map_append, List.map_cons, List.sum_append, List.sum_cons]
    omega

/-- A server that stands still without an exception has let go of all its sessions. -/
theorem released_of_stuck {s : Server ε} (hf : s.failure = none) (h : Stuck handlers s)
    {c : Session ε} (hc : c ∈ s.sessions) :
    c.reading = false ∧ c.writing = false ∧ c.waiting = false := by
  obtain ⟨i, hi, rfl⟩ := List.getElem_of_mem hc
  have hnone : ∀ completion, s.sessions[i].handle completion = none := fun completion => by
    simpa [handlers, step, hf, hi] using h (i, completion)
  refine ⟨?_, ?_, ?_⟩
  · simpa [Session.handle] using hnone .readFailed
  · simpa [Session.handle] using hnone (.written true true)
  · simpa [Session.handle] using hnone .expired

/-- Once no more connections come in, the handlers run out. Then every connection has come to its
end, unless an exception has ended the server before. -/
theorem connections_end (es : List (Event ε)) (s : Server ε) (h : run step .initial es = some s) :
    Inevitable handlers (fun t => (∃ e, t.failure = some e) ∨ ∀ c ∈ t.sessions, c.Ended) s := by
  refine inevitable_of_descent wellFounded_lt (fun t => (t.sessions.map pending).sum)
    (fun _ _ _ hst => handlers_descend hst) fun as t hr hs => ?_
  have hi : Inv t := run_invariant (fun _ _ _ hi hst => inv_step hi hst) (inv_run h) hr
  cases hf : t.failure with
  | some e => exact .inl ⟨e, rfl⟩
  | none =>
    exact .inr fun c hc => ended_of_released (hi.sessions c hc) (released_of_stuck hf hs hc)

theorem visitors_end : ∃ s, run step .initial (visitors.take 3) = some s ∧
    Inevitable handlers (fun t => (∃ e, t.failure = some e) ∨ ∀ c ∈ t.sessions, c.Ended) s :=
  ⟨_, rfl, connections_end (visitors.take 3) _ rfl⟩

end SpiderSearch.Sessions
