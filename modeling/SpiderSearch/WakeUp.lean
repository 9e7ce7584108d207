import Mathlib.Data.Fintype.Basic
import Mathlib.Data.List.FinRange
import SpiderSearch.DoWork
import SpiderSearch.Runs

namespace SpiderSearch.WakeUp

open DoWork Runs

variable {m n : Nat} {T : Type}

/-- Where a producer stands in `push`. -/
inductive PushPc (T : Type) where
  | idle
  | lock (work : T)
  | leave
  deriving DecidableEq

/-- Where a consumer stands in `pop`; `wait` is its sleep in `cond_var.wait`. -/
inductive PopPc (T : Type) where
  | idle
  | lock
  | wait
  | leave (work : T)
  deriving DecidableEq

/-- `m` producers and `n` consumers of one `Safe_Queue`. `notified` are the consumers with a
wake-up pending. -/
structure Threads (m n : Nat) (T : Type) where
  works : List T
  notified : Fin n → Bool
  push : Fin m → PushPc T
  pop : Fin n → PopPc T

inductive Act (m n : Nat) (T : Type) where
  | call (i : Fin m) (work : T)
  | push (i : Fin m)
  | pop (j : Fin n)
  deriving DecidableEq

def Threads.initial (m n : Nat) (T : Type) : Threads m n T :=
  ⟨[], fun _ => false, fun _ => .idle, fun _ => .idle⟩

def Threads.pushTo (s : Threads m n T) (i : Fin m) (p : PushPc T) : Threads m n T :=
  { s with push := Function.update s.push i p }

def Threads.popTo (s : Threads m n T) (j : Fin n) (p : PopPc T) : Threads m n T :=
  { s with pop := Function.update s.pop j p }

/-- The critical section of `push` is its only effect: no member function calls `notify_one` or
`notify_all`. -/
def pushStep (s : Threads m n T) (i : Fin m) : Option (Threads m n T) :=
  match s.push i with
  | .idle => none
  | .lock work => some { s.pushTo i .leave with works := SafeQueue.push s.works work }
  | .leave => some (s.pushTo i .idle)

/-- `wait` tests its predicate first under the mutex and again after every wake-up. -/
def popStep (s : Threads m n T) (j : Fin n) : Option (Threads m n T) :=
  match s.pop j with
  | .idle => some (s.popTo j .lock)
  | .lock =>
    match SafeQueue.pop s.works with
    | none => some (s.popTo j .wait)
    | some (work, works) => some { s.popTo j (.leave work) with works := works }
  | .wait =>
    if s.notified j then
      some { s.popTo j .lock with notified := Function.update s.notified j false }
    else none
  | .leave _ => some (s.popTo j .idle)

def step (s : Threads m n T) (a : Act m n T) : Option (Threads m n T) :=
  match a with
  | .call i work =>
    match s.push i with
    | .idle => some (s.pushTo i (.lock work))
    | _ => none
  | .push i => pushStep s i
  | .pop j => popStep s j

inductive ThreadStep (s : Threads m n T) : Act m n T → Threads m n T → Prop
  | call (i : Fin m) (work : T) (h : s.push i = .idle) :
      ThreadStep s (.call i work) (s.pushTo i (.lock work))
  | push (i : Fin m) (work : T) (h : s.push i = .lock work) :
      ThreadStep s (.push i) { s.pushTo i .leave with works := s.works ++ [work] }
  | pushed (i : Fin m) (h : s.push i = .leave) : ThreadStep s (.push i) (s.pushTo i .idle)
  | enter (j : Fin n) (h : s.pop j = .idle) : ThreadStep s (.pop j) (s.popTo j .lock)
  | sleep (j : Fin n) (h : s.pop j = .lock) (hw : s.works = []) :
      ThreadStep s (.pop j) (s.popTo j .wait)
  | pop (j : Fin n) (work : T) (works : List T) (h : s.pop j = .lock) (hw : s.works = work :: works) :
      ThreadStep s (.pop j) { s.popTo j (.leave work) with works := works }
  | wake (j : Fin n) (h : s.pop j = .wait) (hn : s.notified j = true) :
      ThreadStep s (.pop j) { s.popTo j .lock with notified := Function.update s.notified j false }
  | popped (j : Fin n) (work : T) (h : s.pop j = .leave work) :
      ThreadStep s (.pop j) (s.popTo j .idle)

theorem step_cases {s t : Threads m n T} {a : Act m n T} (h : step s a = some t) :
    ThreadStep s a t := by
  cases a with
  | call i work =>
    rw [step] at h
    cases hi : s.push i with
    | idle =>
      rw [hi] at h
      cases h
      exact .call i work hi
    | _ => simp [hi] at h
  | push i =>
    rw [step, pushStep] at h
    cases hi : s.push i with
    | idle => simp [hi] at h
    | lock work =>
      rw [hi] at h
      cases h
      exact .push i work hi
    | leave =>
      rw [hi] at h
      cases h
      exact .pushed i hi
  | pop j =>
    rw [step, popStep] at h
    cases hj : s.pop j with
    | idle =>
      rw [hj] at h
      cases h
      exact .enter j hj
    | lock =>
      rw [hj] at h
      cases hw : s.works with
      | nil =>
        simp only [hw, SafeQueue.pop, Option.some.injEq] at h
        exact h ▸ .sleep j hj hw
      | cons work works =>
        simp only [hw, SafeQueue.pop, Option.some.injEq] at h
        exact h ▸ .pop j work works hj hw
    | wait =>
      simp only [hj] at h
      split_ifs at h with hn
      cases h
      exact .wake j hj hn
    | leave work =>
      rw [hj] at h
      cases h
      exact .popped j work hj

/-- All pushes have returned, and yet a consumer sleeps over a queue that is not empty while no
sleeper has a wake-up coming. -/
def Threads.Lost (s : Threads m n T) : Prop :=
  (∀ i, s.push i = .idle) ∧ s.works ≠ [] ∧ (∃ j, s.pop j = .wait) ∧
    ∀ j, s.pop j = .wait → s.notified j = false

/-- The thread is about to run the critical section of `push`. -/
def PushPc.locks : PushPc T → Bool
  | .lock _ => true
  | _ => false

/-- No consumer sleeps while a work is put into the queue. -/
def Unawaited (s : Threads m n T) (a : Act m n T) : Prop :=
  ∀ i, a = .push i → (s.push i).locks = true → ∀ j, s.pop j ≠ .wait

instance [DecidableEq T] (s : Threads m n T) (a : Act m n T) : Decidable (Unawaited s a) :=
  inferInstanceAs (Decidable (∀ i, a = .push i → (s.push i).locks = true → ∀ j, s.pop j ≠ .wait))

theorem wait_of_popTo {s : Threads m n T} {j k : Fin n} {p : PopPc T} (hp : p ≠ .wait)
    (h : (s.popTo j p).pop k = .wait) : s.pop k = .wait := by
  by_cases hk : k = j
  · subst hk
    simp only [Threads.popTo, Function.update_self] at h
    exact absurd h hp
  · simpa only [Threads.popTo, Function.update_of_ne hk] using h

/-- Consumers sleep over an empty queue only. -/
theorem empty_step {s t : Threads m n T} {a : Act m n T}
    (hi : ∀ j, s.pop j = .wait → s.works = []) (hp : Unawaited s a) (h : ThreadStep s a t) :
    ∀ j, t.pop j = .wait → t.works = [] := by
  intro k hk
  cases h with
  | call i work h => exact hi k hk
  | push i work h => exact absurd hk (hp i rfl (by rw [h]; rfl) k)
  | pushed i h => exact hi k hk
  | enter j h => exact hi k (wait_of_popTo (by simp) hk)
  | sleep j h hw => exact hw
  | pop j work works h hw =>
    have hwait : s.pop k = .wait := wait_of_popTo (p := .leave work) (by simp) hk
    rw [hi k hwait] at hw
    cases hw
  | wake j h hn => exact hi j h
  | popped j work h => exact hi k (wait_of_popTo (by simp) hk)

theorem notified_run {as : List (Act m n T)} {s : Threads m n T}
    (h : run step (.initial m n T) as = some s) : ∀ j, s.notified j = false := by
  refine run_invariant (I := fun s : Threads m n T => ∀ j, s.notified j = false) ?_
    (fun _ => rfl) h
  intro s a t hi hs
  cases step_cases hs with
  | wake j h hn => simp [hi j] at hn
  | _ => exact hi

/-- A push in progress can be brought to its end, whatever the consumers do. -/
theorem push_returns (s : Threads m n T) (i : Fin m) :
    ∃ bs t, run step s bs = some t ∧ (∀ k, t.push k = if k = i then .idle else s.push k) ∧
      t.pop = s.pop ∧ t.notified = s.notified ∧ (s.works ≠ [] → t.works ≠ []) := by
  have hpush : ∀ (p : PushPc T) k, (s.pushTo i p).push k = if k = i then p else s.push k :=
    fun p k => Function.update_apply s.push i p k
  cases hi : s.push i with
  | idle =>
    refine ⟨[], s, rfl, fun k => ?_, rfl, rfl, id⟩
    split_ifs with hk
    · rw [hk, hi]
    · rfl
  | lock work =>
    refine ⟨[.push i, .push i], { s.pushTo i .idle with works := s.works ++ [work] }, ?_, hpush .idle,
      rfl, rfl, fun _ => by simp⟩
    simp [step, pushStep, hi, Threads.pushTo, SafeQueue.push]
  | leave =>
    refine ⟨[.push i], s.pushTo i .idle, ?_, hpush .idle, rfl, rfl, id⟩
    simp [step, pushStep, hi]

theorem pushes_return (s : Threads m n T) (is : List (Fin m)) :
    ∃ bs t, run step s bs = some t ∧ (∀ k, t.push k = if k ∈ is then .idle else s.push k) ∧
      t.pop = s.pop ∧ t.notified = s.notified ∧ (s.works ≠ [] → t.works ≠ []) := by
  induction is generalizing s with
  | nil => exact ⟨[], s, rfl, fun k => by simp, rfl, rfl, id⟩
  | cons i is ih =>
    obtain ⟨bs, t, hb, hpush, hpop, hn, hw⟩ := push_returns s i
    obtain ⟨cs, u, hc, hpush', hpop', hn', hw'⟩ := ih t
    refine ⟨bs ++ cs, u, by rw [run_append, hb, Option.bind_some, hc], fun k => ?_,
      hpop'.trans hpop, hn'.trans hn, fun h => hw' (hw h)⟩
    rw [hpush', hpush]
    by_cases hk : k = i <;> simp [hk]

/-- No wake-up is lost as long as nothing is pushed while a consumer sleeps, and every such push
leads to a lost one. -/
theorem no_lost_wakeup (m n : Nat) (T : Type) (as : List (Act m n T)) (s : Threads m n T)
    (h : run step (.initial m n T) as = some s) :
    (Along step Unawaited (.initial m n T) as →
      Always step (fun t => ¬ t.Lost) (.initial m n T) as) ∧
    ∀ a t, step s a = some t → ¬ Unawaited s a → ∃ bs u, run step t bs = some u ∧ u.Lost := by
  apply And.intro
  · intro hp
    refine always_of_along (I := fun t => ∀ j, t.pop j = .wait → t.works = []) ?_ ?_ nofun hp
    · exact fun s a t hi hu hs => empty_step hi hu (step_cases hs)
    · rintro t hi ⟨-, hw, ⟨j, hj⟩, -⟩
      exact hw (hi j hj)
  · intro a t hs hu
    simp only [Unawaited, not_forall, not_not] at hu
    obtain ⟨i, rfl, hl, j, hj⟩ := hu
    obtain ⟨work, hi⟩ : ∃ work, s.push i = .lock work := by
      cases hi : s.push i with
      | lock work => exact ⟨work, rfl⟩
      | _ => simp [hi, PushPc.locks] at hl
    obtain ⟨bs, u, hb, hpush, hpop, hn, hw⟩ := pushes_return t (List.finRange m)
    have ht : t = { s.pushTo i .leave with works := s.works ++ [work] } := by
      simp only [step, pushStep, hi, Option.some.injEq] at hs
      exact hs.symm
    have hnot : ∀ k, u.notified k = false := by
      have hs' := notified_run h
      rw [hn, ht]
      exact hs'
    refine ⟨bs, u, hb, fun k => ?_, hw (by simp [ht]), ⟨j, ?_⟩, fun k _ => hnot k⟩
    · rw [hpush, if_pos (List.mem_finRange k)]
    · rw [hpop, ht]
      exact hj

def lone : Fin 1 := ⟨0, Nat.one_pos⟩

def sender : Act 1 1 Nat := .push lone

def receiver : Act 1 1 Nat := .pop lone

/-- The push comes first and the consumer never sleeps. -/
def inTime : List (Act 1 1 Nat) := [.call lone 7, sender, sender, receiver, receiver, receiver]

theorem inTime_kept : Always step (fun t => ¬ t.Lost) (.initial 1 1 Nat) inTime :=
  (no_lost_wakeup 1 1 Nat inTime _ rfl).1 (by decide)

/-- The consumer goes to sleep on the empty queue and the push leaves it there. -/
def tooLate : List (Act 1 1 Nat) := [receiver, receiver, .call lone 7, sender, sender]

theorem wakeup_lost :
    ¬ ∀ (m n : Nat) (T : Type) (as : List (Act m n T)) (s : Threads m n T),
      run step (.initial m n T) as = some s → ¬ s.Lost := by
  intro h
  refine h 1 1 Nat tooLate _ rfl ⟨?_, nofun, ⟨0, rfl⟩, fun _ _ => rfl⟩
  decide

end SpiderSearch.WakeUp
