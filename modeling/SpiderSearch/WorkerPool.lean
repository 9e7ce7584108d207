import Mathlib.Data.Fintype.Basic
import SpiderSearch.CrawlLoop

namespace SpiderSearch.WorkerPool

open CppTypes DoWork Runs

variable {σ : Type} {n : Nat}

/-- Where a worker stands. `empty` is the test `while (!queue.empty())`, `lock` the acquisition
of the crawler's mutex, `pop` the call of `queue.pop()` and `locked` what follows it. -/
inductive Pc where
  | absent
  | empty
  | lock
  | pop
  | locked (st : Stage)
  | left
  deriving DecidableEq

/-- `main` creates the workers one by one, pushes the start link and joins them one by one. -/
inductive MainPc where
  | creating (i : Nat)
  | joining (i : Nat)
  | done
  deriving DecidableEq

structure Pool (n : Nat) (σ : Type) where
  globals : Globals σ
  mutex : Option (Fin n)
  pc : Fin n → Pc
  main : MainPc

inductive Thread (n : Nat) where
  | main
  | worker (i : Fin n)
  deriving DecidableEq

def Pool.initial (n : Nat) (world : σ) : Pool n σ :=
  ⟨.initial world, none, fun _ => .absent, .creating 0⟩

def Pool.goto (s : Pool n σ) (i : Fin n) (p : Pc) : Pool n σ :=
  { s with pc := Function.update s.pc i p }

def mainStep (start : TqueueItem) (s : Pool n σ) : Option (Pool n σ) :=
  match s.main with
  | .creating k =>
    if h : k < n then some { s.goto ⟨k, h⟩ .empty with main := .creating (k + 1) }
    else some { s with globals := s.globals.push start, main := .joining 0 }
  | .joining k =>
    if h : k < n then
      if s.pc ⟨k, h⟩ = .left then some { s with main := .joining (k + 1) } else none
    else some { s with main := .done }
  | .done => none

def workerStep (env : Env σ) (s : Pool n σ) (i : Fin n) : Option (Pool n σ) :=
  match s.pc i with
  | .absent | .left => none
  | .empty => some (s.goto i (if SafeQueue.empty s.globals.queue then .left else .lock))
  | .lock =>
    match s.mutex with
    | some _ => none
    | none => some { s.goto i .pop with mutex := some i }
  | .pop => s.globals.pop.map fun (work, g) => { s.goto i (.locked (.visit work)) with globals := g }
  | .locked st =>
    match body env s.globals st with
    | (g, some st') => some { s.goto i (.locked st') with globals := g }
    | (g, none) => some { s.goto i .empty with globals := g, mutex := none }

/-- One atomic step of one thread, `none` while it is blocked and once the process has ended. -/
def step (env : Env σ) (start : TqueueItem) (s : Pool n σ) (t : Thread n) : Option (Pool n σ) :=
  if s.globals.terminated then none else
  match t with
  | .main => mainStep start s
  | .worker i => workerStep env s i

inductive PoolStep (env : Env σ) (start : TqueueItem) (s : Pool n σ) : Thread n → Pool n σ → Prop
  | create (k : Nat) (hm : s.main = .creating k) (h : k < n) :
      PoolStep env start s .main { s.goto ⟨k, h⟩ .empty with main := .creating (k + 1) }
  | seed (k : Nat) (hm : s.main = .creating k) (h : n ≤ k) :
      PoolStep env start s .main { s with globals := s.globals.push start, main := .joining 0 }
  | join (k : Nat) (hm : s.main = .joining k) (h : k < n) (hl : s.pc ⟨k, h⟩ = .left) :
      PoolStep env start s .main { s with main := .joining (k + 1) }
  | exit (k : Nat) (hm : s.main = .joining k) (h : n ≤ k) :
      PoolStep env start s .main { s with main := .done }
  | leave (i : Fin n) (hi : s.pc i = .empty) (hq : s.globals.queue = []) :
      PoolStep env start s (.worker i) (s.goto i .left)
  | enter (i : Fin n) (hi : s.pc i = .empty) (hq : s.globals.queue ≠ []) :
      PoolStep env start s (.worker i) (s.goto i .lock)
  | acquire (i : Fin n) (hi : s.pc i = .lock) (hm : s.mutex = none) :
      PoolStep env start s (.worker i) { s.goto i .pop with mutex := some i }
  | pop (i : Fin n) (work : TqueueItem) (rest : List TqueueItem) (hi : s.pc i = .pop)
      (hq : s.globals.queue = work :: rest) :
      PoolStep env start s (.worker i)
        { s.goto i (.locked (.visit work)) with
          globals := { s.globals with queue := rest, popped := s.globals.popped ++ [work] } }
  | body (i : Fin n) (st st' : Stage) (g : Globals σ) (hi : s.pc i = .locked st)
      (h : BodyStep env s.globals st g (some st')) :
      PoolStep env start s (.worker i) { s.goto i (.locked st') with globals := g }
  | unlock (i : Fin n) (st : Stage) (g : Globals σ) (hi : s.pc i = .locked st)
      (h : BodyStep env s.globals st g none) :
      PoolStep env start s (.worker i) { s.goto i .empty with globals := g, mutex := none }

theorem mainStep_cases {env : Env σ} {start : TqueueItem} {s t : Pool n σ}
    (h : mainStep start s = some t) : PoolStep env start s .main t := by
  cases hm : s.main with
  | creating k =>
    by_cases hk : k < n
    · simp only [mainStep, hm, hk, dif_pos, Option.some.injEq] at h
      exact h ▸ .create k hm hk
    · simp only [mainStep, hm, hk, dif_neg, not_false_eq_true, Option.some.injEq] at h
      exact h ▸ .seed k hm (Nat.not_lt.mp hk)
  | joining k =>
    by_cases hk : k < n
    · by_cases hl : s.pc ⟨k, hk⟩ = .left
      · simp only [mainStep, hm, hk, dif_pos, hl, if_true, Option.some.injEq] at h
        exact h ▸ .join k hm hk hl
      · simp [mainStep, hm, hk, hl] at h
    · simp only [mainStep, hm, hk, dif_neg, not_false_eq_true, Option.some.injEq] at h
      exact h ▸ .exit k hm (Nat.not_lt.mp hk)
  | done => simp [mainStep, hm] at h

theorem workerStep_cases {env : Env σ} {start : TqueueItem} {s t : Pool n σ} {i : Fin n}
    (h : workerStep env s i = some t) : PoolStep env start s (.worker i) t := by
  cases hi : s.pc i with
  | absent | left => simp [workerStep, hi] at h
  | empty =>
    simp only [workerStep, hi, Option.some.injEq] at h
    cases hq : s.globals.queue with
    | nil =>
      simp only [SafeQueue.empty, hq, List.isEmpty_nil, if_true] at h
      exact h ▸ .leave i hi hq
    | cons work rest =>
      simp only [SafeQueue.empty, hq, List.isEmpty_cons, Bool.false_eq_true, if_false] at h
      exact h ▸ .enter i hi (by simp [hq])
  | lock =>
    cases hm : s.mutex with
    | some j => simp [workerStep, hi, hm] at h
    | none =>
      simp only [workerStep, hi, hm, Option.some.injEq] at h
      exact h ▸ .acquire i hi hm
  | pop =>
    simp only [workerStep, hi, Option.map_eq_some_iff, Prod.exists] at h
    obtain ⟨work, g, hp, rfl⟩ := h
    obtain ⟨rest, hq, rfl⟩ := Globals.pop_eq_some hp
    exact .pop i work rest hi hq
  | locked st =>
    have hb := body_step env s.globals st
    cases hr : body env s.globals st with
    | mk g next =>
      rw [hr] at hb
      cases next with
      | some st' =>
        simp only [workerStep, hi, hr, Option.some.injEq] at h
        exact h ▸ .body i st st' g hi hb
      | none =>
        simp only [workerStep, hi, hr, Option.some.injEq] at h
        exact h ▸ .unlock i st g hi hb

theorem step_cases {env : Env σ} {start : TqueueItem} {s t : Pool n σ} {a : Thread n}
    (h : step env start s a = some t) : s.globals.terminated = false ∧ PoolStep env start s a t := by
  cases ht : s.globals.terminated with
  | true => simp [step, ht] at h
  | false =>
    refine ⟨rfl, ?_⟩
    simp only [step, ht, Bool.false_eq_true, if_false] at h
    cases a with
    | main => exact mainStep_cases h
    | worker i => exact workerStep_cases h

/-- `main` has executed `queue.push(qFirstLink)`. -/
def Pool.pushed (s : Pool n σ) : Bool :=
  match s.main with
  | .creating _ => false
  | .joining _ | .done => true

/-- No worker is between its `pop` and its `unlock`. -/
def Pool.Quiet (s : Pool n σ) : Prop := ∀ i st, s.pc i ≠ .locked st

/-- Worker `i` holds the crawler's mutex and waits in `queue.pop()` on an empty queue. -/
def Pool.Blocked (s : Pool n σ) (i : Fin n) : Prop :=
  s.mutex = some i ∧ s.pc i = .pop ∧ s.globals.queue = []

/-- All workers have left their loops and `main` has pushed the start link. -/
def Pool.Finished (s : Pool n σ) : Prop := s.pushed = true ∧ ∀ i, s.pc i = .left

@[simp] theorem goto_pc_self (s : Pool n σ) (i : Fin n) (p : Pc) : (s.goto i p).pc i = p := by
  simp [Pool.goto]

theorem goto_pc_other (s : Pool n σ) {i j : Fin n} (h : j ≠ i) (p : Pc) :
    (s.goto i p).pc j = s.pc j := by
  simp [Pool.goto, h]

/-- Only visits and `findUrl` touch the database and the web. -/
theorem BodyStep.world_cases {env : Env σ} {g g' : Globals σ} {st : Stage} {next : Option Stage}
    (h : BodyStep env g st g' next) :
    g'.world = g.world ∨ g'.world = (env.visit g.world st.work.url).world ∨
      ∃ subLink id, env.findUrl g.world subLink = some (id, g'.world) := by
  cases h with
  | thrown work w h | rejected work w h | expand work w subLinks h | leaf work w subLinks h =>
    exact .inr (.inl (by simp [h, Visit.world]))
  | failed | push | unlock => exact .inl rfl
  | known work subLink rest w h | unknown work subLink rest w h => exact .inr (.inr ⟨_, _, h⟩)

/-- What every visit and every answer of `findUrl` keeps is kept by every run of the pool. -/
theorem world_run {env : Env σ} {start : TqueueItem} {I : σ → Prop}
    (hvisit : ∀ w url, I w → I (env.visit w url).world)
    (hfind : ∀ w url id w', I w → env.findUrl w url = some (id, w') → I w')
    {s t : Pool n σ} {as : List (Thread n)} (hs : I s.globals.world)
    (h : run (step env start) s as = some t) : I t.globals.world := by
  have hbody : ∀ {g g' : Globals σ} {st : Stage} {next : Option Stage}, I g.world →
      BodyStep env g st g' next → I g'.world := by
    intro g g' st next hg hb
    obtain hw | hw | ⟨subLink, id, hw⟩ := BodyStep.world_cases hb
    · rwa [hw]
    · rw [hw]
      exact hvisit _ _ hg
    · exact hfind _ _ _ _ hg hw
  refine run_invariant (I := fun s => I s.globals.world) (fun s a t hi hst => ?_) hs h
  obtain ⟨-, hst⟩ := step_cases hst
  cases hst with
  | create | seed | join | exit | leave | enter | acquire | pop => exact hi
  | body i st st' g _ hb | unlock i st g _ hb => exact hbody hi hb

end SpiderSearch.WorkerPool
