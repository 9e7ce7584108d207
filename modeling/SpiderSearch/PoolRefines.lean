import SpiderSearch.PoolLock
import SpiderSearch.Sequential

namespace SpiderSearch.PoolRefines

open CppTypes DoWork Runs CrawlLoop WorkerPool PoolLock

variable {σ : Type} {n : Nat} {env : Env σ} {start : TqueueItem}

def stageOf : Pc → Option Stage
  | .locked st => some st
  | _ => none

/-- The pool seen as one thread: the owner of the mutex is the one that runs the loop. -/
def core (s : Pool n σ) : Loop σ :=
  ⟨s.globals, s.pushed, s.mutex.bind fun i => stageOf (s.pc i)⟩

theorem core_initial (world : σ) : core (Pool.initial n world) = .initial world := rfl

theorem core_stage_of_locked {s : Pool n σ} (hs : Inv s) {i : Fin n} {st : Stage}
    (hi : s.pc i = .locked st) : (core s).stage = some st := by
  have hm : s.mutex = some i := (hs.exclusive i).mp (by rw [hi]; rfl)
  simp [core, hm, hi, stageOf]

theorem core_stage_of_quiet {s : Pool n σ} (hq : s.Quiet) : (core s).stage = none := by
  cases hm : s.mutex with
  | none => simp [core, hm]
  | some i =>
    cases hi : s.pc i with
    | locked st => exact absurd hi (hq i st)
    | _ => simp [core, hm, hi, stageOf]

/-- A move of a worker between two places outside the loop body is invisible. -/
theorem stage_goto {s : Pool n σ} (i : Fin n) (p : Pc) (hi : stageOf (s.pc i) = none)
    (hp : stageOf p = none) :
    (s.mutex.bind fun j => stageOf ((s.goto i p).pc j)) = s.mutex.bind fun j => stageOf (s.pc j) := by
  congr 1
  funext j
  by_cases hj : j = i
  · subst j
    rw [goto_pc_self, hi, hp]
  · rw [goto_pc_other s hj]

theorem core_step {s t : Pool n σ} {a : Thread n} (hs : Inv s)
    (h : WorkerPool.step env start s a = some t) :
    core t = core s ∨ ∃ b, CrawlLoop.step env start (core s) b = some (core t) := by
  obtain ⟨hterm, hc⟩ := step_cases h
  have hmutex : ∀ i, holds (s.pc i) = true → s.mutex = some i := fun i => (hs.exclusive i).mp
  cases hc with
  | create k hm hk =>
    left
    have hp : s.pushed = false := by simp [Pool.pushed, hm]
    have ha : stageOf (s.pc ⟨k, hk⟩) = none := by rw [hs.created k hm _ le_rfl]; rfl
    simp only [core, hp]
    rw [← stage_goto ⟨k, hk⟩ .empty ha rfl]
    rfl
  | seed k hm hk =>
    right
    refine ⟨.seed, ?_⟩
    have hp : s.pushed = false := by simp [Pool.pushed, hm]
    simp [CrawlLoop.step, core, hterm, hp]
    rfl
  | join k hm hk hl =>
    left
    have hp : s.pushed = true := by simp [Pool.pushed, hm]
    simp only [core, hp]
    rfl
  | exit k hm hk =>
    left
    have hp : s.pushed = true := by simp [Pool.pushed, hm]
    simp only [core, hp]
    rfl
  | leave i hi hq =>
    left
    have hst := stage_goto i .left (by rw [hi]; rfl) rfl
    simp only [core]
    rw [← hst]
    rfl
  | enter i hi hq =>
    left
    have hst := stage_goto i .lock (by rw [hi]; rfl) rfl
    simp only [core]
    rw [← hst]
    rfl
  | acquire i hi hm =>
    left
    simp [core, hm, Pool.goto, Pool.pushed, stageOf]
  | pop i work rest hi hq =>
    right
    refine ⟨.work, ?_⟩
    have hm := hmutex i (by rw [hi]; rfl)
    simp [CrawlLoop.step, core, hterm, hm, hi, stageOf, Globals.pop, hq, SafeQueue.pop, Pool.goto,
      Pool.pushed]
  | body i st st' g hi hb =>
    right
    refine ⟨.work, ?_⟩
    have hm := hmutex i (by rw [hi]; rfl)
    simp [CrawlLoop.step, core, hterm, hm, hi, stageOf, hb.body_eq, Pool.goto, Pool.pushed]
  | unlock i st g hi hb =>
    right
    refine ⟨.work, ?_⟩
    have hm := hmutex i (by rw [hi]; rfl)
    simp [CrawlLoop.step, core, hterm, hm, hi, stageOf, hb.body_eq, Pool.goto, Pool.pushed]

/-- Whatever the schedule, the pool goes through states of the single loop. -/
theorem core_run {world : σ} {as : List (Thread n)} {s : Pool n σ}
    (h : run (WorkerPool.step env start) (.initial n world) as = some s) :
    ∃ ts, run (CrawlLoop.step env start) (.initial world) ts = some (core s) := by
  rw [← core_initial (n := n)]
  exact run_simulates core (fun _ _ _ => inv_step) (fun _ _ _ => core_step) (inv_initial world) h

theorem history_of_run {world : σ} {as : List (Thread n)} {s : Pool n σ}
    (h : run (WorkerPool.step env start) (.initial n world) as = some s) : History (core s) := by
  obtain ⟨ts, hr⟩ := core_run h
  exact history_run hr

/-- When no worker is between its `pop` and its `unlock`, the shared state is the one that as
many turns of the single loop produce. -/
theorem loop_of_quiet {world : σ} {as : List (Thread n)} {s : Pool n σ}
    (h : run (WorkerPool.step env start) (.initial n world) as = some s) (hp : s.pushed = true)
    (hq : s.Quiet) :
    Sequential.loop env s.globals.popped.length (Sequential.seeded world start) = some s.globals := by
  obtain ⟨ts, hr⟩ := core_run h
  exact Sequential.loop_of_run hr hp (core_stage_of_quiet hq)

theorem drained_unique {n₁ n₂ : Nat} {world : σ} {as₁ : List (Thread n₁)} {as₂ : List (Thread n₂)}
    {s₁ : Pool n₁ σ} {s₂ : Pool n₂ σ}
    (h₁ : run (WorkerPool.step env start) (.initial n₁ world) as₁ = some s₁)
    (h₂ : run (WorkerPool.step env start) (.initial n₂ world) as₂ = some s₂)
    (hp₁ : s₁.pushed = true) (hp₂ : s₂.pushed = true) (hq₁ : s₁.Quiet) (hq₂ : s₂.Quiet)
    (he₁ : s₁.globals.queue = []) (he₂ : s₂.globals.queue = []) : s₁.globals = s₂.globals :=
  Sequential.loop_drained_unique env (loop_of_quiet h₁ hp₁ hq₁) (loop_of_quiet h₂ hp₂ hq₂) he₁ he₂

end SpiderSearch.PoolRefines
