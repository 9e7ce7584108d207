import SpiderSearch.PoolRefines

namespace SpiderSearch.LoneWorker

open CppTypes DoWork Runs WorkerPool PoolLock
open SpiderSearch.Sequential (seeded pushUnseen parse record iteration loop)

variable {σ : Type} {env : Env σ} {start work : TqueueItem} {g g' : Globals σ}

/-- One worker, once `main` has pushed the start link. -/
def solo (g : Globals σ) (mutex : Option (Fin 1)) (p : Pc) : Pool 1 σ :=
  ⟨g, mutex, fun _ => p, .joining 0⟩

theorem goto_one (s : Pool 1 σ) (i : Fin 1) (p : Pc) : s.goto i p = { s with pc := fun _ => p } := by
  have hp : (s.goto i p).pc = fun _ => p := by
    funext j
    rw [Subsingleton.elim j i, goto_pc_self]
  rw [← hp]
  rfl

def works (k : Nat) : List (Thread 1) := List.replicate k only

theorem run_seeded (env : Env σ) (start : TqueueItem) (w : σ) :
    run (WorkerPool.step env start) (.initial 1 w) [.main, .main] =
      some (solo (seeded w start) none .empty) := by
  simp [WorkerPool.step, mainStep, Pool.initial, Globals.initial, goto_one, seeded, Globals.push,
    SafeQueue.push, solo]

theorem step_solo (ht : g.terminated = false) {st : Stage} {next : Option Stage}
    (h : body env g st = (g', next)) :
    WorkerPool.step env start (solo g (some 0) (.locked st)) only =
      some (match next with
        | some st' => solo g' (some 0) (.locked st')
        | none => solo g' none .empty) := by
  cases next <;> simp [WorkerPool.step, workerStep, only, solo, goto_one, ht, h]

theorem run_take_solo (ht : g.terminated = false) {rest : List TqueueItem}
    (hq : g.queue = work :: rest) :
    run (WorkerPool.step env start) (solo g none .empty) (works 3) =
      some (solo { g with queue := rest, popped := g.popped ++ [work] } (some 0)
        (.locked (.visit work))) := by
  simp [works, only, solo, List.replicate, WorkerPool.step, workerStep, goto_one, Globals.pop,
    SafeQueue.pop, SafeQueue.empty, ht, hq]

/-- Put a step of the loop body in front of a run. -/
theorem run_body_cons (ht : g.terminated = false) {st st' : Stage} {s : Pool 1 σ}
    (h : body env g st = (g', some st'))
    (hr : ∃ as, run (WorkerPool.step env start) (solo g' (some 0) (.locked st')) as = some s) :
    ∃ as, run (WorkerPool.step env start) (solo g (some 0) (.locked st)) as = some s := by
  obtain ⟨as, hr⟩ := hr
  exact ⟨only :: as, by rw [run_cons, step_solo ht h, Option.bind_some, hr]⟩

theorem run_pushUnseen (start : TqueueItem) {links : List Str} (ht : g.terminated = false)
    (h : pushUnseen env work g links = some g') :
    g'.terminated = false ∧
      ∃ as, run (WorkerPool.step env start) (solo g (some 0) (.locked (forSubLinks work links))) as =
        some (solo (record work g') none .empty) := by
  induction links generalizing g with
  | nil =>
    cases h
    refine ⟨ht, [only], ?_⟩
    rw [run_cons, forSubLinks, step_solo ht rfl]
    rfl
  | cons link rest ih =>
    rw [pushUnseen] at h
    cases hf : env.findUrl g.world link with
    | none => simp [hf] at h
    | some r =>
      obtain ⟨known, w⟩ := r
      rw [hf] at h
      cases known with
      | true =>
        obtain ⟨ht', hr⟩ := ih (g := { g with world := w }) ht h
        exact ⟨ht', run_body_cons ht (BodyStep.known work link rest w hf).body_eq hr⟩
      | false =>
        obtain ⟨ht', hr⟩ := ih (g := Globals.push { g with world := w } ⟨link, work.dept - 1⟩) ht h
        refine ⟨ht', run_body_cons ht (BodyStep.unknown work link rest w hf).body_eq ?_⟩
        exact run_body_cons (g := { g with world := w }) ht rfl hr

theorem run_parse (start : TqueueItem) (ht : g.terminated = false) (h : parse env work g = some g') :
    g'.terminated = false ∧
      ∃ as, run (WorkerPool.step env start) (solo g (some 0) (.locked (.visit work))) as =
        some (solo (record work g') none .empty) := by
  rw [parse] at h
  cases hv : env.visit g.world work.url with
  | thrown w => simp [hv] at h
  | rejected w =>
    rw [hv] at h
    have hp : pushUnseen env work { g with world := w } [] = some g' := h
    obtain ⟨ht', hr⟩ := run_pushUnseen start (g := { g with world := w }) ht hp
    exact ⟨ht', run_body_cons ht (BodyStep.rejected work w hv).body_eq hr⟩
  | parsed w links =>
    rw [hv] at h
    dsimp only at h
    split_ifs at h with hd
    · obtain ⟨ht', hr⟩ := run_pushUnseen start (g := { g with world := w }) ht h
      exact ⟨ht', run_body_cons ht (BodyStep.expand work w links hv hd).body_eq hr⟩
    · have hp : pushUnseen env work { g with world := w } [] = some g' := h
      obtain ⟨ht', hr⟩ := run_pushUnseen start (g := { g with world := w }) ht hp
      exact ⟨ht', run_body_cons ht (BodyStep.leaf work w links hv (Int.not_lt.mp hd)).body_eq hr⟩

theorem run_iteration (start : TqueueItem) (ht : g.terminated = false) (h : iteration env g = some g') :
    g'.terminated = false ∧
      ∃ as, run (WorkerPool.step env start) (solo g none .empty) as = some (solo g' none .empty) := by
  rw [iteration] at h
  cases hq : g.queue with
  | nil => simp [hq] at h
  | cons work rest =>
    rw [hq] at h
    obtain ⟨g₁, hp, rfl⟩ := Option.map_eq_some_iff.mp h
    obtain ⟨ht', as, hr⟩ := run_parse start
      (g := { g with queue := rest, popped := g.popped ++ [work] }) ht hp
    exact ⟨ht', works 3 ++ as, by rw [run_append, run_take_solo ht hq, Option.bind_some, hr]⟩

/-- Every sequence of turns is a run of a pool with one worker. -/
theorem run_loop {w : σ} {k : Nat} (h : loop env k (seeded w start) = some g) :
    g.terminated = false ∧
      ∃ as, run (WorkerPool.step env start) (.initial 1 w) as = some (solo g none .empty) := by
  induction k generalizing g with
  | zero =>
    cases h
    exact ⟨rfl, [.main, .main], run_seeded env start w⟩
  | succ k ih =>
    obtain ⟨g₁, h₁, hi⟩ := Option.bind_eq_some_iff.mp h
    obtain ⟨ht, as, hr⟩ := ih h₁
    obtain ⟨ht', bs, hr'⟩ := run_iteration start ht hi
    exact ⟨ht', as ++ bs, by rw [run_append, hr, Option.bind_some, hr']⟩

section TwoVisits

variable {w₀ w₁ w₂ : σ} {v : Str}

/-- The start page is read and the link on it pushed. -/
def firstVisit : List (Thread 1) := [.main, .main] ++ works 3 ++ works 4

/-- The page behind that link is read. -/
def secondVisit : List (Thread 1) := works 3 ++ works 2

def twoVisits : List (Thread 1) := firstVisit ++ secondVisit

theorem run_firstVisit (hd : 0 < start.dept) (h₁ : env.visit w₀ start.url = .parsed w₁ [v])
    (h₂ : env.findUrl w₁ v = some (false, w₁)) :
    run (WorkerPool.step env start) (.initial 1 w₀) firstVisit =
      some (solo ⟨[⟨v, start.dept - 1⟩], w₁, false, [start, ⟨v, start.dept - 1⟩], [start], [start]⟩
        none .empty) := by
  have htake : run (WorkerPool.step env start) (solo (seeded w₀ start) none .empty) (works 3) =
      some (solo ⟨[], w₀, false, [start], [start], []⟩ (some 0) (.locked (.visit start))) :=
    run_take_solo rfl rfl
  simp only [firstVisit, run_append, run_seeded, Option.bind_some, htake]
  simp [works, only, solo, List.replicate, WorkerPool.step, workerStep, body, goto_one, Globals.push,
    SafeQueue.push, forSubLinks, h₁, h₂, hd]

theorem run_secondVisit {ps qs rs : List TqueueItem} {item : TqueueItem}
    (h : env.visit w₁ item.url = .parsed w₂ []) :
    run (WorkerPool.step env start) (solo ⟨[item], w₁, false, ps, qs, rs⟩ none .empty) secondVisit =
      some (solo ⟨[], w₂, false, ps, qs ++ [item], rs ++ [item]⟩ none .empty) := by
  have htake : run (WorkerPool.step env start)
      (solo ⟨[item], w₁, false, ps, qs, rs⟩ none .empty) (works 3) =
      some (solo ⟨[], w₁, false, ps, qs ++ [item], rs⟩ (some 0) (.locked (.visit item))) :=
    run_take_solo rfl rfl
  simp only [secondVisit, run_append, Option.bind_some, htake]
  simp [works, only, solo, List.replicate, WorkerPool.step, workerStep, body, goto_one, forSubLinks, h]

theorem run_twoVisits (hd : 0 < start.dept) (h₁ : env.visit w₀ start.url = .parsed w₁ [v])
    (h₂ : env.findUrl w₁ v = some (false, w₁)) (h₃ : env.visit w₁ v = .parsed w₂ []) :
    run (WorkerPool.step env start) (.initial 1 w₀) twoVisits =
      some (solo ⟨[], w₂, false, [start, ⟨v, start.dept - 1⟩], [start, ⟨v, start.dept - 1⟩],
        [start, ⟨v, start.dept - 1⟩]⟩ none .empty) := by
  rw [twoVisits, run_append, run_firstVisit hd h₁ h₂, Option.bind_some]
  exact run_secondVisit h₃

end TwoVisits

theorem solo_quiet (g : Globals σ) : (solo g none .empty).Quiet := nofun

end SpiderSearch.LoneWorker
