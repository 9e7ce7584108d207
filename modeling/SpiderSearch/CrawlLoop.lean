import SpiderSearch.DoWork
import SpiderSearch.Runs

namespace SpiderSearch.CrawlLoop

open CppTypes DoWork Runs

variable {σ : Type}

/-- One thread that pushes the start link and then runs the loop of `doWork` alone. -/
structure Loop (σ : Type) where
  globals : Globals σ
  started : Bool
  stage : Option Stage

inductive Turn where
  | seed
  | work
  deriving DecidableEq

def Loop.initial (world : σ) : Loop σ := ⟨.initial world, false, none⟩

def step (env : Env σ) (start : TqueueItem) (c : Loop σ) (t : Turn) : Option (Loop σ) :=
  if c.globals.terminated then none else
  match t with
  | .seed => if c.started then none else some { c with globals := c.globals.push start, started := true }
  | .work =>
    match c.stage with
    | none => c.globals.pop.map fun (work, g) => { c with globals := g, stage := some (.visit work) }
    | some st => some { c with globals := (body env c.globals st).1, stage := (body env c.globals st).2 }

inductive LoopStep (env : Env σ) (start : TqueueItem) (c : Loop σ) : Loop σ → Prop
  | seed (h : c.started = false) :
      LoopStep env start c { c with globals := c.globals.push start, started := true }
  | pop (work : TqueueItem) (rest : List TqueueItem) (hs : c.stage = none)
      (hq : c.globals.queue = work :: rest) :
      LoopStep env start c
        { c with
          globals := { c.globals with queue := rest, popped := c.globals.popped ++ [work] }
          stage := some (.visit work) }
  | body (st : Stage) (g : Globals σ) (next : Option Stage) (hs : c.stage = some st)
      (h : BodyStep env c.globals st g next) :
      LoopStep env start c { c with globals := g, stage := next }

theorem step_cases {env : Env σ} {start : TqueueItem} {c c' : Loop σ} {t : Turn}
    (h : step env start c t = some c') : LoopStep env start c c' := by
  unfold step at h
  split at h
  · cases h
  · cases t with
    | seed =>
      cases hs : c.started with
      | true => simp [hs] at h
      | false =>
        simp only [hs, Bool.false_eq_true, if_false, Option.some.injEq] at h
        exact h ▸ .seed hs
    | work =>
      cases hs : c.stage with
      | none =>
        simp only [hs, Option.map_eq_some_iff, Prod.exists] at h
        obtain ⟨work, g, hp, rfl⟩ := h
        obtain ⟨rest, hq, rfl⟩ := Globals.pop_eq_some hp
        exact .pop work rest hs hq
      | some st =>
        simp only [hs, Option.some.injEq] at h
        exact h ▸ .body st _ _ hs (body_step env c.globals st)

/-- What the recorded lists say: the pushed links are the popped ones and then the queued ones,
and only the link in hand is popped without being processed. -/
structure History (c : Loop σ) : Prop where
  pushed : c.globals.pushed = c.globals.popped ++ c.globals.queue
  processed : c.globals.popped = c.globals.processed ++ (c.stage.map Stage.work).toList
  fresh : c.started = false → c.stage = none ∧ c.globals.pushed = []

theorem History.popped_subset {c : Loop σ} (h : History c) {p : TqueueItem}
    (hp : p ∈ c.globals.popped) : p ∈ c.globals.pushed := by
  rw [h.pushed]
  exact List.mem_append_left _ hp

theorem History.work_mem {c : Loop σ} (h : History c) {st : Stage} (hs : c.stage = some st) :
    st.work ∈ c.globals.popped := by
  rw [h.processed, hs]
  exact List.mem_append_right _ (by simp)

theorem history_initial (world : σ) : History (Loop.initial world) :=
  ⟨rfl, rfl, fun _ => ⟨rfl, rfl⟩⟩

theorem BodyStep.history {env : Env σ} {g g' : Globals σ} {st : Stage} {next : Option Stage}
    (h : BodyStep env g st g' next) (hp : g.pushed = g.popped ++ g.queue)
    (hw : g.popped = g.processed ++ [st.work]) :
    g'.pushed = g'.popped ++ g'.queue ∧ g'.popped = g'.processed ++ (next.map Stage.work).toList := by
  cases h with
  | push work link rest =>
    refine ⟨?_, by simpa [Globals.push] using hw⟩
    simp [Globals.push, SafeQueue.push, hp]
  | _ => exact ⟨hp, by simpa using hw⟩

theorem history_step {env : Env σ} {start : TqueueItem} {c c' : Loop σ} (hi : History c)
    (h : LoopStep env start c c') : History c' := by
  obtain ⟨hp, hw, hf⟩ := hi
  cases h with
  | seed hs =>
    obtain ⟨hn, -⟩ := hf hs
    refine ⟨?_, ?_, fun h => by simp at h⟩
    · simp [Globals.push, SafeQueue.push, hp]
    · simpa [Globals.push] using hw
  | pop work rest hs hq =>
    refine ⟨by simp [hp, hq], by simpa [hs] using hw, fun h => ?_⟩
    have hpush := (hf h).2
    rw [hp, hq] at hpush
    simp at hpush
  | body st g next hs hb =>
    have hw' : c.globals.popped = c.globals.processed ++ [st.work] := by simpa [hs] using hw
    obtain ⟨h1, h2⟩ := BodyStep.history hb hp hw'
    exact ⟨h1, h2, fun h => by simp [hs] at hf; exact absurd h (by simp [hf])⟩

theorem history_run {env : Env σ} {start : TqueueItem} {world : σ} {ts : List Turn} {c : Loop σ}
    (h : run (step env start) (.initial world) ts = some c) : History c :=
  run_invariant (fun _ _ _ hi hs => history_step hi (step_cases hs)) (history_initial world) h

end SpiderSearch.CrawlLoop
