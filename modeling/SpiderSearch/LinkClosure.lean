import SpiderSearch.LinkDepth

namespace SpiderSearch.LinkClosure

open CppTypes DoWork Runs CrawlLoop WorkerPool PoolLock PoolRefines LinkDepth

variable {σ : Type} {n : Nat} {env : Env σ} {start : TqueueItem} {world : σ} {P C : Str → Prop}

/-- A property that a page hands on to its links. -/
def Inherited (env : Env σ) (P : Str → Prop) : Prop :=
  ∀ w u w' links, P u → env.visit w u = .parsed w' links → ∀ v ∈ links, P v

structure Closed (P : Str → Prop) (c : Loop σ) : Prop where
  pushed : ∀ item ∈ c.globals.pushed, P item.url
  pending : ∀ st, c.stage = some st → ∀ v ∈ pending st, P v

theorem closed_initial (world : σ) : Closed P (.initial world) := ⟨nofun, nofun⟩

/-- A worker goes on with the links that are left. -/
theorem Closed.forSubLinks {c : Loop σ} (work : TqueueItem) (links : List Str)
    (hpushed : ∀ item ∈ c.globals.pushed, P item.url) (hlinks : ∀ v ∈ links, P v) :
    Closed P { c with stage := some (forSubLinks work links) } where
  pushed := hpushed
  pending st hst := by
    cases hst
    rwa [pending_forSubLinks]

theorem closed_body (hP : Inherited env P) {c : Loop σ} (hh : History c) (hi : Closed P c)
    {st : Stage} {g : Globals σ} {next : Option Stage} (hs : c.stage = some st)
    (hb : BodyStep env c.globals st g next) :
    Closed P { c with globals := g, stage := next } := by
  have hwork : P st.work.url := hi.pushed _ (hh.popped_subset (hh.work_mem hs))
  have hpend := hi.pending st hs
  cases hb with
  | thrown | rejected | leaf => exact ⟨hi.pushed, fun st' hst' => by cases hst'; exact nofun⟩
  | expand work w links hv hd =>
    exact Closed.forSubLinks (c := { c with globals := { c.globals with world := w } }) work links
      hi.pushed (hP _ _ _ _ hwork hv)
  | failed | unknown => exact ⟨hi.pushed, fun st' hst' => by cases hst'; exact hpend⟩
  | known work link rest w hf =>
    exact Closed.forSubLinks (c := { c with globals := { c.globals with world := w } }) work rest
      hi.pushed fun v hm => hpend v (List.mem_cons_of_mem _ hm)
  | push work link rest =>
    exact Closed.forSubLinks (c := { c with globals := c.globals.push ⟨link, work.dept - 1⟩ }) work
      rest (Globals.forall_pushed hi.pushed (hpend link List.mem_cons_self))
      fun v hm => hpend v (List.mem_cons_of_mem _ hm)
  | unlock work => exact ⟨hi.pushed, nofun⟩

theorem closed_step (hP : Inherited env P) (hstart : P start.url) {c c' : Loop σ} (hh : History c)
    (hi : Closed P c) (h : LoopStep env start c c') : Closed P c' := by
  cases h with
  | seed hs =>
    obtain ⟨hn, -⟩ := hh.fresh hs
    exact ⟨Globals.forall_pushed hi.pushed hstart, by simp [hn]⟩
  | pop work rest hs hq => exact ⟨hi.pushed, fun st hst => by cases hst; exact nofun⟩
  | body st g next hs hb => exact closed_body hP hh hi hs hb

theorem closed_run (hP : Inherited env P) (hstart : P start.url) {ts : List Turn} {c : Loop σ}
    (h : run (CrawlLoop.step env start) (.initial world) ts = some c) : Closed P c := by
  refine run_reachable (fun ts c t c' hr hi hst => ?_) (closed_initial world) h
  exact closed_step hP hstart (history_run hr) hi (CrawlLoop.step_cases hst)

/-- What the start link has and every page hands on to its links, all the links in the queue have. -/
theorem pushed_closed (hP : Inherited env P) (hstart : P start.url) {as : List (Thread n)}
    {s : Pool n σ} (h : run (WorkerPool.step env start) (.initial n world) as = some s) :
    ∀ item ∈ s.globals.pushed, P item.url := by
  obtain ⟨ts, hr⟩ := core_run h
  exact (closed_run hP hstart hr).pushed

theorem step_congr {env' : Env σ} {s : Pool n σ}
    (hv : ∀ i work, s.pc i = .locked (.visit work) → ∀ w, env'.visit w work.url = env.visit w work.url)
    (hf : env'.findUrl = env.findUrl) (a : Thread n) :
    WorkerPool.step env' start s a = WorkerPool.step env start s a := by
  cases a with
  | main => rfl
  | worker i =>
    have hbody : ∀ st, s.pc i = .locked st → body env' s.globals st = body env s.globals st := by
      intro st hst
      cases st with
      | visit work => simp only [body, hv i work hst]
      | findUrl work link rest => simp only [body, hf]
      | push | unlock => rfl
    have hworker : workerStep env' s i = workerStep env s i := by
      cases hp : s.pc i with
      | locked st => simp only [workerStep, hp, hbody st hp]
      | absent | empty | lock | pop | left => simp only [workerStep, hp]
    simp only [WorkerPool.step, hworker]

/-- Environments that treat the links that can be queued alike have the same runs. -/
theorem run_congr_of_closed {env' : Env σ} (hP : Inherited env P) (hstart : P start.url)
    (hv : ∀ w u, P u → env'.visit w u = env.visit w u) (hf : env'.findUrl = env.findUrl)
    (as : List (Thread n)) :
    run (WorkerPool.step env' start) (.initial n world) as =
      run (WorkerPool.step env start) (.initial n world) as := by
  refine run_congr (fun bs s a hr => step_congr (fun i work hp w => hv w _ ?_) hf a) as
  have hstage := core_stage_of_locked (inv_run hr) hp
  have hm := (history_of_run hr).popped_subset ((history_of_run hr).work_mem hstage)
  exact pushed_closed hP hstart hr work hm

/-- Of the URLs in `P` the visits of those in `C` throw, and nothing else does. -/
structure Throws (env : Env σ) (P C : Str → Prop) : Prop where
  visit : ∀ w u, P u → ((∃ w', env.visit w u = .thrown w') ↔ C u)
  findUrl : ∀ w u, P u → env.findUrl w u ≠ none

/-- The pages that throw are not got past. -/
structure Guarded (C : Str → Prop) (c : Loop σ) : Prop where
  terminated : c.globals.terminated = true → ∃ work, c.stage = some (.visit work) ∧ C work.url
  processed : ∀ item ∈ c.globals.processed, ¬ C item.url
  current : ∀ st, c.stage = some st → st ≠ .visit st.work → ¬ C st.work.url

theorem guarded_initial (world : σ) : Guarded C (.initial world) := ⟨nofun, nofun, nofun⟩

/-- A worker that has come through the visit of its page is past the danger. -/
theorem Guarded.passed {c : Loop σ} {g : Globals σ} {next : Stage} (hi : Guarded C c)
    (ht : g.terminated = false) (hg : g.processed = c.globals.processed) (hc : ¬ C next.work.url) :
    Guarded C { c with globals := g, stage := some next } where
  terminated htt := by
    rw [show g.terminated = true from htt] at ht
    cases ht
  processed := by
    rw [show Loop.globals _ = g from rfl, hg]
    exact hi.processed
  current st hst _ := by
    cases hst
    exact hc

theorem guarded_body (hC : Throws env P C) {c : Loop σ} (ht : c.globals.terminated = false)
    (hh : History c) (hcl : Closed P c) (hi : Guarded C c) {st : Stage} {g : Globals σ}
    {next : Option Stage} (hs : c.stage = some st) (hb : BodyStep env c.globals st g next) :
    Guarded C { c with globals := g, stage := next } := by
  have hwork : P st.work.url := hcl.pushed _ (hh.popped_subset (hh.work_mem hs))
  have hpass : ∀ v : Visit σ, env.visit c.globals.world st.work.url = v →
      (∀ w, v ≠ .thrown w) → ¬ C st.work.url := by
    rintro v hv hne hc
    obtain ⟨w, hw⟩ := (hC.visit c.globals.world _ hwork).mpr hc
    exact hne w (hv.symm.trans hw)
  cases hb with
  | thrown work w hv =>
    refine ⟨fun _ => ⟨work, rfl, (hC.visit _ _ hwork).mp ⟨w, hv⟩⟩, hi.processed, ?_⟩
    intro st' hst' hne
    cases hst'
    exact absurd rfl hne
  | rejected work w hv => exact hi.passed ht rfl (hpass _ hv nofun)
  | expand work w links hv hd =>
    exact hi.passed ht rfl (by rw [forSubLinks_work]; exact hpass _ hv nofun)
  | leaf work w links hv hd => exact hi.passed ht rfl (hpass _ hv nofun)
  | failed work link rest hf =>
    exact absurd hf (hC.findUrl _ _ (hcl.pending _ hs link List.mem_cons_self))
  | known work link rest w hf =>
    have hc := hi.current _ hs nofun
    exact hi.passed ht rfl (by rwa [forSubLinks_work])
  | push work link rest =>
    have hc := hi.current _ hs nofun
    exact hi.passed ht rfl (by rwa [forSubLinks_work])
  | unknown work link rest w hf =>
    have hc := hi.current _ hs nofun
    exact hi.passed ht rfl hc
  | unlock work =>
    have hc := hi.current _ hs nofun
    refine ⟨fun htt => ?_, fun item hm => ?_, nofun⟩
    · rw [show c.globals.terminated = true from htt] at ht
      cases ht
    · obtain hm | hm := List.mem_append.mp hm
      · exact hi.processed item hm
      · obtain rfl := List.mem_singleton.mp hm
        exact hc

theorem guarded_step (hC : Throws env P C) {c c' : Loop σ} (ht : c.globals.terminated = false)
    (hh : History c) (hcl : Closed P c) (hi : Guarded C c) (h : LoopStep env start c c') :
    Guarded C c' := by
  have hterm : ∀ {p : Prop}, c.globals.terminated = true → p := fun htt => by
    rw [htt] at ht
    cases ht
  cases h with
  | seed hs => exact ⟨fun htt => hterm htt, hi.processed, hi.current⟩
  | pop work rest hs hq =>
    refine ⟨fun htt => hterm htt, hi.processed, ?_⟩
    intro st hst hne
    cases hst
    exact absurd rfl hne
  | body st g next hs hb => exact guarded_body hC ht hh hcl hi hs hb

theorem guarded_run (hP : Inherited env P) (hstart : P start.url) (hC : Throws env P C)
    {ts : List Turn} {c : Loop σ}
    (h : run (CrawlLoop.step env start) (.initial world) ts = some c) : Guarded C c := by
  refine run_reachable (fun ts c t c' hr hi hst => ?_) (guarded_initial world) h
  have ht : c.globals.terminated = false := by
    cases htt : c.globals.terminated with
    | false => rfl
    | true => simp [CrawlLoop.step, htt] at hst
  exact guarded_step hC ht (history_run hr) (closed_run hP hstart hr) hi (CrawlLoop.step_cases hst)

/-- An exception ends the pool at the first page taken that throws. -/
theorem terminated_at (hP : Inherited env P) (hstart : P start.url) (hC : Throws env P C)
    {as : List (Thread n)} {s : Pool n σ}
    (h : run (WorkerPool.step env start) (.initial n world) as = some s) :
    (s.globals.terminated = true →
      ∃ item, s.globals.popped = s.globals.processed ++ [item] ∧ C item.url) ∧
    ∀ item ∈ s.globals.processed, ¬ C item.url := by
  obtain ⟨ts, hr⟩ := core_run h
  have hg := guarded_run hP hstart hC hr
  refine ⟨fun ht => ?_, hg.processed⟩
  obtain ⟨work, hs, hc⟩ := hg.terminated ht
  have hp := (history_run hr).processed
  rw [hs] at hp
  exact ⟨work, hp, hc⟩

end SpiderSearch.LinkClosure
