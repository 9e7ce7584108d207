import Mathlib.Algebra.Order.Ring.Abs
import SpiderSearch.PoolRefines

namespace SpiderSearch.BreadthFirst

open CppTypes DoWork Runs CrawlLoop WorkerPool PoolLock PoolRefines

variable {σ : Type} {n : Nat} {env : Env σ} {start : TqueueItem}

def Descending (items : List TqueueItem) : Prop := (items.map TqueueItem.dept).Pairwise (· ≥ ·)

theorem descending_append {items : List TqueueItem} {item : TqueueItem} (h : Descending items)
    (hle : ∀ q ∈ items, item.dept ≤ q.dept) : Descending (items ++ [item]) := by
  rw [Descending] at h ⊢
  rw [List.map_append, List.pairwise_append]
  refine ⟨h, by simp, ?_⟩
  intro a ha b hb
  obtain ⟨q, hq, rfl⟩ := List.mem_map.mp ha
  obtain rfl : b = item.dept := by simpa using hb
  exact hle q hq

theorem Descending.tail {item : TqueueItem} {items : List TqueueItem}
    (h : Descending (item :: items)) : Descending items := (List.pairwise_cons.mp h).2

theorem Descending.le_head {item : TqueueItem} {items : List TqueueItem}
    (h : Descending (item :: items)) {q : TqueueItem} (hq : q ∈ items) : q.dept ≤ item.dept :=
  (List.pairwise_cons.mp h).1 q.dept (List.mem_map_of_mem hq)

/-- The queue holds what is left of layer `e` and then the part of layer `e - 1` found so far;
the link in hand belongs to layer `e`. -/
structure Layered (e : Int) (c : Loop σ) : Prop where
  queue : Descending c.globals.queue
  band : ∀ q ∈ c.globals.queue, e - 1 ≤ q.dept ∧ q.dept ≤ e
  stage : ∀ st, c.stage = some st → st.work.dept = e
  popped : Descending c.globals.popped
  above : ∀ p ∈ c.globals.popped, e ≤ p.dept

theorem layered_pop {e : Int} {c : Loop σ} (hi : Layered e c) {work : TqueueItem}
    {rest : List TqueueItem} (hq : c.globals.queue = work :: rest) :
    Layered work.dept
      { c with
        globals := { c.globals with queue := rest, popped := c.globals.popped ++ [work] }
        stage := some (.visit work) } := by
  have hd : Descending (work :: rest) := hq ▸ hi.queue
  have hb : ∀ q ∈ work :: rest, e - 1 ≤ q.dept ∧ q.dept ≤ e := hq ▸ hi.band
  have hw := hb work List.mem_cons_self
  have habove : ∀ p ∈ c.globals.popped, work.dept ≤ p.dept :=
    fun p hp => hw.2.trans (hi.above p hp)
  refine ⟨hd.tail, ?_, ?_, descending_append hi.popped habove, ?_⟩
  · intro q hqr
    have h1 := hb q (List.mem_cons_of_mem work hqr)
    have h2 := hd.le_head hqr
    omega
  · intro st hst
    cases hst
    rfl
  · intro p hp
    obtain hp | hp := List.mem_append.mp hp
    · exact habove p hp
    · simp_all

theorem layered_body {e : Int} {c : Loop σ} (hi : Layered e c) {st : Stage} {g : Globals σ}
    {next : Option Stage} (hs : c.stage = some st) (h : BodyStep env c.globals st g next) :
    Layered e { c with globals := g, stage := next } := by
  have hst : ∀ st', next = some st' → st'.work.dept = e := by
    rintro st' rfl
    rw [h.work_eq]
    exact hi.stage st hs
  cases h with
  | push work link rest =>
    have hw : work.dept = e := hi.stage _ hs
    refine ⟨?_, ?_, hst, hi.popped, hi.above⟩
    · exact descending_append hi.queue fun q hq => by
        have hb := hi.band q hq
        simp only
        omega
    · intro q hq
      obtain hq | hq := List.mem_append.mp hq
      · exact hi.band q hq
      · obtain rfl : q = ⟨link, work.dept - 1⟩ := by simpa using hq
        simp only
        omega
  | _ => exact ⟨hi.queue, hi.band, hst, hi.popped, hi.above⟩

theorem layered_step {c c' : Loop σ} (hh : History c) (hi : ∃ e, Layered e c)
    (h : LoopStep env start c c') : ∃ e, Layered e c' := by
  obtain ⟨e, hi⟩ := hi
  cases h with
  | seed hs =>
    obtain ⟨hn, hp⟩ := hh.fresh hs
    have hpush := hh.pushed
    rw [hp, List.nil_eq, List.append_eq_nil_iff] at hpush
    refine ⟨start.dept, ?_, ?_, ?_, hi.popped, ?_⟩
    · simp [Globals.push, SafeQueue.push, hpush.2, Descending]
    · intro q hq
      obtain rfl : q = start := by simpa [Globals.push, SafeQueue.push, hpush.2] using hq
      omega
    · simp [hn]
    · simp [Globals.push, hpush.1]
  | pop work rest hs hq => exact ⟨work.dept, layered_pop hi hq⟩
  | body st g next hs hb => exact ⟨e, layered_body hi hs hb⟩

theorem layered_initial (world : σ) : ∃ e, Layered e (Loop.initial world) := by
  refine ⟨0, ?_⟩
  constructor <;> simp [Loop.initial, Globals.initial, Descending]

theorem layered_run {world : σ} {ts : List Turn} {c : Loop σ}
    (h : run (CrawlLoop.step env start) (.initial world) ts = some c) : ∃ e, Layered e c := by
  refine (run_invariant (I := fun c => History c ∧ ∃ e, Layered e c) ?_ ?_ h).2
  · rintro c t c' ⟨hh, hi⟩ hs
    exact ⟨history_step hh (CrawlLoop.step_cases hs), layered_step hh hi (CrawlLoop.step_cases hs)⟩
  · exact ⟨history_initial world, layered_initial world⟩

/-- Links wait and are taken by depth, deepest first, and never more than one level apart. -/
theorem breadth_first_order (env : Env σ) (start : TqueueItem) (world : σ) (n : Nat)
    (as : List (Thread n)) (s : Pool n σ)
    (h : run (WorkerPool.step env start) (.initial n world) as = some s) :
    (∀ i j st st', s.pc i = .locked st → s.pc j = .locked st' → i = j) ∧
    (s.globals.queue.map TqueueItem.dept).Pairwise (· ≥ ·) ∧
    (∀ i st, s.pc i = .locked st → ∀ q ∈ s.globals.queue, |q.dept - st.work.dept| ≤ 1) ∧
    (s.Quiet → ∀ q ∈ s.globals.queue, ∀ q' ∈ s.globals.queue, |q.dept - q'.dept| ≤ 1) ∧
    (s.globals.popped.map TqueueItem.dept).Pairwise (· ≥ ·) := by
  have hinv := inv_run h
  obtain ⟨ts, hr⟩ := core_run h
  obtain ⟨e, hi⟩ := layered_run hr
  refine ⟨?_, hi.queue, ?_, ?_, hi.popped⟩
  · intro i j st st' hi hj
    exact hinv.exclusive.eq (by rw [hi]; rfl) (by rw [hj]; rfl)
  · intro i st hst q hq
    have hw := hi.stage st (core_stage_of_locked hinv hst)
    have hb := hi.band q hq
    rw [abs_le]
    omega
  · intro _ q hq q' hq'
    have hb := hi.band q hq
    have hb' := hi.band q' hq'
    rw [abs_le]
    omega

/-- The run stops while the second link is being expanded. -/
def halfExpanded : List (Thread 1) := [.main, .main] ++ List.replicate 15 only

theorem halfExpanded_order : ∃ s : Pool 1 Unit,
    run (WorkerPool.step fork ⟨home.url, 2⟩) (.initial 1 ()) halfExpanded = some s ∧
    s.pc 0 = .locked (.findUrl ⟨str "http://a.b/c", 1⟩ (str "http://a.b/d") []) ∧
    s.globals.queue = [⟨str "http://a.b/d", 1⟩, ⟨str "http://a.b/c", 0⟩] ∧
    (s.globals.queue.map TqueueItem.dept).Pairwise (· ≥ ·) ∧
    (∀ i st, s.pc i = .locked st → ∀ q ∈ s.globals.queue, |q.dept - st.work.dept| ≤ 1) ∧
    (s.globals.popped.map TqueueItem.dept).Pairwise (· ≥ ·) := by
  have hr : run (WorkerPool.step fork ⟨home.url, 2⟩) (.initial 1 ()) halfExpanded = some _ := rfl
  have h := breadth_first_order fork ⟨home.url, 2⟩ () 1 halfExpanded _ hr
  exact ⟨_, hr, rfl, rfl, h.2.1, h.2.2.1, h.2.2.2.2⟩

end SpiderSearch.BreadthFirst
