import SpiderSearch.PoolRefines

namespace SpiderSearch.PoolDrain

open CppTypes DoWork Runs WorkerPool PoolLock PoolRefines

variable {σ : Type} {n : Nat} {env : Env σ} {start : TqueueItem}

/-- When `main` pushes the start link, some worker has not left its loop yet. -/
def SeedInTime (s : Pool n σ) (a : Thread n) : Prop :=
  a = .main → s.main = .creating n → ∃ i, s.pc i ≠ .left

instance (s : Pool n σ) (a : Thread n) : Decidable (SeedInTime s a) :=
  inferInstanceAs (Decidable (a = .main → s.main = .creating n → ∃ i, s.pc i ≠ .left))

/-- Nothing pushed is left behind: the queue is empty and every pushed link is processed. -/
def Cleared (s : Pool n σ) : Prop :=
  s.globals.queue = [] ∧ s.globals.popped = s.globals.pushed ∧
    s.globals.processed = s.globals.pushed

/-- A worker is still in its loop, or the queue is empty. -/
def Manned (s : Pool n σ) : Prop :=
  s.pushed = true → (∃ i, s.pc i ≠ .left) ∨ s.globals.queue = []

theorem manned_goto (s : Pool n σ) (i : Fin n) {p : Pc} (hp : p ≠ .left) :
    ∃ j, (s.goto i p).pc j ≠ .left := ⟨i, by rwa [goto_pc_self]⟩

def Bounded (s : Pool n σ) : Prop := ∀ k, s.main = .creating k → k ≤ n

theorem manned_initial (world : σ) : Manned (Pool.initial n world) := nofun

theorem bounded_initial (world : σ) : Bounded (Pool.initial n world) := by
  intro k hk
  cases hk
  exact Nat.zero_le n

theorem bounded_step {s t : Pool n σ} {a : Thread n} (hs : Bounded s)
    (h : PoolStep env start s a t) : Bounded t := by
  cases h with
  | create k hm hk =>
    intro k' hk'
    cases hk'
    exact hk
  | seed k hm hk => exact nofun
  | join k hm hk hl => exact nofun
  | exit k hm hk => exact nofun
  | _ => exact hs

theorem manned_step {s t : Pool n σ} {a : Thread n} (hs : Manned s) (hb : Bounded s)
    (hp : SeedInTime s a) (h : PoolStep env start s a t) : Manned t := by
  cases h with
  | create k hm hk => exact fun h => by simp [Pool.pushed] at h
  | seed k hm hk =>
    have hk' : k = n := Nat.le_antisymm (hb k hm) hk
    subst hk'
    exact fun _ => .inl (hp rfl hm)
  | join k hm hk hl =>
    have hpush : s.pushed = true := by simp [Pool.pushed, hm]
    exact fun _ => hs hpush
  | exit k hm hk =>
    have hpush : s.pushed = true := by simp [Pool.pushed, hm]
    exact fun _ => hs hpush
  | leave i hi hq => exact fun _ => .inr hq
  | enter i hi hq => exact fun _ => .inl (manned_goto s i (by simp))
  | acquire i hi hm => exact fun _ => .inl (manned_goto s i (by simp))
  | pop i work rest hi hq => exact fun _ => .inl (manned_goto s i (by simp))
  | body i st st' g hi hb => exact fun _ => .inl (manned_goto s i (by simp))
  | unlock i st g hi hb => exact fun _ => .inl (manned_goto s i (by simp))

/-- Once no worker is at a link, what was pushed is what was processed and what is queued. -/
theorem cleared_of_finished {world : σ} {as : List (Thread n)} {s : Pool n σ}
    (h : run (step env start) (.initial n world) as = some s) (hf : s.Finished)
    (hq : s.globals.queue = []) : Cleared s := by
  have hh := history_of_run h
  have hquiet : s.Quiet := fun i st => by simp [hf.2 i]
  have hpush := hh.pushed
  have hproc := hh.processed
  rw [core_stage_of_quiet hquiet] at hproc
  simp only [core, hq, List.append_nil] at hpush
  simp only [core, Option.map_none, Option.toList_none, List.append_nil] at hproc
  exact ⟨hq, hpush.symm, by rw [← hproc, hpush]⟩

theorem finished_cleared_iff (env : Env σ) (start : TqueueItem) (world : σ) (n : Nat)
    (as : List (Thread n)) (s : Pool n σ)
    (h : run (step env start) (.initial n world) as = some s) :
    Always (step env start) (fun t => t.Finished → Cleared t) (.initial n world) as ↔
      Along (step env start) SeedInTime (.initial n world) as := by
  apply Iff.intro
  · intro ha
    refine along_of_always (I := fun _ => True) (fun _ _ _ _ _ => trivial) ?_ trivial h ha
    rintro s a t - hst hq rfl hm
    by_contra hall
    push Not at hall
    have ht : t = { s with globals := s.globals.push start, main := .joining 0 } := by
      cases (step_cases hst).2 with
      | seed k hk hn => rfl
      | create k hk hn =>
        obtain rfl : k = n := by simpa [hk] using hm
        exact absurd hn (Nat.lt_irrefl k)
      | _ => simp_all
    subst ht
    have hc := hq ⟨rfl, hall⟩
    simpa [Globals.push, SafeQueue.push] using hc.1
  · intro hp bs t hb ht
    have hm : Manned t ∧ Bounded t := by
      refine run_invariant_along (I := fun t => Manned t ∧ Bounded t) ?_ ?_
        (along_initial hp hb) ht
      · rintro s a t ⟨hs, hbd⟩ hseed hst
        exact ⟨manned_step hs hbd hseed (step_cases hst).2, bounded_step hbd (step_cases hst).2⟩
      · exact ⟨manned_initial world, bounded_initial world⟩
    intro hf
    obtain ⟨i, hi⟩ | hq := hm.1 hf.1
    · exact absurd (hf.2 i) hi
    · exact cleared_of_finished ht hf hq

theorem contended_cleared :
    (∃ s, run (step fork home) (.initial 2 ()) contended = some s ∧ s.Finished) ∧
    Always (step fork home) (fun t => t.Finished → Cleared t) (.initial 2 ()) contended :=
  ⟨⟨_, rfl, rfl, by decide⟩,
    (finished_cleared_iff fork home () 2 contended _ rfl).mpr (by decide +kernel)⟩

/-- The worker finds the queue empty and leaves before `main` pushes. -/
def hastyWorker : List (Thread 1) := [.main, only, .main]

theorem start_link_abandoned :
    ¬ ∀ (σ : Type) (env : Env σ) (start : TqueueItem) (world : σ) (n : Nat)
      (as : List (Thread n)) (s : Pool n σ), run (step env start) (.initial n world) as = some s →
        s.Finished → Cleared s := by
  intro h
  have hc := h Unit barren home () 1 hastyWorker _ rfl ⟨rfl, by decide⟩
  cases hc.1

end SpiderSearch.PoolDrain
