import SpiderSearch.WorkerPool

namespace SpiderSearch.PoolLock

open CppTypes DoWork Runs WorkerPool

variable {σ : Type} {n : Nat} {env : Env σ} {start : TqueueItem}

def holds : Pc → Bool
  | .pop | .locked _ => true
  | _ => false

/-- The crawler's mutex is owned by exactly the worker that stands behind its acquisition. -/
def Exclusive (s : Pool n σ) : Prop := ∀ i, holds (s.pc i) = true ↔ s.mutex = some i

theorem exclusive_initial (world : σ) : Exclusive (Pool.initial n world) := by
  intro i
  simp [Pool.initial, holds]

theorem Exclusive.eq {s : Pool n σ} (hs : Exclusive s) {i j : Fin n}
    (hi : holds (s.pc i) = true) (hj : holds (s.pc j) = true) : i = j :=
  Option.some.inj (((hs i).mp hi).symm.trans ((hs j).mp hj))

theorem exclusive_goto {s : Pool n σ} (hs : Exclusive s) (i : Fin n) (p : Pc)
    (hp : holds p = holds (s.pc i)) : Exclusive (s.goto i p) := by
  intro j
  by_cases hj : j = i
  · subst j
    rw [goto_pc_self, hp]
    exact hs i
  · rw [goto_pc_other s hj]
    exact hs j

theorem exclusive_acquire {s : Pool n σ} (hs : Exclusive s) (i : Fin n) (hm : s.mutex = none) :
    Exclusive { s.goto i .pop with mutex := some i } := by
  intro j
  by_cases hj : j = i
  · subst j
    simp [Pool.goto, holds]
  · have hn : holds (s.pc j) = false := by
      cases h : holds (s.pc j) with
      | false => rfl
      | true => simpa [hm] using (hs j).mp h
    simpa [Pool.goto, hj, hn] using fun h : i = j => hj h.symm

theorem exclusive_release {s : Pool n σ} (hs : Exclusive s) (i : Fin n) (g : Globals σ)
    (hi : holds (s.pc i) = true) :
    Exclusive { s.goto i .empty with globals := g, mutex := none } := by
  intro j
  by_cases hj : j = i
  · subst j
    simp [Pool.goto, holds]
  · have hn : holds (s.pc j) = false := by
      cases h : holds (s.pc j) with
      | false => rfl
      | true => exact absurd (hs.eq h hi) hj
    simp [Pool.goto, hj, hn]

structure Inv (s : Pool n σ) : Prop where
  exclusive : Exclusive s
  created : ∀ k, s.main = .creating k → ∀ i : Fin n, k ≤ i.val → s.pc i = .absent

theorem inv_initial (world : σ) : Inv (Pool.initial n world) :=
  ⟨exclusive_initial world, fun _ _ _ _ => rfl⟩

theorem exclusive_step {s t : Pool n σ} {a : Thread n} (hs : Inv s)
    (h : PoolStep env start s a t) : Exclusive t := by
  have he := hs.exclusive
  cases h with
  | create k hm hk => exact exclusive_goto he _ .empty (by rw [hs.created k hm _ le_rfl]; rfl)
  | seed k hm hk => exact he
  | join k hm hk hl => exact he
  | exit k hm hk => exact he
  | leave i hi hq => exact exclusive_goto he i .left (by rw [hi]; rfl)
  | enter i hi hq => exact exclusive_goto he i .lock (by rw [hi]; rfl)
  | acquire i hi hm => exact exclusive_acquire he i hm
  | pop i work rest hi hq => exact exclusive_goto he i _ (by rw [hi]; rfl)
  | body i st st' g hi hb => exact exclusive_goto he i _ (by rw [hi]; rfl)
  | unlock i st g hi hb => exact exclusive_release he i g (by rw [hi]; rfl)

theorem created_goto {s : Pool n σ}
    (hs : ∀ k, s.main = .creating k → ∀ i : Fin n, k ≤ i.val → s.pc i = .absent)
    {i : Fin n} (hi : s.pc i ≠ .absent) (p : Pc) :
    ∀ k, s.main = .creating k → ∀ j : Fin n, k ≤ j.val → (s.goto i p).pc j = .absent := by
  intro k hm j hj
  have ha := hs k hm j hj
  have hne : j ≠ i := fun he => hi (he ▸ ha)
  rw [goto_pc_other s hne, ha]

theorem created_step {s t : Pool n σ} {a : Thread n} (hs : Inv s) (h : PoolStep env start s a t) :
    ∀ k, t.main = .creating k → ∀ i : Fin n, k ≤ i.val → t.pc i = .absent := by
  cases h with
  | create k hm hk =>
    intro k' hk' i hi
    cases hk'
    have hne : i ≠ ⟨k, hk⟩ := fun he => absurd hi (by simp [he])
    rw [goto_pc_other s hne]
    exact hs.created k hm i (Nat.le_of_succ_le hi)
  | seed k hm hk => exact nofun
  | join k hm hk hl => exact nofun
  | exit k hm hk => exact nofun
  | leave i hi hq => exact created_goto hs.created (by simp [hi]) _
  | enter i hi hq => exact created_goto hs.created (by simp [hi]) _
  | acquire i hi hm => exact created_goto hs.created (by simp [hi]) _
  | pop i work rest hi hq => exact created_goto hs.created (by simp [hi]) _
  | body i st st' g hi hb => exact created_goto hs.created (by simp [hi]) _
  | unlock i st g hi hb => exact created_goto hs.created (by simp [hi]) _

theorem inv_step {s t : Pool n σ} {a : Thread n} (hs : Inv s) (h : step env start s a = some t) :
    Inv t :=
  ⟨exclusive_step hs (step_cases h).2, created_step hs (step_cases h).2⟩

theorem inv_run {world : σ} {as : List (Thread n)} {s : Pool n σ}
    (h : run (step env start) (.initial n world) as = some s) : Inv s :=
  run_invariant (fun _ _ _ => inv_step) (inv_initial world) h

theorem Inv.quiet {s : Pool n σ} (hs : Inv s) (hm : s.mutex = none) : s.Quiet := by
  intro i st hi
  have h := (hs.exclusive i).mp (by rw [hi]; rfl)
  rw [hm] at h
  cases h

/-- The worker that takes the mutex still finds a link in the queue. -/
def LockSeesWork (s : Pool n σ) (a : Thread n) : Prop :=
  ∀ i, a = .worker i → s.pc i = .lock → s.mutex = none → s.globals.queue ≠ []

instance (s : Pool n σ) (a : Thread n) : Decidable (LockSeesWork s a) :=
  inferInstanceAs (Decidable (∀ i, a = .worker i → s.pc i = .lock → s.mutex = none →
    s.globals.queue ≠ []))

/-- Only the owner of the mutex pops, so what it saw when it took the mutex is still there. -/
theorem queue_step {s t : Pool n σ} {a : Thread n} (hs : Inv s) (hp : LockSeesWork s a)
    (hq : ∀ i, s.pc i = .pop → s.globals.queue ≠ []) (h : PoolStep env start s a t) :
    ∀ i, t.pc i = .pop → t.globals.queue ≠ [] := by
  have stay : ∀ (j : Fin n) (p : Pc), p ≠ .pop → ∀ i, (s.goto j p).pc i = .pop → s.pc i = .pop := by
    intro j p hne i hi
    by_cases hj : i = j
    · subst i
      rw [goto_pc_self] at hi
      exact absurd hi hne
    · rwa [goto_pc_other s hj] at hi
  have alone : ∀ (j : Fin n) (p : Pc), holds (s.pc j) = true → p ≠ .pop →
      ∀ i, (s.goto j p).pc i ≠ .pop := by
    intro j p hj hne i hi
    have hi' := stay j p hne i hi
    obtain rfl : i = j := hs.exclusive.eq (by rw [hi']; rfl) hj
    rw [goto_pc_self] at hi
    exact hne hi
  cases h with
  | create k hm hk => exact fun i hi => hq i (stay _ _ (by simp) i hi)
  | seed k hm hk => exact fun i hi => by simp [Globals.push, SafeQueue.push]
  | join k hm hk hl => exact hq
  | exit k hm hk => exact hq
  | leave j hj hn => exact fun i hi => hq i (stay _ _ (by simp) i hi)
  | enter j hj hn => exact fun i hi => hq i (stay _ _ (by simp) i hi)
  | acquire j hj hm => exact fun _ _ => hp j rfl hj hm
  | pop j work rest hj hn => exact fun i hi => absurd hi (alone j _ (by rw [hj]; rfl) (by simp) i)
  | body j st st' g hj hb =>
    exact fun i hi => absurd hi (alone j _ (by rw [hj]; rfl) (by simp) i)
  | unlock j st g hj hb => exact fun i hi => absurd hi (alone j _ (by rw [hj]; rfl) (by simp) i)

/-- Taking the mutex over an empty queue is the one step that blocks the pool. -/
theorem blocked_of_acquire {s t : Pool n σ} {a : Thread n} (h : step env start s a = some t)
    (hb : ∀ i, ¬ t.Blocked i) : LockSeesWork s a := by
  rintro i rfl hl hm hq
  have ht : t = { s.goto i .pop with mutex := some i } := by
    cases (step_cases h).2 with
    | acquire j hj hm' => rfl
    | _ => simp_all
  subst ht
  exact hb i ⟨rfl, goto_pc_self s i .pop, hq⟩

theorem never_blocked_iff (env : Env σ) (start : TqueueItem) (world : σ) (n : Nat)
    (as : List (Thread n)) (s : Pool n σ)
    (h : run (step env start) (.initial n world) as = some s) :
    Always (step env start) (fun t => ∀ i, ¬ t.Blocked i) (.initial n world) as ↔
      Along (step env start) LockSeesWork (.initial n world) as := by
  apply Iff.intro
  · intro ha
    exact along_of_always (I := fun _ => True) (fun _ _ _ _ _ => trivial)
      (fun s a t _ hst hb => blocked_of_acquire hst hb) trivial h ha
  · intro hp
    refine always_of_along (I := fun t => Inv t ∧ ∀ i, t.pc i = .pop → t.globals.queue ≠ [])
      ?_ ?_ ⟨inv_initial world, fun i hi => by cases hi⟩ hp
    · rintro s a t ⟨hi, hq⟩ hsee hst
      exact ⟨inv_step hi hst, queue_step hi hsee hq (step_cases hst).2⟩
    · rintro s ⟨-, hq⟩ i ⟨-, hpop, hn⟩
      exact hq i hpop hn

/-- A web without words: every `parse()` is false. -/
def barren : Env Unit := ⟨fun w _ => .rejected w, fun w _ => some (false, w)⟩

def home : TqueueItem := ⟨str "http://a.b/", 1⟩

def only : Thread 1 := .worker 0

/-- Every page has the same two links. -/
def fork : Env Unit :=
  ⟨fun w _ => .parsed w [str "http://a.b/c", str "http://a.b/d"], fun w _ => some (false, w)⟩

def one : Thread 2 := .worker 0

def two : Thread 2 := .worker 1

/-- The first worker expands the start link. Then both come for the mutex, and each takes one of the
two links. -/
def contended : List (Thread 2) :=
  [.main, .main, .main, one, one, one, one, one, one, one, one, two, one, one,
    two, two, two, two, one, one, one, one, one, two]

theorem contended_never_blocked :
    (∃ s, run (step fork home) (.initial 2 ()) (contended.take 14) = some s ∧ s.pc 0 = .lock ∧
      s.pc 1 = .lock ∧ s.globals.queue.length = 2) ∧
    (∃ s, run (step fork home) (.initial 2 ()) contended = some s ∧ s.globals.processed.length = 3) ∧
    Always (step fork home) (fun t => ∀ i, ¬ t.Blocked i) (.initial 2 ()) contended :=
  ⟨⟨_, rfl, rfl, rfl, rfl⟩, ⟨_, rfl, rfl⟩,
    (never_blocked_iff fork home () 2 contended _ rfl).mpr (by decide +kernel)⟩

/-- Two workers see the same link; the first takes it and the second waits for another one. -/
def lateWorker : List (Thread 2) :=
  [.main, .main, .main, one, two, one, one, one, one, two]

theorem blocked_reachable :
    ¬ ∀ (σ : Type) (env : Env σ) (start : TqueueItem) (world : σ) (n : Nat)
      (as : List (Thread n)) (s : Pool n σ), run (step env start) (.initial n world) as = some s →
        ∀ i, ¬ s.Blocked i := by
  intro h
  exact h Unit barren home () 2 lateWorker _ rfl 1 ⟨rfl, rfl, rfl⟩

end SpiderSearch.PoolLock
