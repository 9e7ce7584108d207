import SpiderSearch.Deepening
import SpiderSearch.PoolDrain
import SpiderSearch.Termination

namespace SpiderSearch.Outcome

open CppTypes Tables DbClient DoWork Runs WorkerPool PoolLock PoolDrain PoolRefines
  Termination WebCrawl Coverage Deepening

variable {σ : Type} {n : Nat} {env : Env σ} {start : TqueueItem} {world : σ}

/-- A thread is absent only until it is created, and gone before it is joined. -/
structure Alive (s : Pool n σ) : Prop where
  absent : ∀ i, s.pc i = .absent → ∃ k, s.main = .creating k ∧ k ≤ i.val
  joined : ∀ k, s.main = .joining k → ∀ i : Fin n, i.val < k → s.pc i = .left
  done : s.main = .done → ∀ i, s.pc i = .left

theorem alive_initial (world : σ) : Alive (Pool.initial n world) :=
  ⟨fun _ _ => ⟨0, rfl, Nat.zero_le _⟩, nofun, nofun⟩

/-- A worker that moves inside its loop is neither absent nor gone. -/
theorem Alive.goto {s : Pool n σ} (hs : Alive s) {i : Fin n} {p : Pc} (hp : p ≠ .absent)
    (hi : s.pc i ≠ .left) (g : Globals σ) (o : Option (Fin n)) :
    Alive { s.goto i p with globals := g, mutex := o } := by
  apply Alive.mk
  · intro j hj
    by_cases hji : j = i
    · subst hji
      exact absurd ((goto_pc_self s j p).symm.trans hj) hp
    · exact hs.absent j ((goto_pc_other s hji p).symm.trans hj)
  · intro k hk j hj
    have hl := hs.joined k hk j hj
    have hji : j ≠ i := fun h => hi (h ▸ hl)
    exact (goto_pc_other s hji p).trans hl
  · intro hd
    exact absurd (hs.done hd i) hi

theorem alive_step {s t : Pool n σ} {a : Thread n} (hs : Alive s) (h : PoolStep env start s a t) :
    Alive t := by
  cases h with
  | create k hm hk =>
    apply Alive.mk
    · intro j hj
      by_cases hji : j = ⟨k, hk⟩
      · subst hji
        exact absurd ((goto_pc_self s _ _).symm.trans hj) (by simp)
      · obtain ⟨k', hk', hle⟩ := hs.absent j ((goto_pc_other s hji _).symm.trans hj)
        obtain rfl := MainPc.creating.inj (hm.symm.trans hk')
        have hne : k ≠ j.val := fun h => hji (Fin.ext h.symm)
        exact ⟨k + 1, rfl, by omega⟩
    · nofun
    · nofun
  | seed k hm hk =>
    apply Alive.mk
    · intro j hj
      obtain ⟨k', hk', hle⟩ := hs.absent j hj
      obtain rfl := MainPc.creating.inj (hm.symm.trans hk')
      exact absurd j.isLt (by omega)
    · intro k' hk' j hj
      cases hk'
      exact absurd hj (Nat.not_lt_zero _)
    · nofun
  | join k hm hk hl =>
    apply Alive.mk
    · intro j hj
      obtain ⟨k', hk', -⟩ := hs.absent j hj
      cases hm.symm.trans hk'
    · intro k' hk' j hj
      obtain rfl := MainPc.joining.inj hk'
      obtain hlt | heq := Nat.lt_succ_iff_lt_or_eq.mp hj
      · exact hs.joined k hm j hlt
      · have he : j = ⟨k, hk⟩ := Fin.ext heq
        rw [he]
        exact hl
    · nofun
  | exit k hm hk =>
    apply Alive.mk
    · intro j hj
      obtain ⟨k', hk', -⟩ := hs.absent j hj
      cases hm.symm.trans hk'
    · nofun
    · exact fun _ j => hs.joined k hm j (by omega)
  | leave i hi | enter i hi => exact hs.goto (by simp) (by simp [hi]) s.globals s.mutex
  | acquire i hi | pop i work rest hi | body i st st' g hi | unlock i st g hi =>
    exact hs.goto (by simp) (by simp [hi]) _ _

theorem alive_run {as : List (Thread n)} {s : Pool n σ}
    (h : run (step env start) (.initial n world) as = some s) : Alive s :=
  run_invariant (fun _ _ _ hs hst => alive_step hs (step_cases hst).2) (alive_initial world) h

theorem mainStep_none {s : Pool n σ} (h : mainStep start s = none) :
    s.main = .done ∨ ∃ k, s.main = .joining k ∧ ∃ hk : k < n, s.pc ⟨k, hk⟩ ≠ .left := by
  cases hm : s.main with
  | creating k =>
    simp only [mainStep, hm] at h
    split at h <;> cases h
  | joining k =>
    simp only [mainStep, hm] at h
    split at h
    · rename_i hk
      exact .inr ⟨k, rfl, hk, fun hl => by simp [hl] at h⟩
    · cases h
  | done => exact .inl rfl

/-- A worker stands still before its creation, after its loop, or before a mutex that is taken or a
queue that is empty. -/
theorem workerStep_none {s : Pool n σ} {i : Fin n} (h : workerStep env s i = none) :
    s.pc i = .absent ∨ s.pc i = .left ∨ s.pc i = .lock ∧ s.mutex ≠ none ∨
      s.pc i = .pop ∧ s.globals.queue = [] := by
  cases hp : s.pc i with
  | absent => exact .inl rfl
  | left => exact .inr (.inl rfl)
  | empty => simp [workerStep, hp] at h
  | lock =>
    refine .inr (.inr (.inl ⟨rfl, fun hm => ?_⟩))
    simp [workerStep, hp, hm] at h
  | pop =>
    cases hq : s.globals.queue with
    | nil => exact .inr (.inr (.inr ⟨rfl, rfl⟩))
    | cons work rest => simp [workerStep, hp, Globals.pop, SafeQueue.pop, hq] at h
  | locked st =>
    simp only [workerStep, hp] at h
    split at h <;> cases h

/-- The pool stands still only after an exception, after the last join, or behind a worker that
waits in `pop` with the mutex in its hands. -/
theorem stuck_cases {s : Pool n σ} (hi : Inv s) (ha : Alive s) (h : Stuck (step env start) s) :
    s.globals.terminated = true ∨ s.main = .done ∨ s.pushed = true ∧ ∃ i, s.Blocked i := by
  cases ht : s.globals.terminated with
  | true => exact .inl rfl
  | false =>
    have hworker : ∀ i, workerStep env s i = none := fun i => by simpa [step, ht] using h (.worker i)
    have hold : ∀ i, s.mutex = some i → s.Blocked i := by
      intro i hm
      have hh := (hi.exclusive i).mpr hm
      obtain hp | hp | ⟨hp, -⟩ | ⟨hp, hq⟩ := workerStep_none (hworker i)
      · simp [hp, holds] at hh
      · simp [hp, holds] at hh
      · simp [hp, holds] at hh
      · exact ⟨hm, hp, hq⟩
    obtain hd | ⟨k, hm, hk, hne⟩ := mainStep_none (by simpa [step, ht] using h .main)
    · exact .inr (.inl hd)
    · refine .inr (.inr ⟨by simp [Pool.pushed, hm], ?_⟩)
      obtain hp | hp | ⟨-, ho⟩ | ⟨hp, -⟩ := workerStep_none (hworker ⟨k, hk⟩)
      · obtain ⟨k', hk', -⟩ := ha.absent _ hp
        cases hm.symm.trans hk'
      · exact absurd hp hne
      · obtain ⟨j, hj⟩ := Option.ne_none_iff_exists'.mp ho
        exact ⟨j, hold j hj⟩
      · exact ⟨_, hold ⟨k, hk⟩ ((hi.exclusive _).mp (by rw [hp]; rfl))⟩

/-- As long as there is work that was begun, a worker is in its loop. -/
def Staffed (s : Pool n σ) : Prop :=
  (∃ i, s.pc i ≠ .left) ∨ s.globals.queue = [] ∨ s.globals.popped = []

theorem staffed_step {s t : Pool n σ} {a : Thread n} (hs : Staffed s)
    (hfresh : s.pushed = false → s.globals.popped = []) (h : PoolStep env start s a t) :
    Staffed t := by
  have hin : ∀ {i : Fin n} {p : Pc}, p ≠ .left → ∃ j, (s.goto i p).pc j ≠ .left := fun hp =>
    manned_goto s _ hp
  cases h with
  | create k hm hk => exact .inl (hin (i := ⟨k, hk⟩) (p := .empty) (by simp))
  | seed k hm hk => exact .inr (.inr (hfresh (by simp [Pool.pushed, hm])))
  | join | exit => exact hs
  | leave i hi hq => exact .inr (.inl hq)
  | enter i | acquire i | pop i | body i | unlock i => exact .inl (hin (by simp))

theorem staffed_run {as : List (Thread n)} {s : Pool n σ}
    (h : run (step env start) (.initial n world) as = some s) : Staffed s := by
  refine run_reachable (fun as s a t hr hi hst => ?_) (.inr (.inr rfl)) h
  refine staffed_step hi (fun hp => ?_) (step_cases hst).2
  have hh := history_of_run hr
  have hpushed : s.globals.pushed = s.globals.popped ++ s.globals.queue := hh.pushed
  have hnil : s.globals.pushed = [] := (hh.fresh hp).2
  rw [hnil] at hpushed
  exact (List.append_eq_nil_iff.mp hpushed.symm).1

/-- How a pool can end. It may have been stopped by an exception. The workers may have left before
`main` pushed the start link, which is then the only thing that happened. Or all the work is done,
and the threads are joined or wait for a worker that waits for more. -/
inductive Ended (start : TqueueItem) (world : σ) (s : Pool n σ) : Prop
  | exception (h : s.globals.terminated = true)
  | abandoned (h : s.main = .done) (hg : s.globals = Sequential.seeded world start)
  | finished (h : s.main = .done ∨ ∃ i, s.Blocked i) (hd : Drained s)

theorem ended_of_stuck {as : List (Thread n)} {s : Pool n σ}
    (h : run (step env start) (.initial n world) as = some s) (hs : Stuck (step env start) s) :
    Ended start world s := by
  have hi := inv_run h
  obtain ht | hd | ⟨hp, i, hb⟩ := stuck_cases hi (alive_run h) hs
  · exact .exception ht
  · have hleft := (alive_run h).done hd
    have hquiet : s.Quiet := fun i st hp => by
      rw [hleft i] at hp
      cases hp
    have hp : s.pushed = true := by simp [Pool.pushed, hd]
    obtain ⟨i, hne⟩ | hq | hnone := staffed_run h
    · exact absurd (hleft i) hne
    · exact .finished (.inl hd) ⟨hp, hq, hquiet⟩
    · have hl := loop_of_quiet h hp hquiet
      rw [hnone] at hl
      exact .abandoned hd (Option.some.inj hl).symm
  · have hquiet : s.Quiet := by
      intro j st hj
      have hh := (hi.exclusive j).mp (by rw [hj]; rfl)
      obtain rfl := Option.some.inj (hb.1.symm.trans hh)
      rw [hb.2.1] at hj
      cases hj
    exact .finished (.inr ⟨i, hb⟩) ⟨hp, hb.2.2, hquiet⟩

theorem inevitably_ended (env : Env σ) (start : TqueueItem) (world : σ) (n : Nat) :
    Inevitable (step env start) (Ended start world) (Pool.initial n world) := by
  refine inevitable_of_descent Multiset.wellFounded_isDershowitzMannaLT (weight start)
    (fun s a t hst => ?_) fun as s h hs => ended_of_stuck h hs
  obtain ⟨ht, hst⟩ := step_cases hst
  exact pool_descends ht hst

/-- Whatever the web and the database answer and however the threads are scheduled, the pool comes
to an end, and it ends in one of the three ways. -/
theorem pool_ends (env : Env σ) (start : TqueueItem) (world : σ) (n : Nat) :
    Inevitable (step env start) (Ended start world) (Pool.initial n world) :=
  inevitably_ended env start world n

/-- Every crawl of a site ends, and unless it was stopped by an exception or never began, the tables
then hold exactly the pages within its depth, even where the threads are not joined. -/
theorem crawl_ends (server : Server) (getContent : Links.Link → Str) (start : Str)
    (hans : ∀ parser, Links.HtmlParser.new start = .ok parser →
      FindUrlSucceeds server (Parse.page getContent) parser.getURL) (d n : Nat) :
    Inevitable (step (webEnv server (Parse.page getContent)) ⟨start, d⟩)
      (fun s => s.globals.terminated = true ∨
        s.globals = Sequential.seeded .empty ⟨start, d⟩ ∨
        ∃ parser, Links.HtmlParser.new start = .ok parser ∧ ∀ u, u ∈ s.globals.world.urlTexts ↔
          Chain (Parse.page getContent) d parser.getURL u)
      (Pool.initial n .empty) := by
  refine (inevitably_ended _ _ _ n).mono fun as s h he => ?_
  cases he with
  | exception ht => exact .inl ht
  | abandoned _ hg => exact .inr (.inl hg)
  | finished _ hd =>
    obtain ⟨parser, hn⟩ := new_of_drained h hd
    exact .inr (.inr ⟨parser, hn, mem_drained_getURL hn (hans parser hn) h hd⟩)

open SpiderSearch.VisitOnce (diamond root) in
theorem diamond_ends : Inevitable (step (webEnv strict (Parse.page diamond)) ⟨root, (2 : Nat)⟩)
    (fun s => s.globals.terminated = true ∨ s.globals = Sequential.seeded .empty ⟨root, (2 : Nat)⟩ ∨
      ∃ parser, Links.HtmlParser.new root = .ok parser ∧ ∀ u, u ∈ s.globals.world.urlTexts ↔
        Chain (Parse.page diamond) 2 parser.getURL u)
    (Pool.initial 3 .empty) :=
  crawl_ends strict diamond root diamond_asked 2 3

end SpiderSearch.Outcome
