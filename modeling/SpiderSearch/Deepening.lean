import SpiderSearch.VisitOnce

namespace SpiderSearch.Deepening

open CppTypes Tables DbSession DbClient AddLink DoWork Runs CrawlLoop WorkerPool PoolLock
  PoolRefines WebCrawl Layers LinkDepth Coverage

variable {server : Server} {web : Web} {start : Str} {d : Int}

/-- The start link has been pushed, every link has been taken and no worker is at one. -/
structure Drained {n : Nat} {σ : Type} (s : Pool n σ) : Prop where
  pushed : s.pushed = true
  queue : s.globals.queue = []
  quiet : s.Quiet

/-- A crawl over a table that already holds what the start page links to: it indexes nothing and
queues only links to pages that do not parse. -/
structure Stale (web : Web) (start : Str) (db : Database) (c : Loop Database) : Prop where
  table : ∀ u, u ∈ c.globals.world.urlTexts ↔ u ∈ db.urlTexts
  pushed : ∀ p ∈ c.globals.pushed, p.url = start ∨ Links web start p.url ∧ ¬ Parses web p.url
  pending : ∀ st, c.stage = some st → ∀ v ∈ pending st, Links web start v
  unseen : ∀ work v rest, c.stage = some (.push work v rest) → ¬ Parses web v

theorem stale_initial (db : Database) : Stale web start db (.initial db) :=
  ⟨fun _ => Iff.rfl, nofun, nofun, nofun⟩

theorem stale_parsed {db : Database} {c : Loop Database} (hurl : SameUrl web start)
    (hdb : ∀ u, Chain web 1 start u → u ∈ db.urlTexts) (hi : Stale web start db c)
    {work : TqueueItem} (hm : work ∈ c.globals.pushed) {links : List Str} {w : Database}
    (hv : (webEnv server web).visit c.globals.world work.url = .parsed w links) :
    w = c.globals.world ∧ work.url = start ∧ ∀ v ∈ links, Links web start v := by
  obtain ⟨url, words, hp, -, rfl⟩ := visit_parsed hv
  have hstart : work.url = start := by
    obtain h | ⟨-, hn⟩ := hi.pushed work hm
    · exact h
    · exact absurd ⟨url, words, links, hp⟩ hn
  rw [hstart] at hp
  have hps : Parses web start := ⟨url, words, links, hp⟩
  obtain rfl := hurl 0 start url (.refl start) ⟨words, .inr ⟨links, hp⟩⟩
  have hin : url ∈ c.globals.world.urlTexts :=
    (hi.table url).mpr (hdb url ⟨hps, 0, Nat.zero_le 1, .refl url⟩)
  refine ⟨tablesAfter_of_mem hin none, hstart, fun v hv => ?_⟩
  rwa [Links, subLinks, hp]

/-- A worker at the start page goes on with the links that are left. -/
theorem Stale.forSubLinks {db : Database} {c : Loop Database} (work : TqueueItem) (links : List Str)
    (htable : ∀ u, u ∈ c.globals.world.urlTexts ↔ u ∈ db.urlTexts)
    (hpushed : ∀ p ∈ c.globals.pushed, p.url = start ∨ Links web start p.url ∧ ¬ Parses web p.url)
    (hlinks : ∀ v ∈ links, Links web start v) :
    Stale web start db { c with stage := some (forSubLinks work links) } where
  table := htable
  pushed := hpushed
  pending := by
    intro st hst v hv
    cases hst
    rw [pending_forSubLinks] at hv
    exact hlinks v hv
  unseen := fun work' v rest hst =>
    absurd (Option.some.inj hst) (forSubLinks_ne_push work links work' v rest)

theorem stale_body {db : Database} {c : Loop Database} (hurl : SameUrl web start)
    (hans : FindUrlSucceeds server web start)
    (hdb : ∀ u, Chain web 1 start u → u ∈ db.urlTexts) (hh : History c) (hi : Stale web start db c)
    {st : Stage} {g : Globals Database} {next : Option Stage} (hs : c.stage = some st)
    (hb : BodyStep (webEnv server web) c.globals st g next) (ht : g.terminated = false) :
    Stale web start db { c with globals := g, stage := next } := by
  have hm : st.work ∈ c.globals.pushed := hh.popped_subset (hh.work_mem hs)
  have hpend := hi.pending st hs
  cases hb with
  | thrown work w hv => simp at ht
  | failed work link rest hf => simp at ht
  | rejected work w hv =>
    obtain ⟨-, rfl⟩ := visit_rejected hv
    exact Stale.forSubLinks (c := c) work [] hi.table hi.pushed (List.forall_mem_nil _)
  | expand work w links hv hd =>
    obtain ⟨rfl, -, hl⟩ := stale_parsed hurl hdb hi hm hv
    exact Stale.forSubLinks (c := c) work links hi.table hi.pushed hl
  | leaf work w links hv hd =>
    obtain ⟨rfl, -, -⟩ := stale_parsed hurl hdb hi hm hv
    exact Stale.forSubLinks (c := c) work [] hi.table hi.pushed (List.forall_mem_nil _)
  | known work link rest w hf =>
    obtain ⟨-, rfl⟩ := findUrl_answer hf
    exact Stale.forSubLinks (c := c) work rest hi.table hi.pushed fun v hv =>
      hpend v (List.mem_cons_of_mem _ hv)
  | unknown work link rest w hf =>
    obtain ⟨hok, rfl⟩ := findUrl_answer hf
    refine ⟨hi.table, hi.pushed, ?_, ?_⟩
    · intro st' hst'
      cases hst'
      exact hpend
    · intro work' v rest' hst' hp
      cases hst'
      have hl : Links web start link := hpend link List.mem_cons_self
      have hn : link ∉ c.globals.world.urlTexts :=
        of_decide_eq_false (hans 1 link ((Walk.refl start).snoc hl) _ _ hok).symm
      -- a page one link away that parses was indexed by the first crawl
      exact hn ((hi.table link).mpr
        (hdb link ⟨hl.parses, 1, le_rfl, (Walk.refl start).snoc ⟨hl, hp⟩⟩))
  | push work link rest =>
    have hl : Links web start link := hpend link List.mem_cons_self
    have hpushed : ∀ p ∈ (c.globals.push ⟨link, work.dept - 1⟩).pushed,
        p.url = start ∨ Links web start p.url ∧ ¬ Parses web p.url := by
      apply Globals.forall_pushed hi.pushed
      exact .inr ⟨hl, hi.unseen work link rest hs⟩
    exact Stale.forSubLinks (c := { c with globals := c.globals.push ⟨link, work.dept - 1⟩ }) work
      rest hi.table hpushed fun v hv => hpend v (List.mem_cons_of_mem _ hv)
  | unlock work => exact ⟨hi.table, hi.pushed, by simp, by simp⟩

theorem stale_run (hurl : SameUrl web start) (hans : FindUrlSucceeds server web start)
    {db : Database} (hdb : ∀ u, Chain web 1 start u → u ∈ db.urlTexts) {ts : List Turn}
    {c : Loop Database}
    (h : run (CrawlLoop.step (webEnv server web) ⟨start, d⟩) (.initial db) ts = some c)
    (ht : c.globals.terminated = false) : Stale web start db c := by
  refine (run_invariant (I := fun c => History c ∧
    (c.globals.terminated = false → Stale web start db c)) ?_ ?_ h).2 ht
  · rintro c t c' ⟨hh, hi⟩ hs
    have hc := CrawlLoop.step_cases hs
    refine ⟨history_step hh hc, fun ht' => ?_⟩
    have ht : c.globals.terminated = false := by
      cases htc : c.globals.terminated with
      | false => rfl
      | true => simp [CrawlLoop.step, htc] at hs
    have hi := hi ht
    cases hc with
    | seed hn =>
      obtain ⟨hst, -⟩ := hh.fresh hn
      refine ⟨hi.table, ?_, by simp [hst], by simp [hst]⟩
      apply Globals.forall_pushed hi.pushed
      exact .inl rfl
    | pop work rest hn hq =>
      refine ⟨hi.table, hi.pushed, fun st hst => ?_, by simp⟩
      cases hst
      exact List.forall_mem_nil _
    | body st g next hn hb => exact stale_body hurl hans hdb hh hi hn hb ht'
  · exact ⟨history_initial db, fun _ => stale_initial db⟩

theorem not_terminated_of_quiet {n : Nat} {start : TqueueItem} {db : Database}
    {as : List (Thread n)} {s : Pool n Database}
    (h : run (WorkerPool.step (webEnv server web) start) (.initial n db) as = some s)
    (hq : s.Quiet) : s.globals.terminated = false := by
  obtain ⟨ts, hr⟩ := core_run h
  cases ht : s.globals.terminated with
  | false => rfl
  | true => exact absurd (core_stage_of_quiet hq) ((Sequential.tracks_run hr).stage ht)

/-- A second crawl over what a first crawl of depth at least 1 has indexed adds nothing. -/
theorem second_crawl_adds_nothing (hurl : SameUrl web start) (hans : FindUrlSucceeds server web start)
    {db : Database} (hdb : ∀ u, Chain web 1 start u → u ∈ db.urlTexts) {n : Nat}
    {as : List (Thread n)} {s : Pool n Database}
    (h : run (WorkerPool.step (webEnv server web) ⟨start, d⟩) (.initial n db) as = some s)
    (hq : s.Quiet) (u : Str) : u ∈ s.globals.world.urlTexts ↔ u ∈ db.urlTexts := by
  obtain ⟨ts, hr⟩ := core_run h
  exact (stale_run hurl hans hdb hr (not_terminated_of_quiet h hq)).table u

section Shallow

open SpiderSearch.Sequential (seeded iteration parse loop loop_add loop_of_queue_nil record)

variable {σ : Type} {env : Env σ}

theorem loop_seeded {w : σ} {start : TqueueItem} {k : Nat} {g : Globals σ}
    (h : loop env k (seeded w start) = some g) (hq : g.queue = []) :
    ∃ j g₁, iteration env (seeded w start) = some g₁ ∧ loop env j g₁ = some g := by
  cases k with
  | zero =>
    cases h
    cases hq
  | succ j =>
    rw [Nat.add_comm, loop_add] at h
    obtain ⟨g₁, h₁, hj⟩ := Option.bind_eq_some_iff.mp h
    exact ⟨j, g₁, h₁, hj⟩

theorem iteration_seeded (env : Env σ) (w : σ) (start : TqueueItem) :
    iteration env (seeded w start) =
      (parse env start ⟨[], w, false, [start], [start], []⟩).map (record start) := rfl

/-- A drained crawl of depth 0 has visited the start page and nothing else. -/
theorem visit_of_shallow {w : σ} {url : Str} (hd : d ≤ 0) {k : Nat} {g : Globals σ}
    (h : loop env k (seeded w ⟨url, d⟩) = some g) (hq : g.queue = []) :
    env.visit w url = .rejected g.world ∨ ∃ links, env.visit w url = .parsed g.world links := by
  obtain ⟨j, g₁, h₁, hj⟩ := loop_seeded h hq
  rw [iteration_seeded, parse] at h₁
  cases hv : env.visit w url with
  | thrown w' => simp [hv] at h₁
  | rejected w' =>
    simp only [hv, Option.map_some, Option.some.injEq] at h₁
    obtain rfl := h₁
    obtain rfl := loop_of_queue_nil env rfl hj
    exact .inl rfl
  | parsed w' links =>
    simp only [hv, if_neg (show ¬ d > 0 by omega), Option.map_some, Option.some.injEq] at h₁
    obtain rfl := h₁
    obtain rfl := loop_of_queue_nil env rfl hj
    exact .inr ⟨links, rfl⟩

/-- Two drained crawls agree as soon as their first visits do. -/
theorem loop_eq_of_visit {w w' : σ} {start : TqueueItem} {k k' : Nat} {g g' : Globals σ}
    (hv : env.visit w start.url = env.visit w' start.url)
    (h : loop env k (seeded w start) = some g) (h' : loop env k' (seeded w' start) = some g')
    (hq : g.queue = []) (hq' : g'.queue = []) : g = g' := by
  obtain ⟨j, g₁, h₁, hj⟩ := loop_seeded h hq
  obtain ⟨j', g₁', h₁', hj'⟩ := loop_seeded h' hq'
  have he : iteration env (seeded w start) = iteration env (seeded w' start) := by
    rw [iteration_seeded, iteration_seeded, parse, parse]
    simp only [hv]
  obtain rfl : g₁ = g₁' := Option.some.inj (h₁.symm.trans (he.trans h₁'))
  exact Sequential.loop_drained_unique env hj hj' hq hq'

end Shallow

section Agree

open SpiderSearch.Sequential (seeded pushUnseen iteration parse loop loop_add record)

variable {σ : Type} {env : Env σ} {work work' : TqueueItem} {g g' g₁ : Globals σ}

/-- The two states differ at most in what they record of the past. -/
structure Agree (g g' : Globals σ) : Prop where
  queue : g.queue = g'.queue
  world : g.world = g'.world

theorem agree_pushUnseen (hd : work.dept = work'.dept) (ha : Agree g g') {links : List Str}
    (h : pushUnseen env work g links = some g₁) :
    ∃ g₁', pushUnseen env work' g' links = some g₁' ∧ Agree g₁ g₁' := by
  induction links generalizing g g' with
  | nil =>
    cases h
    exact ⟨g', rfl, ha⟩
  | cons link rest ih =>
    rw [pushUnseen] at h ⊢
    rw [← ha.world, ← hd]
    cases hf : env.findUrl g.world link with
    | none => simp [hf] at h
    | some r =>
      obtain ⟨known, w⟩ := r
      rw [hf] at h
      cases known with
      | true =>
        have ha' : Agree { g with world := w } { g' with world := w } := ⟨ha.queue, rfl⟩
        exact ih ha' h
      | false =>
        have ha' : Agree (Globals.push { g with world := w } ⟨link, work.dept - 1⟩)
            (Globals.push { g' with world := w } ⟨link, work.dept - 1⟩) :=
          ⟨by simp [Globals.push, SafeQueue.push, ha.queue], rfl⟩
        exact ih ha' h

theorem agree_parse (hd : work.dept = work'.dept)
    (hv : env.visit g.world work.url = env.visit g.world work'.url) (ha : Agree g g')
    (h : parse env work g = some g₁) : ∃ g₁', parse env work' g' = some g₁' ∧ Agree g₁ g₁' := by
  rw [parse, hv] at h
  rw [parse, ← ha.world, ← hd]
  cases he : env.visit g.world work'.url with
  | thrown w => simp [he] at h
  | rejected w =>
    rw [he] at h
    cases h
    exact ⟨_, rfl, ha.queue, rfl⟩
  | parsed w links =>
    rw [he] at h
    have ha' : Agree { g with world := w } { g' with world := w } := ⟨ha.queue, rfl⟩
    dsimp only at h ⊢
    split_ifs at h ⊢ with hpos
    · exact agree_pushUnseen hd ha' h
    · cases h
      exact ⟨_, rfl, ha'⟩

theorem agree_iteration (ha : Agree g g') (h : iteration env g = some g₁) :
    ∃ g₁', iteration env g' = some g₁' ∧ Agree g₁ g₁' := by
  rw [iteration] at h
  cases hq : g.queue with
  | nil => simp [hq] at h
  | cons work rest =>
    rw [hq] at h
    obtain ⟨g₂, hp, rfl⟩ := Option.map_eq_some_iff.mp h
    have ha₀ : Agree { g with queue := rest, popped := g.popped ++ [work] }
        { g' with queue := rest, popped := g'.popped ++ [work] } := ⟨rfl, ha.world⟩
    obtain ⟨g₂', hp', ha'⟩ := agree_parse rfl rfl ha₀ hp
    refine ⟨record work g₂', ?_, ha'.queue, ha'.world⟩
    rw [iteration, ← ha.queue, hq]
    dsimp only
    rw [hp']
    rfl

theorem agree_loop (ha : Agree g g') {k : Nat} (h : loop env k g = some g₁) :
    ∃ g₁', loop env k g' = some g₁' ∧ Agree g₁ g₁' := by
  induction k generalizing g₁ with
  | zero =>
    cases h
    exact ⟨g', rfl, ha⟩
  | succ k ih =>
    obtain ⟨g₂, h₂, hi⟩ := Option.bind_eq_some_iff.mp h
    obtain ⟨g₂', h₂', ha₂⟩ := ih h₂
    obtain ⟨g₁', hi', ha₁⟩ := agree_iteration ha₂ hi
    exact ⟨g₁', Option.bind_eq_some_iff.mpr ⟨g₂', h₂', hi'⟩, ha₁⟩

/-- Two start links whose first visits do the same lead to the same crawl. -/
theorem agree_start {w : σ} {u u' : Str} (hv : env.visit w u = env.visit w u') {k : Nat}
    (h : loop env k (seeded w ⟨u, d⟩) = some g) (hq : g.queue = []) :
    ∃ j g', loop env j (seeded w ⟨u', d⟩) = some g' ∧ Agree g g' := by
  obtain ⟨j, g₁, h₁, hj⟩ := loop_seeded h hq
  rw [iteration_seeded] at h₁
  obtain ⟨g₂, hp, rfl⟩ := Option.map_eq_some_iff.mp h₁
  have ha₀ : Agree (⟨[], w, false, [⟨u, d⟩], [⟨u, d⟩], []⟩ : Globals σ)
      ⟨[], w, false, [⟨u', d⟩], [⟨u', d⟩], []⟩ := ⟨rfl, rfl⟩
  have hdept : (⟨u, d⟩ : TqueueItem).dept = (⟨u', d⟩ : TqueueItem).dept := rfl
  obtain ⟨g₂', hp', ha⟩ := agree_parse hdept hv ha₀ hp
  have ha' : Agree (record ⟨u, d⟩ g₂) (record ⟨u', d⟩ g₂') := ⟨ha.queue, ha.world⟩
  obtain ⟨g', hl, hag⟩ := agree_loop ha' hj
  refine ⟨1 + j, g', ?_, hag⟩
  rw [loop_add]
  refine Option.bind_eq_some_iff.mpr ⟨_, ?_, hl⟩
  change iteration env (seeded w ⟨u', d⟩) = _
  rw [iteration_seeded, hp']
  rfl

end Agree

/-- Visiting the start page once more finds it in the table and changes nothing. -/
theorem visit_again (hurl : SameUrl web start) (hans : FindUrlSucceeds server web start)
    {db w : Database} {links : List Str}
    (hv : (webEnv server web).visit db start = .parsed w links) :
    (webEnv server web).visit w start = .parsed w links ∨
      (webEnv server web).visit w start = .thrown w := by
  obtain ⟨url, words, hp, hc, hw⟩ := visit_parsed hv
  obtain rfl := hurl 0 start url (.refl start) ⟨words, .inr ⟨links, hp⟩⟩
  have hin : url ∈ w.urlTexts := by
    rw [hw]
    obtain ⟨hf, he⟩ | hf := tablesAfter_complete hc
    · rw [he]
      exact of_decide_eq_true (hans 0 url (.refl url) _ _ hf).symm
    · rw [hf.urls]
      exact List.mem_append_right _ (List.mem_singleton_self _)
  have hsame : tablesAfter (addLink server words url) w none = w := tablesAfter_of_mem hin none
  change visit server web w url = _ ∨ visit server web w url = _
  simp only [visit, hp, index, hsame]
  cases completes (addLink server words url) w none with
  | false => exact .inr rfl
  | true => exact .inl rfl

theorem drained_loop {n : Nat} {start : TqueueItem} {db : Database} {as : List (Thread n)}
    {s : Pool n Database}
    (h : run (WorkerPool.step (webEnv server web) start) (.initial n db) as = some s)
    (hs : Drained s) : ∃ k, Sequential.loop (webEnv server web) k (Sequential.seeded db start) =
      some s.globals :=
  ⟨_, loop_of_quiet h hs.pushed hs.quiet⟩

/-- After a crawl of depth 0 a second one does what it would have done on empty tables. -/
theorem second_crawl_of_shallow (hurl : SameUrl web start) (hans : FindUrlSucceeds server web start)
    {d₁ d₂ : Int} (hd : d₁ ≤ 0) {n₁ n₂ n₃ : Nat} {as₁ : List (Thread n₁)} {as₂ : List (Thread n₂)}
    {as₃ : List (Thread n₃)} {s₁ : Pool n₁ Database} {s₂ : Pool n₂ Database} {s₃ : Pool n₃ Database}
    (h₁ : run (WorkerPool.step (webEnv server web) ⟨start, d₁⟩) (.initial n₁ .empty) as₁ = some s₁)
    (h₂ : run (WorkerPool.step (webEnv server web) ⟨start, d₂⟩)
      (.initial n₂ s₁.globals.world) as₂ = some s₂)
    (h₃ : run (WorkerPool.step (webEnv server web) ⟨start, d₂⟩) (.initial n₃ .empty) as₃ = some s₃)
    (hs₁ : Drained s₁) (hs₂ : Drained s₂) (hs₃ : Drained s₃) : s₂.globals = s₃.globals := by
  obtain ⟨k₁, hl₁⟩ := drained_loop h₁ hs₁
  obtain ⟨k₂, hl₂⟩ := drained_loop h₂ hs₂
  obtain ⟨k₃, hl₃⟩ := drained_loop h₃ hs₃
  refine loop_eq_of_visit ?_ hl₂ hl₃ hs₂.queue hs₃.queue
  obtain hv | ⟨links, hv⟩ := visit_of_shallow hd hl₁ hs₁.queue
  · rw [(visit_rejected hv).2]
  · obtain ha | ha := visit_again hurl hans hv
    · rw [ha, hv]
    · obtain ⟨j, g, hg, -⟩ := loop_seeded hl₂ hs₂.queue
      have hthrown : (webEnv server web).visit s₁.globals.world start = _ := ha
      simp [iteration_seeded, Sequential.parse, hthrown] at hg

theorem chain_mono {d₁ d₂ : Nat} (hd : d₁ ≤ d₂) {u : Str} (h : Chain web d₁ start u) :
    Chain web d₂ start u := by
  obtain ⟨hs, k, hk, hw⟩ := h
  exact ⟨hs, k, hk.trans hd, hw⟩

/-- A crawl after another one indexes what it would have indexed alone exactly when the first
stopped at the start page or already reached everything. -/
theorem deepening_iff (server : Server) (web : Web) (start : Str) (hurl : SameUrl web start)
    (hans : FindUrlSucceeds server web start) (d₁ d₂ : Int) (hd : d₁ ≤ d₂) (n₁ n₂ n₃ : Nat)
    (as₁ : List (Thread n₁)) (as₂ : List (Thread n₂)) (as₃ : List (Thread n₃))
    (s₁ : Pool n₁ Database) (s₂ : Pool n₂ Database) (s₃ : Pool n₃ Database)
    (h₁ : run (WorkerPool.step (webEnv server web) ⟨start, d₁⟩) (.initial n₁ .empty) as₁ = some s₁)
    (h₂ : run (WorkerPool.step (webEnv server web) ⟨start, d₂⟩)
      (.initial n₂ s₁.globals.world) as₂ = some s₂)
    (h₃ : run (WorkerPool.step (webEnv server web) ⟨start, d₂⟩) (.initial n₃ .empty) as₃ = some s₃)
    (hs₁ : Drained s₁) (hs₂ : Drained s₂) (hs₃ : Drained s₃) :
    (∀ u, u ∈ s₂.globals.world.urlTexts ↔ u ∈ s₃.globals.world.urlTexts) ↔
      d₁ ≤ 0 ∨ ∀ u, Chain web d₂.toNat start u → Chain web d₁.toNat start u := by
  by_cases hd₁ : d₁ ≤ 0
  · have he := second_crawl_of_shallow hurl hans hd₁ h₁ h₂ h₃ hs₁ hs₂ hs₃
    exact ⟨fun _ => .inl hd₁, fun _ u => by rw [he]⟩
  · obtain ⟨e₁, rfl⟩ : ∃ e : Nat, d₁ = e := ⟨d₁.toNat, by omega⟩
    obtain ⟨e₂, rfl⟩ : ∃ e : Nat, d₂ = e := ⟨d₂.toNat, by omega⟩
    have hc₁ := mem_drained hurl hans h₁ hs₁.pushed hs₁.queue hs₁.quiet
    have hc₃ := mem_drained hurl hans h₃ hs₃.pushed hs₃.queue hs₃.quiet
    have hdb : ∀ u, Chain web 1 start u → u ∈ s₁.globals.world.urlTexts :=
      fun u hu => (hc₁ u).mpr (chain_mono (by omega) hu)
    have hc₂ := second_crawl_adds_nothing hurl hans hdb h₂ hs₂.quiet
    apply Iff.intro
    · intro heq
      exact .inr fun u hu => (hc₁ u).mp ((hc₂ u).mp ((heq u).mpr ((hc₃ u).mpr hu)))
    · rintro (hle | hsub) u
      · exact absurd hle hd₁
      · rw [hc₂, hc₁, hc₃]
        exact ⟨fun h => chain_mono (by omega) h, hsub u⟩

section Page

variable {getContent : Links.Link → Str} {parser : Links.HtmlParser}

theorem getURL_eq (parser : Links.HtmlParser) : parser.getURL = Links.linkToURL parser.link := rfl

theorem new_getURL (hn : Links.HtmlParser.new start = .ok parser) :
    ∃ parser', Links.HtmlParser.new parser.getURL = .ok parser' ∧ parser'.link = parser.link := by
  refine ⟨⟨Links.linkToURL parser.link, parser.link⟩, ?_, rfl⟩
  rw [Links.HtmlParser.new, getURL_eq, UrlKey.urlToLink_idem (Parse.urlToLink_of_new hn)]
  rfl

/-- The start page is read from the given link as it is from the URL it is stored under. -/
theorem page_getURL (getContent : Links.Link → Str) (hn : Links.HtmlParser.new start = .ok parser) :
    Parse.page getContent parser.getURL = Parse.page getContent start := by
  obtain ⟨parser', hn', hl⟩ := new_getURL hn
  rw [Parse.page, Parse.page, hn, hn']
  dsimp only
  rw [getURL_eq parser', getURL_eq parser, hl]

theorem sameUrl_getURL (getContent : Links.Link → Str)
    (hn : Links.HtmlParser.new start = .ok parser) :
    SameUrl (Parse.page getContent) parser.getURL := by
  intro k u url hw hi
  cases hw with
  | refl =>
    obtain ⟨parser', hn', hl⟩ := new_getURL hn
    obtain ⟨parser'', hn'', rfl⟩ := Parse.page_indexes hi
    obtain rfl := Except.ok.inj (hn'.symm.trans hn'')
    rw [getURL_eq, getURL_eq, hl]
  | snoc _ he => exact Parse.page_sameUrl he hi

/-- A drained crawl from a link is one from the URL its page is stored under. -/
theorem drained_from_getURL (hn : Links.HtmlParser.new start = .ok parser) {n : Nat} {db : Database}
    {as : List (Thread n)} {s : Pool n Database}
    (h : run (WorkerPool.step (webEnv server (Parse.page getContent)) ⟨start, d⟩) (.initial n db) as =
      some s) (hs : Drained s) :
    ∃ bs t, run (WorkerPool.step (webEnv server (Parse.page getContent)) ⟨parser.getURL, d⟩)
        (.initial 1 db) bs = some t ∧ Drained t ∧ t.globals.world = s.globals.world := by
  obtain ⟨k, hl⟩ := drained_loop h hs
  have hv : (webEnv server (Parse.page getContent)).visit db start =
      (webEnv server (Parse.page getContent)).visit db parser.getURL := by
    change visit server (Parse.page getContent) db start = visit server (Parse.page getContent) db _
    rw [visit, visit, page_getURL getContent hn]
  obtain ⟨j, g, hg, ha⟩ := agree_start hv hl hs.queue
  obtain ⟨-, bs, hr⟩ := LoneWorker.run_loop hg
  exact ⟨bs, _, hr, ⟨rfl, ha.queue.symm.trans hs.queue, LoneWorker.solo_quiet g⟩, ha.world.symm⟩

theorem new_of_drained {n : Nat} {db : Database} {as : List (Thread n)} {s : Pool n Database}
    (h : run (WorkerPool.step (webEnv server (Parse.page getContent)) ⟨start, d⟩) (.initial n db) as =
      some s) (hs : Drained s) : ∃ parser, Links.HtmlParser.new start = .ok parser := by
  obtain ⟨k, hl⟩ := drained_loop h hs
  obtain ⟨j, g, hg, -⟩ := loop_seeded hl hs.queue
  cases hn : Links.HtmlParser.new start with
  | ok parser => exact ⟨parser, rfl⟩
  | error e =>
    have hv : (webEnv server (Parse.page getContent)).visit db start = .thrown db := by
      change visit server (Parse.page getContent) db start = _
      simp [visit, Parse.page, hn]
    simp [iteration_seeded, Sequential.parse, hv] at hg

/-- A drained crawl of a site has stored the pages within its depth. -/
theorem mem_drained_getURL (hn : Links.HtmlParser.new start = .ok parser)
    (hans : FindUrlSucceeds server (Parse.page getContent) parser.getURL) {d n : Nat}
    {as : List (Thread n)} {s : Pool n Database}
    (h : run (WorkerPool.step (webEnv server (Parse.page getContent)) ⟨start, d⟩) (.initial n .empty)
      as = some s) (hs : Drained s) (u : Str) :
    u ∈ s.globals.world.urlTexts ↔ Chain (Parse.page getContent) d parser.getURL u := by
  obtain ⟨bs, t, ht, hdt, hw⟩ := drained_from_getURL hn h hs
  rw [← hw]
  exact mem_drained (sameUrl_getURL getContent hn) hans ht hdt.pushed hdt.queue hdt.quiet u

/-- Crawling deeper over what an earlier crawl has indexed gives what the deeper crawl gives alone
exactly when the earlier one stopped at the start page or already reached everything. -/
theorem deepening (server : Server) (getContent : Links.Link → Str) (start : Str)
    (hans : ∀ parser, Links.HtmlParser.new start = .ok parser →
      FindUrlSucceeds server (Parse.page getContent) parser.getURL)
    (d₁ d₂ : Int) (hd : d₁ ≤ d₂) (n₁ n₂ n₃ : Nat) (as₁ : List (Thread n₁)) (as₂ : List (Thread n₂))
    (as₃ : List (Thread n₃)) (s₁ : Pool n₁ Database) (s₂ : Pool n₂ Database) (s₃ : Pool n₃ Database)
    (h₁ : run (WorkerPool.step (webEnv server (Parse.page getContent)) ⟨start, d₁⟩)
      (.initial n₁ .empty) as₁ = some s₁)
    (h₂ : run (WorkerPool.step (webEnv server (Parse.page getContent)) ⟨start, d₂⟩)
      (.initial n₂ s₁.globals.world) as₂ = some s₂)
    (h₃ : run (WorkerPool.step (webEnv server (Parse.page getContent)) ⟨start, d₂⟩)
      (.initial n₃ .empty) as₃ = some s₃)
    (hs₁ : Drained s₁) (hs₂ : Drained s₂) (hs₃ : Drained s₃) :
    ∃ parser, Links.HtmlParser.new start = .ok parser ∧
      ((∀ u, u ∈ s₂.globals.world.urlTexts ↔ u ∈ s₃.globals.world.urlTexts) ↔
        d₁ ≤ 0 ∨ ∀ u, Chain (Parse.page getContent) d₂.toNat parser.getURL u →
          Chain (Parse.page getContent) d₁.toNat parser.getURL u) := by
  obtain ⟨parser, hn⟩ := new_of_drained h₁ hs₁
  obtain ⟨bs₁, t₁, r₁, ht₁, hw₁⟩ := drained_from_getURL hn h₁ hs₁
  obtain ⟨bs₂, t₂, r₂, ht₂, hw₂⟩ := drained_from_getURL hn h₂ hs₂
  obtain ⟨bs₃, t₃, r₃, ht₃, hw₃⟩ := drained_from_getURL hn h₃ hs₃
  rw [← hw₁] at r₂
  have hiff := deepening_iff server _ parser.getURL (sameUrl_getURL getContent hn) (hans parser hn)
    d₁ d₂ hd 1 1 1 bs₁ bs₂ bs₃ t₁ t₂ t₃ r₁ r₂ r₃ ht₁ ht₂ ht₃
  rw [hw₂, hw₃] at hiff
  exact ⟨parser, hn, hiff⟩

section Diamond

open SpiderSearch.VisitOnce (diamond root left right bottom visit_of_oneWord diamond_root diamond_left
  diamond_loop diamond_shallow diamond_findUrl root_plain)

theorem drained_of_loop {w : Database} {k : Nat} {start : TqueueItem} {g : Globals Database}
    (h : Sequential.loop (webEnv server web) k (Sequential.seeded w start) = some g)
    (hq : g.queue = []) :
    ∃ as s, run (WorkerPool.step (webEnv server web) start) (.initial 1 w) as = some s ∧
      Drained s ∧ s.globals.world = g.world := by
  obtain ⟨-, as, hr⟩ := LoneWorker.run_loop h
  exact ⟨as, _, hr, ⟨rfl, hq, LoneWorker.solo_quiet g⟩, rfl⟩

theorem diamond_new : Links.HtmlParser.new root = .ok ⟨root, .HTTP, str "a.b", str "/"⟩ := rfl

theorem diamond_asked (parser : Links.HtmlParser) (hn : Links.HtmlParser.new root = .ok parser) :
    FindUrlSucceeds strict (Parse.page diamond) parser.getURL := by
  obtain rfl := Except.ok.inj (diamond_new.symm.trans hn)
  exact diamond_findUrl

theorem diamond_deepened : ∃ as₁ as₂ as₃ s₁ s₂ s₃,
    run (WorkerPool.step (webEnv strict (Parse.page diamond)) ⟨root, 0⟩) (.initial 1 .empty) as₁ =
      some s₁ ∧
    run (WorkerPool.step (webEnv strict (Parse.page diamond)) ⟨root, 1⟩)
      (.initial 1 s₁.globals.world) as₂ = some s₂ ∧
    run (WorkerPool.step (webEnv strict (Parse.page diamond)) ⟨root, 1⟩) (.initial 1 .empty) as₃ =
      some s₃ ∧
    Drained s₁ ∧ Drained s₂ ∧ Drained s₃ ∧
    ∀ u, u ∈ s₂.globals.world.urlTexts ↔ u ∈ s₃.globals.world.urlTexts := by
  obtain ⟨db₁, hv, hu⟩ := visit_of_oneWord strict root_plain diamond_root .empty
  have hl₁ : Sequential.loop (webEnv strict (Parse.page diamond)) 1
      (Sequential.seeded .empty ⟨root, 0⟩) =
        some ⟨[], db₁, false, [⟨root, 0⟩], [⟨root, 0⟩], [⟨root, 0⟩]⟩ := by
    simp [Sequential.loop, Sequential.seeded, Globals.initial, Globals.push, SafeQueue.push,
      Sequential.iteration, Sequential.parse, Sequential.record, hv]
  have honly : ∀ u ∈ db₁.urlTexts, u = root := fun u h => by
    simpa [Database.urlTexts, Database.empty] using (hu u).mp h
  obtain ⟨db₂, -, hl₂⟩ := diamond_shallow db₁ honly
  obtain ⟨db₃, -, hl₃⟩ := diamond_shallow .empty (List.forall_mem_nil _)
  obtain ⟨as₁, s₁, r₁, hs₁, hw₁⟩ := drained_of_loop hl₁ rfl
  obtain ⟨as₂, s₂, r₂, hs₂, -⟩ := drained_of_loop hl₂ rfl
  obtain ⟨as₃, s₃, r₃, hs₃, -⟩ := drained_of_loop hl₃ rfl
  obtain rfl : s₁.globals.world = db₁ := hw₁
  obtain ⟨parser, -, hiff⟩ := deepening strict diamond root
    (fun parser hn => by
      obtain rfl := Except.ok.inj (diamond_new.symm.trans hn)
      exact diamond_findUrl)
    0 1 (by decide) 1 1 1 as₁ as₂ as₃ s₁ s₂ s₃ r₁ r₂ r₃ hs₁ hs₂ hs₃
  exact ⟨as₁, as₂, as₃, s₁, s₂, s₃, r₁, r₂, r₃, hs₁, hs₂, hs₃, hiff.mpr (.inl le_rfl)⟩

/-- The second crawl does not look behind the pages that the first one has stored. -/
theorem bottom_missed : ¬ ∀ (server : Server) (getContent : Links.Link → Str) (start : Str) (d₁ d₂ : Int),
    d₁ ≤ d₂ → ∀ (n₁ n₂ n₃ : Nat) (as₁ : List (Thread n₁)) (as₂ : List (Thread n₂))
      (as₃ : List (Thread n₃)) (s₁ : Pool n₁ Database) (s₂ : Pool n₂ Database) (s₃ : Pool n₃ Database),
      run (WorkerPool.step (webEnv server (Parse.page getContent)) ⟨start, d₁⟩)
        (.initial n₁ .empty) as₁ = some s₁ →
      run (WorkerPool.step (webEnv server (Parse.page getContent)) ⟨start, d₂⟩)
        (.initial n₂ s₁.globals.world) as₂ = some s₂ →
      run (WorkerPool.step (webEnv server (Parse.page getContent)) ⟨start, d₂⟩)
        (.initial n₃ .empty) as₃ = some s₃ →
      Drained s₁ → Drained s₂ → Drained s₃ →
      ∀ u, u ∈ s₂.globals.world.urlTexts ↔ u ∈ s₃.globals.world.urlTexts := by
  intro h
  obtain ⟨db₁, hu₁, hl₁⟩ := diamond_shallow .empty nofun
  obtain ⟨db₂, hv, hu₂⟩ := visit_of_oneWord strict root_plain diamond_root db₁
  obtain ⟨db₃, hu₃, hl₃⟩ := diamond_loop
  have known : ∀ v ∈ [left, right],
      (webEnv strict (Parse.page diamond)).findUrl db₂ v = some (true, db₂) := by
    intro v hm
    have hplain : SqlText.quote ∉ v := (by decide : ∀ v ∈ [left, right], SqlText.quote ∉ v) v hm
    have hin : v ∈ db₂.urlTexts := (hu₂ v).mpr (.inl ((hu₁ v).mpr (List.mem_cons_of_mem _ hm)))
    simp [webEnv, findUrl_plain strict hplain, hin]
  have hl₂ : Sequential.loop (webEnv strict (Parse.page diamond)) 1 (Sequential.seeded db₁ ⟨root, 2⟩) =
      some ⟨[], db₂, false, [⟨root, 2⟩], [⟨root, 2⟩], [⟨root, 2⟩]⟩ := by
    simp [Sequential.loop, Sequential.seeded, Globals.initial, Globals.push, SafeQueue.push,
      Sequential.iteration, Sequential.parse, Sequential.pushUnseen, Sequential.record, hv,
      known left (by simp), known right (by simp)]
  obtain ⟨as₁, s₁, r₁, hs₁, hw₁⟩ := drained_of_loop hl₁ rfl
  obtain ⟨as₂, s₂, r₂, hs₂, hw₂⟩ := drained_of_loop hl₂ rfl
  obtain ⟨as₃, s₃, r₃, hs₃, hw₃⟩ := drained_of_loop hl₃ rfl
  obtain rfl : s₁.globals.world = db₁ := hw₁
  have heq := h strict diamond root 1 2 (by decide) 1 1 1 as₁ as₂ as₃ s₁ s₂ s₃ r₁ r₂ r₃ hs₁ hs₂ hs₃
  have hin : bottom ∈ s₂.globals.world.urlTexts := (heq bottom).mpr (by rw [hw₃]; exact hu₃)
  rw [hw₂] at hin
  obtain hin | hin := (hu₂ bottom).mp hin
  · exact absurd ((hu₁ bottom).mp hin) (by decide)
  · exact absurd hin (by decide)

end Diamond

end Page

end SpiderSearch.Deepening
