import SpiderSearch.IndexTruth
import SpiderSearch.LoneWorker

namespace SpiderSearch.WebCrawl

open CppTypes Tables DbSession DbClient AddLink DoWork Runs WorkerPool PoolLock SqlText
open SpiderSearch.LoneWorker (solo twoVisits run_twoVisits)

/-- What a URL is to `HTML_Parser`: the constructor throws, `parse()` is false, the page is
indexed under `GetURL()` and reading its links then throws, or `parse()` is true. -/
inductive Page where
  | badUrl
  | rejected
  | badLink (url : Str) (wordCount : StdMap Nat)
  | parsed (url : Str) (wordCount : StdMap Nat) (subLinks : List Str)

abbrev Web := Str → Page

/-- `db.addLink(wordCount, GetURL())` without a failure from outside. -/
def index (server : Server) (wordCount : StdMap Nat) (url : Str) (db : Database) : Bool × Database :=
  (completes (addLink server wordCount url) db none, tablesAfter (addLink server wordCount url) db none)

def visit (server : Server) (web : Web) (db : Database) (link : Str) : Visit Database :=
  match web link with
  | .badUrl => .thrown db
  | .rejected => .rejected db
  | .badLink url wordCount => .thrown (index server wordCount url db).2
  | .parsed url wordCount subLinks =>
    match index server wordCount url db with
    | (true, db') => .parsed db' subLinks
    | (false, db') => .thrown db'

def webEnv (server : Server) (web : Web) : Env Database where
  visit := visit server web
  findUrl db link :=
    match findUrl server link db with
    | .ok id => some (id, db)
    | .error _ => none

section TwoWorkers

variable {σ : Type} {env : Env σ} {start : TqueueItem} {g : Globals σ} {mutex : Option (Fin 2)}
  {p q : Pc}

def duo (g : Globals σ) (mutex : Option (Fin 2)) (p q : Pc) : Pool 2 σ :=
  ⟨g, mutex, ![p, q], .joining 0⟩

@[simp] theorem duo_globals : (duo g mutex p q).globals = g := rfl

@[simp] theorem duo_mutex : (duo g mutex p q).mutex = mutex := rfl

@[simp] theorem duo_pc_one : (duo g mutex p q).pc 0 = p := rfl

@[simp] theorem duo_pc_two : (duo g mutex p q).pc 1 = q := rfl

@[simp] theorem duo_mk (g' : Globals σ) (mutex' : Option (Fin 2)) :
    ⟨g', mutex', (duo g mutex p q).pc, (duo g mutex p q).main⟩ = duo g' mutex' p q := rfl

@[simp] theorem duo_goto_one (r : Pc) : (duo g mutex p q).goto 0 r = duo g mutex r q := by
  have hr : Function.update ![p, q] 0 r = ![r, q] := by
    funext j
    fin_cases j <;> rfl
  simp only [duo, Pool.goto, hr]

@[simp] theorem duo_goto_two (r : Pc) : (duo g mutex p q).goto 1 r = duo g mutex p r := by
  have hr : Function.update ![p, q] 1 r = ![p, r] := by
    funext j
    fin_cases j <;> rfl
  simp only [duo, Pool.goto, hr]

theorem run_both (env : Env σ) (start : TqueueItem) (w : σ) :
    run (step env start) (.initial 2 w) [.main, .main, .main, one, two] =
      some (duo ⟨[start], w, false, [start], [], []⟩ none .lock .lock) := by
  have hm : run (step env start) (.initial 2 w) [.main, .main, .main] =
      some (duo ⟨[start], w, false, [start], [], []⟩ none .empty .empty) := by
    have hpc : Function.update (Function.update (fun _ : Fin 2 => Pc.absent) 0 .empty) 1 .empty =
        ![.empty, .empty] := by
      funext j
      fin_cases j <;> rfl
    rw [duo, ← hpc]
    rfl
  rw [show [.main, .main, .main, one, two] = [.main, .main, .main] ++ [one, two] from rfl, run_append,
    hm]
  simp [one, two, step, workerStep, SafeQueue.empty]

/-- Both workers see the start link. One of them reads its page while the other waits for the mutex
and then reads the page behind it. -/
def twoWorkers : List (Thread 2) :=
  [.main, .main, .main, one, two] ++ List.replicate 6 two ++ List.replicate 4 one

theorem run_twoWorkers {w₀ w₁ w₂ : σ} {v : Str} (hd : 0 < start.dept)
    (h₁ : env.visit w₀ start.url = .parsed w₁ [v]) (h₂ : env.findUrl w₁ v = some (false, w₁))
    (h₃ : env.visit w₁ v = .parsed w₂ []) :
    run (step env start) (.initial 2 w₀) twoWorkers =
      some (duo ⟨[], w₂, false, [start, ⟨v, start.dept - 1⟩], [start, ⟨v, start.dept - 1⟩],
        [start, ⟨v, start.dept - 1⟩]⟩ none .empty .empty) := by
  have htwo : run (step env start) (duo ⟨[start], w₀, false, [start], [], []⟩ none .lock .lock)
      (List.replicate 6 two) =
      some (duo ⟨[⟨v, start.dept - 1⟩], w₁, false, [start, ⟨v, start.dept - 1⟩], [start], [start]⟩
        none .lock .empty) := by
    simp [two, List.replicate, step, workerStep, body, Globals.pop, Globals.push, SafeQueue.pop,
      SafeQueue.push, forSubLinks, h₁, h₂, hd]
  have hone : run (step env start)
      (duo ⟨[⟨v, start.dept - 1⟩], w₁, false, [start, ⟨v, start.dept - 1⟩], [start], [start]⟩
        none .lock .empty) (List.replicate 4 one) =
      some (duo ⟨[], w₂, false, [start, ⟨v, start.dept - 1⟩], [start, ⟨v, start.dept - 1⟩],
        [start, ⟨v, start.dept - 1⟩]⟩ none .empty .empty) := by
    simp [one, List.replicate, step, workerStep, body, Globals.pop, SafeQueue.pop, forSubLinks, h₃]
  simp only [twoWorkers, run_append, run_both, Option.bind_some, htwo, hone]

end TwoWorkers

theorem visit_of_valid (server : Server) {web : Web} {c : IndexTruth.Call} (hv : c.Valid) {u : Str}
    {links : List Str} (hw : web u = .parsed c.link c.words links) (db : Database)
    (hn : c.link ∉ db.urlTexts) :
    ∃ db', (webEnv server web).visit db u = .parsed db' links ∧
      db'.urlTexts = db.urlTexts ++ [c.link] := by
  have hc := IndexTruth.completes_uncut server hv db
  refine ⟨tablesAfter (addLink server c.words c.link) db none, ?_, ?_⟩
  · change visit server web db u = _
    simp only [visit, hw, index, hc]
  · obtain ⟨hf, -⟩ | hf := tablesAfter_complete hc
    · rw [findUrl_plain server hv.link] at hf
      exact absurd (of_decide_eq_true (Except.ok.inj hf)) hn
    · exact hf.urls

def second : Str := str "http://a.b/c"

/-- The start page and a page it links to. -/
def twoPages : Web := fun u =>
  if u = home.url then .parsed u oneWord [second]
  else if u = second then .parsed u oneWord []
  else .rejected

theorem home_valid : IndexTruth.Call.Valid ⟨oneWord, home.url, none⟩ :=
  IndexTruth.oneWord_valid (by decide) none

theorem second_valid : IndexTruth.Call.Valid ⟨oneWord, second, none⟩ :=
  IndexTruth.oneWord_valid (by decide) none

theorem second_ne_home : second ≠ home.url := by decide

theorem twoPages_visits : ∃ db₁ db₂, db₁.urlTexts = [home.url] ∧ db₂.urlTexts = [home.url, second] ∧
    (webEnv strict twoPages).visit .empty home.url = .parsed db₁ [second] ∧
    (webEnv strict twoPages).findUrl db₁ second = some (false, db₁) ∧
    (webEnv strict twoPages).visit db₁ second = .parsed db₂ [] := by
  have hhome : twoPages home.url = .parsed home.url oneWord [second] := if_pos rfl
  have hsecond : twoPages second = .parsed second oneWord [] := by
    rw [twoPages, if_neg second_ne_home, if_pos rfl]
  obtain ⟨db₁, h₁, hu₁⟩ := visit_of_valid strict home_valid hhome .empty List.not_mem_nil
  have hu₁' : db₁.urlTexts = [home.url] := hu₁
  have hn : second ∉ db₁.urlTexts := by simp [hu₁', second_ne_home]
  have h₂ : (webEnv strict twoPages).findUrl db₁ second = some (false, db₁) := by
    simp [webEnv, findUrl_plain strict second_valid.link, hn]
  obtain ⟨db₂, h₃, hu₂⟩ := visit_of_valid strict second_valid hsecond db₁ hn
  exact ⟨db₁, db₂, hu₁', by rw [hu₂, hu₁']; rfl, h₁, h₂, h₃⟩

theorem run_twoPages {d : Int} (hd : 0 < d) : ∃ db, db.urlTexts = [home.url, second] ∧
    run (step (webEnv strict twoPages) ⟨home.url, d⟩) (.initial 1 .empty) twoVisits =
      some (solo ⟨[], db, false, [⟨home.url, d⟩, ⟨second, d - 1⟩], [⟨home.url, d⟩, ⟨second, d - 1⟩],
        [⟨home.url, d⟩, ⟨second, d - 1⟩]⟩ none .empty) := by
  obtain ⟨db₁, db₂, -, hu, h₁, h₂, h₃⟩ := twoPages_visits
  have hstart : 0 < (⟨home.url, d⟩ : TqueueItem).dept := hd
  exact ⟨db₂, hu, run_twoVisits hstart h₁ h₂ h₃⟩

theorem twoPages_run : ∃ db, db.urlTexts = [home.url, second] ∧
    run (step (webEnv strict twoPages) home) (.initial 1 .empty) twoVisits =
      some (solo ⟨[], db, false, [home, ⟨second, 0⟩], [home, ⟨second, 0⟩], [home, ⟨second, 0⟩]⟩
        none .empty) :=
  run_twoPages Int.one_pos

/-- The concurrent crawler and the sequential loop agree whenever no worker is inside the lock,
so the schedule leaves no trace once the queue is drained. -/
theorem crawler_refines_loop (server : Server) (web : Web) (start : TqueueItem) (db : Database) :
    (∀ (n : Nat) (as : List (Thread n)) (s : Pool n Database),
      run (step (webEnv server web) start) (.initial n db) as = some s → s.pushed = true → s.Quiet →
        ∃ g, Sequential.loop (webEnv server web) s.globals.popped.length
            (Sequential.seeded db start) = some g ∧
          s.globals.queue = g.queue ∧ s.globals.world = g.world ∧ s.globals.popped = g.popped) ∧
    (∀ (n₁ n₂ : Nat) (as₁ : List (Thread n₁)) (as₂ : List (Thread n₂)) (s₁ : Pool n₁ Database)
        (s₂ : Pool n₂ Database),
      run (step (webEnv server web) start) (.initial n₁ db) as₁ = some s₁ →
      run (step (webEnv server web) start) (.initial n₂ db) as₂ = some s₂ →
      s₁.pushed = true → s₂.pushed = true → s₁.Quiet → s₂.Quiet →
      s₁.globals.queue = [] → s₂.globals.queue = [] →
        s₁.globals.popped = s₂.globals.popped ∧ s₁.globals.processed = s₂.globals.processed ∧
          s₁.globals.world = s₂.globals.world) := by
  apply And.intro
  · intro n as s h hp hq
    exact ⟨s.globals, PoolRefines.loop_of_quiet h hp hq, rfl, rfl, rfl⟩
  · intro n₁ n₂ as₁ as₂ s₁ s₂ h₁ h₂ hp₁ hp₂ hq₁ hq₂ he₁ he₂
    have he := PoolRefines.drained_unique h₁ h₂ hp₁ hp₂ hq₁ hq₂ he₁ he₂
    exact ⟨by rw [he], by rw [he], by rw [he]⟩

/-- One worker and two: the sequential loop ends with the same two pages. -/
theorem twoPages_drained : ∃ s₁ s₂ g,
    run (step (webEnv strict twoPages) home) (.initial 1 .empty) twoVisits = some s₁ ∧
    run (step (webEnv strict twoPages) home) (.initial 2 .empty) twoWorkers = some s₂ ∧
    Sequential.loop (webEnv strict twoPages) 2 (Sequential.seeded .empty home) = some g ∧
    g.world.urlTexts = [home.url, second] ∧ s₂.globals.queue = [] ∧ s₂.globals.world = g.world ∧
    s₁.globals.popped = s₂.globals.popped ∧ s₁.globals.processed = s₂.globals.processed ∧
      s₁.globals.world = s₂.globals.world := by
  obtain ⟨db₁, db₂, -, hu, v₁, hf, v₂⟩ := twoPages_visits
  have h₁ : run (step (webEnv strict twoPages) home) (.initial 1 .empty) twoVisits = some _ :=
    run_twoVisits Int.one_pos v₁ hf v₂
  have h₂ : run (step (webEnv strict twoPages) home) (.initial 2 .empty) twoWorkers = some _ :=
    run_twoWorkers Int.one_pos v₁ hf v₂
  obtain ⟨hloop, hunique⟩ := crawler_refines_loop strict twoPages home .empty
  have hq₁ := (inv_run h₁).quiet rfl
  have hq₂ := (inv_run h₂).quiet rfl
  obtain ⟨g, hg, -, hw, -⟩ := hloop 2 twoWorkers _ h₂ rfl hq₂
  have hw' : db₂ = g.world := hw
  have hsame := hunique 1 2 twoVisits twoWorkers _ _ h₁ h₂ rfl rfl hq₁ hq₂ rfl rfl
  exact ⟨_, _, g, h₁, h₂, hg, by rw [← hw', hu], rfl, hw, hsame⟩

variable {server : Server} {web : Web} {db db' : Database} {link : Str}

inductive VisitStep (server : Server) (web : Web) (db : Database) (link : Str) :
    Visit Database → Prop
  | badUrl (h : web link = .badUrl) : VisitStep server web db link (.thrown db)
  | rejected (h : web link = .rejected) : VisitStep server web db link (.rejected db)
  | badLink (url : Str) (wordCount : StdMap Nat) (h : web link = .badLink url wordCount) :
      VisitStep server web db link (.thrown (tablesAfter (addLink server wordCount url) db none))
  | failed (url : Str) (wordCount : StdMap Nat) (subLinks : List Str)
      (h : web link = .parsed url wordCount subLinks) :
      VisitStep server web db link (.thrown (tablesAfter (addLink server wordCount url) db none))
  | parsed (url : Str) (wordCount : StdMap Nat) (subLinks : List Str)
      (h : web link = .parsed url wordCount subLinks)
      (hc : completes (addLink server wordCount url) db none = true) :
      VisitStep server web db link
        (.parsed (tablesAfter (addLink server wordCount url) db none) subLinks)

theorem visit_step (server : Server) (web : Web) (db : Database) (link : Str) :
    VisitStep server web db link (visit server web db link) := by
  cases hw : web link with
  | badUrl => simpa only [visit, hw] using VisitStep.badUrl hw
  | rejected => simpa only [visit, hw] using VisitStep.rejected hw
  | badLink url wordCount => simpa only [visit, hw, index] using VisitStep.badLink url wordCount hw
  | parsed url wordCount subLinks =>
    cases hc : completes (addLink server wordCount url) db none with
    | false => simpa only [visit, hw, index, hc] using VisitStep.failed url wordCount subLinks hw
    | true => simpa only [visit, hw, index, hc] using VisitStep.parsed url wordCount subLinks hw hc

theorem visit_rejected (h : (webEnv server web).visit db link = .rejected db') :
    web link = .rejected ∧ db' = db := by
  have hs := visit_step server web db link
  rw [show visit server web db link = .rejected db' from h] at hs
  cases hs with
  | rejected hw => exact ⟨hw, rfl⟩

theorem visit_parsed {subLinks : List Str}
    (h : (webEnv server web).visit db link = .parsed db' subLinks) :
    ∃ url wordCount, web link = .parsed url wordCount subLinks ∧
      completes (addLink server wordCount url) db none = true ∧
      db' = tablesAfter (addLink server wordCount url) db none := by
  have hs := visit_step server web db link
  rw [show visit server web db link = .parsed db' subLinks from h] at hs
  cases hs with
  | parsed url wordCount subLinks hw hc => exact ⟨url, wordCount, hw, hc, rfl⟩

theorem visit_thrown (h : (webEnv server web).visit db link = .thrown db') :
    db' = db ∨ ∃ url wordCount, (web link = .badLink url wordCount ∨
      ∃ subLinks, web link = .parsed url wordCount subLinks) ∧
      db' = tablesAfter (addLink server wordCount url) db none := by
  have hs := visit_step server web db link
  rw [show visit server web db link = .thrown db' from h] at hs
  cases hs with
  | badUrl hw => exact .inl rfl
  | badLink url wordCount hw => exact .inr ⟨url, wordCount, .inl hw, rfl⟩
  | failed url wordCount subLinks hw => exact .inr ⟨url, wordCount, .inr ⟨subLinks, hw⟩, rfl⟩

theorem findUrl_answer {id : Bool} (h : (webEnv server web).findUrl db link = some (id, db')) :
    findUrl server link db = .ok id ∧ db' = db := by
  change (match findUrl server link db with
    | .ok id => some (id, db)
    | .error _ => none) = _ at h
  split at h
  next he =>
    cases h
    exact ⟨he, rfl⟩
  · cases h

/-- A visit leaves the tables alone or calls `addLink` once. -/
theorem visit_world (server : Server) (web : Web) (db : Database) (link : Str) :
    (visit server web db link).world = db ∨ ∃ wordCount url, (visit server web db link).world =
      tablesAfter (addLink server wordCount url) db none := by
  have h := visit_step server web db link
  generalize visit server web db link = v at h
  cases h with
  | badUrl | rejected => exact .inl rfl
  | badLink url wordCount _ | failed url wordCount _ _ | parsed url wordCount _ _ _ =>
    exact .inr ⟨wordCount, url, rfl⟩

/-- What holds between the tables before and after each call of `addLink` holds between those of
any two states of a run. -/
theorem tables_run {R : Database → Database → Prop} (hrefl : ∀ db, R db db)
    (htrans : ∀ db db' db'', R db db' → R db' db'' → R db db'')
    (hadd : ∀ db wordCount url, R db (tablesAfter (addLink server wordCount url) db none))
    {start : TqueueItem} {n : Nat} {s t : Pool n Database} {as : List (Thread n)}
    (h : run (step (webEnv server web) start) s as = some t) :
    R s.globals.world t.globals.world := by
  refine world_run (I := R s.globals.world) ?_ ?_ (hrefl _) h
  · intro db link hdb
    obtain he | ⟨wordCount, url, he⟩ := visit_world server web db link
    · rwa [show ((webEnv server web).visit db link).world = db from he]
    · rw [show ((webEnv server web).visit db link).world = _ from he]
      exact htrans _ _ _ hdb (hadd db wordCount url)
  · intro db link id db' hdb hfind
    rwa [(findUrl_answer hfind).2]

end SpiderSearch.WebCrawl
