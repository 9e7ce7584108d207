import SpiderSearch.IndexAtomic
import SpiderSearch.IndexTruth
import SpiderSearch.WebCrawl

namespace SpiderSearch.Statements

open CppTypes Tables StoredRows DbSession DbClient AddLink IndexTruth DoWork Runs WorkerPool WebCrawl

variable {server : Server} {web : Web} {start : TqueueItem} {n : Nat}

/-- The call of `addLink` that the visit of a page makes. -/
def callOf (page : Page) (cut : Nat) : Option Call :=
  match page with
  | .badUrl | .rejected => none
  | .badLink url wordCount | .parsed url wordCount _ => some ⟨wordCount, url, some cut⟩

/-- Where the worker stands that has the lock. -/
def stage (s : Pool n Database) : Option Stage :=
  s.mutex.bind fun i =>
    match s.pc i with
    | .locked st => some st
    | _ => none

/-- A moment of a crawl. Where a worker visits its page, it has executed `statements` of those of
`addLink`. An exception of the database ends the process with `failed`. -/
structure Moment (n : Nat) where
  pool : Pool n Database
  statements : Nat
  failed : Bool

def Moment.initial (n : Nat) (db : Database) : Moment n := ⟨.initial n db, 0, false⟩

def Moment.ended (s : Moment n) : Bool := s.failed || s.pool.globals.terminated

/-- The call that is under way, or was when the database failed. -/
def Moment.call (web : Web) (s : Moment n) : Option Call :=
  if s.pool.globals.terminated then none
  else
    match stage s.pool with
    | some (.visit work) => callOf (web work.url) s.statements
    | _ => none

/-- The committed tables. -/
def Moment.tables (server : Server) (web : Web) (s : Moment n) : Database :=
  match s.call web with
  | none => s.pool.globals.world
  | some c => c.run server s.pool.globals.world

/-- The URLs in the tables that come from the call under way. -/
def Moment.unfinished (server : Server) (web : Web) (s : Moment n) : Finset Str :=
  (s.tables server web).urlTexts.toFinset \ s.pool.globals.world.urlTexts.toFinset

/-- No call of `addLink` executes more statements. -/
def maxStatements (c : Call) : Nat := 4 * c.words.size + 5

/-- A statement of `addLink` or `findUrl` is next. -/
def Moment.asks (web : Web) (s : Moment n) : Bool :=
  match stage s.pool with
  | some (.visit _) => (s.call web).isSome
  | some (.findUrl _ _ _) => true
  | _ => false

inductive Move (n : Nat) where
  | thread (t : Thread n)
  | statement
  | failure

/-- The count begins anew with every step of the worker that has the lock. -/
def Moment.count (s : Moment n) : Thread n → Nat
  | .main => s.statements
  | .worker i => if s.pool.mutex = some i then 0 else s.statements

/-- A thread takes its next step, where that of a visit executes the statements that are left; or one
statement is executed; or a statement fails, for whatever reason the database has. -/
def step (server : Server) (web : Web) (start : TqueueItem) (s : Moment n) (m : Move n) :
    Option (Moment n) :=
  if s.ended then none
  else
    match m with
    | .thread t =>
      (WorkerPool.step (webEnv server web) start s.pool t).map fun pool =>
        { s with pool := pool, statements := s.count t }
    | .statement =>
      (s.call web).bind fun c =>
        if s.statements < maxStatements c then some { s with statements := s.statements + 1 } else none
    | .failure => if s.asks web then some { s with failed := true } else none

inductive MomentStep (server : Server) (web : Web) (start : TqueueItem) (s : Moment n) :
    Moment n → Prop
  | thread (t : Thread n) (pool : Pool n Database) (k : Nat)
      (h : WorkerPool.step (webEnv server web) start s.pool t = some pool) :
      MomentStep server web start s { s with pool := pool, statements := k }
  | statement (c : Call) (hc : s.call web = some c) (h : s.statements < maxStatements c) :
      MomentStep server web start s { s with statements := s.statements + 1 }
  | failure (h : s.asks web = true) : MomentStep server web start s { s with failed := true }

theorem step_cases {s t : Moment n} {m : Move n} (h : step server web start s m = some t) :
    s.ended = false ∧ MomentStep server web start s t := by
  cases he : s.ended with
  | true => simp [step, he] at h
  | false =>
    refine ⟨rfl, ?_⟩
    simp only [step, he, Bool.false_eq_true, if_false] at h
    cases m with
    | thread a =>
      obtain ⟨pool, hp, rfl⟩ := Option.map_eq_some_iff.mp h
      exact .thread a pool _ hp
    | statement =>
      obtain ⟨c, hc, h⟩ := Option.bind_eq_some_iff.mp h
      split_ifs at h with hlt
      obtain rfl := Option.some.inj h
      exact .statement c hc hlt
    | failure =>
      split_ifs at h with ha
      obtain rfl := Option.some.inj h
      exact .failure ha

/-- Between its statements the crawler is the pool. -/
theorem pool_run {s t : Moment n} {ms : List (Move n)}
    (h : run (step server web start) s ms = some t) :
    ∃ as, run (WorkerPool.step (webEnv server web) start) s.pool as = some t.pool := by
  refine run_simulates (I := fun _ => True) Moment.pool (fun _ _ _ _ _ => trivial) ?_ trivial h
  intro s m t _ hst
  obtain ⟨-, hst⟩ := step_cases hst
  cases hst with
  | thread a pool k hp => exact .inr ⟨a, hp⟩
  | statement | failure => exact .inl rfl

/-- Every run of the pool is one of the crawler. -/
theorem run_threads {as : List (Thread n)} {s : Moment n} {pool : Pool n Database}
    (hf : s.failed = false)
    (h : run (WorkerPool.step (webEnv server web) start) s.pool as = some pool) :
    ∃ k, run (step server web start) s (as.map .thread) = some ⟨pool, k, false⟩ := by
  induction as generalizing s with
  | nil =>
    obtain rfl := Option.some.inj h
    exact ⟨s.statements, by rw [← hf]; rfl⟩
  | cons a as ih =>
    obtain ⟨pool', hp, hr⟩ := run_cons_some h
    have ht : s.pool.globals.terminated = false := (WorkerPool.step_cases hp).1
    have hstep : step server web start s (.thread a) = some ⟨pool', s.count a, false⟩ := by
      simp [step, Moment.ended, hf, ht, hp]
    obtain ⟨k, hk⟩ := ih (s := ⟨pool', s.count a, false⟩) rfl hr
    exact ⟨k, by rw [List.map_cons, run_cons, hstep]; exact hk⟩

theorem tables_of_call_none {s : Moment n} (h : s.call web = none) :
    s.tables server web = s.pool.globals.world := by
  rw [Moment.tables, h]

theorem tables_of_call {s : Moment n} {c : Call} (h : s.call web = some c) :
    s.tables server web = c.run server s.pool.globals.world := by
  rw [Moment.tables, h]

theorem tables_of_quiet {s : Moment n} (h : s.pool.Quiet) :
    s.tables server web = s.pool.globals.world := by
  refine tables_of_call_none ?_
  have hst : stage s.pool = none := by
    rw [stage, Option.bind_eq_none_iff]
    intro i _
    split
    · exact absurd ‹_› (h i _)
    · rfl
  rw [Moment.call, hst, ite_self]

/-- What a call belongs to. -/
theorem callOf_eq_some {page : Page} {k : Nat} {c : Call} (h : callOf page k = some c) :
    c.cut = some k ∧
      (page = .badLink c.link c.words ∨ ∃ subLinks, page = .parsed c.link c.words subLinks) := by
  cases page with
  | badUrl | rejected => cases h
  | badLink url words =>
    obtain rfl := Option.some.inj h
    exact ⟨rfl, .inl rfl⟩
  | parsed url words subLinks =>
    obtain rfl := Option.some.inj h
    exact ⟨rfl, .inr ⟨subLinks, rfl⟩⟩

theorem callOf_at {page : Page} {k : Nat} {c : Call} (h : callOf page k = some c) (j : Nat) :
    callOf page j = some { c with cut := some j } := by
  obtain ⟨-, hp | ⟨subLinks, hp⟩⟩ := callOf_eq_some h
  · rw [hp, callOf]
  · rw [hp, callOf]

theorem call_eq_some {s : Moment n} {c : Call} (h : s.call web = some c) :
    s.pool.globals.terminated = false ∧
      ∃ work, stage s.pool = some (.visit work) ∧ callOf (web work.url) s.statements = some c := by
  rw [Moment.call] at h
  split_ifs at h with ht
  split at h
  · exact ⟨Bool.eq_false_iff.mpr ht, _, ‹_›, h⟩
  · cases h

/-- A moment is one between two calls as far as the tables go, or its call has stored its URL and a
first part of its words. -/
theorem tables_cases (server : Server) (web : Web) (s : Moment n) :
    (s.tables server web = s.pool.globals.world ∧ s.unfinished server web = ∅) ∨
      ∃ c done, s.call web = some c ∧ done <+: c.words.toList ∧
        Filled s.pool.globals.world c.link done (s.tables server web) ∧
        s.unfinished server web = {c.link} := by
  have hnone : s.tables server web = s.pool.globals.world →
      s.tables server web = s.pool.globals.world ∧ s.unfinished server web = ∅ :=
    fun h => ⟨h, by rw [Moment.unfinished, h, Finset.sdiff_self]⟩
  cases hc : s.call web with
  | none => exact .inl (hnone (tables_of_call_none hc))
  | some c =>
    obtain he | ⟨done, hd, hf⟩ := run_partly server s.pool.globals.world c
    · exact .inl (hnone ((tables_of_call hc).trans he))
    · rw [← tables_of_call hc] at hf
      refine .inr ⟨c, done, rfl, hd, hf, ?_⟩
      have hn := (s.tables server web).urlUnique
      rw [← Database.urlTexts, hf.urls, List.nodup_append] at hn
      have hout : c.link ∉ s.pool.globals.world.urlTexts := fun hm =>
        hn.2.2 c.link hm c.link (List.mem_singleton_self _) rfl
      ext u
      simp only [Moment.unfinished, hf.urls, Finset.mem_sdiff, List.mem_toFinset, List.mem_append,
        List.mem_singleton, Finset.mem_singleton]
      apply Iff.intro
      · rintro ⟨hu | hu, hnot⟩
        · exact absurd hu hnot
        · exact hu
      · rintro rfl
        exact ⟨.inr rfl, hout⟩

theorem unfinished_card (server : Server) (web : Web) (s : Moment n) :
    (s.unfinished server web).card ≤ 1 := by
  obtain ⟨-, he⟩ | ⟨c, done, -, -, -, he⟩ := tables_cases server web s
  · simp [he]
  · simp [he]

/-- The commit of its URL makes the page of a call unfinished. -/
theorem unfinished_of_first_commit {s : Moment n} {c : Call} (hc : s.call web = some c)
    (hcut : c.cut = some 4) (hf : findUrl server c.link s.pool.globals.world = .ok false)
    (hn : c.link ∉ s.pool.globals.world.urlTexts) : c.link ∈ s.unfinished server web := by
  obtain ⟨db, hi⟩ := insertUrl_of_notMem hn
  have htables : s.tables server web = db := by
    rw [tables_of_call hc, Call.run, hcut]
    exact IndexAtomic.tablesAfter_first_commit hf hi
  rw [Moment.unfinished, htables, urlTexts_insertUrl hi]
  simp [hn]

theorem atMost_addWord (server : Server) (link key : Str) (value : Nat) :
    AtMost 4 (addWord server link key value) := by
  have hpair := atMost_execParams (insertPair key link value)
  refine (atMost_query _).bind (l := 3) fun found => ?_
  cases found with
  | true => exact hpair.mono (by omega)
  | false =>
    exact (atMost_execParams (insertKeyword key)).bind fun _ => atMost_commit.bind fun _ => hpair

theorem atMost_addWords (server : Server) (link : Str) (words : List (Str × Nat)) :
    AtMost (4 * words.length) (addWords server link words) := by
  induction words with
  | nil => exact atMost_pure ()
  | cons w words ih =>
    refine ((atMost_addWord server link w.1 w.2).bind fun _ => ih).mono ?_
    rw [List.length_cons]
    omega

theorem atMost_addLink (server : Server) (words : StdMap Nat) (link : Str) :
    AtMost (4 * words.size + 5) (addLink server words link) := by
  have hwords := atMost_addWords server link words.toList
  rw [Std.ExtTreeMap.length_toList] at hwords
  refine ((atMost_query _).bind (l := 4 * words.size + 4) fun found => ?_).mono (by omega)
  cases found with
  | true => exact (atMost_pure ()).mono (by omega)
  | false =>
    exact (atMost_beginWork.bind fun _ => (atMost_execParams (insertUrl link)).bind fun _ =>
      atMost_commit.bind fun _ => hwords.bind fun _ => atMost_commit).mono (by omega)

/-- Once all its statements are executed the tables are those that the visit leaves behind. -/
theorem tables_of_max {s : Moment n} {c : Call} (h : s.call web = some c)
    (hs : maxStatements c ≤ s.statements) : s.tables server web =
      tablesAfter (addLink server c.words c.link) s.pool.globals.world none := by
  obtain ⟨-, work, -, hc⟩ := call_eq_some h
  rw [tables_of_call h, Call.run, (callOf_eq_some hc).1]
  exact (atMost_addLink server c.words c.link).tablesAfter_eq _ hs

/-- How many steps between those of the threads can still follow at a moment. -/
def slack (web : Web) (s : Moment n) : Nat :=
  if s.failed then 0 else (s.call web).elim 0 (fun c => maxStatements c - s.statements) + 1

/-- One more statement leaves the call what it is. -/
theorem call_succ {s : Moment n} {c : Call} (h : s.call web = some c) :
    Moment.call web { s with statements := s.statements + 1 } =
      some { c with cut := some (s.statements + 1) } := by
  obtain ⟨ht, work, hst, hc⟩ := call_eq_some h
  rw [Moment.call]
  simp only [ht, hst, Bool.false_eq_true, if_false]
  exact callOf_at hc _

theorem run_statements (server : Server) (start : TqueueItem) {s : Moment n} {c : Call} {k : Nat}
    (he : s.ended = false) (hc : s.call web = some c) (hk : s.statements + k ≤ maxStatements c) :
    run (step server web start) s (List.replicate k .statement) =
      some { s with statements := s.statements + k } := by
  induction k generalizing s c with
  | zero => rfl
  | succ k ih =>
    have hlt : s.statements < maxStatements c := by omega
    have hstep : step server web start s .statement =
        some { s with statements := s.statements + 1 } := by
      simp [step, he, hc, hlt]
    have hmax : maxStatements { c with cut := some (s.statements + 1) } = maxStatements c := rfl
    have hrest := ih (s := { s with statements := s.statements + 1 }) he (call_succ hc)
      (by rw [hmax]; dsimp only; omega)
    rw [List.replicate_succ, run_cons, hstep, Option.bind_some, hrest]
    dsimp only
    rw [Nat.add_assoc, Nat.add_comm 1 k]

theorem slack_descends {s t : Moment n} {m : Move n} (h : step server web start s m = some t) :
    (∃ a, WorkerPool.step (webEnv server web) start s.pool a = some t.pool) ∨
      t.pool = s.pool ∧ slack web t < slack web s := by
  obtain ⟨he, hst⟩ := step_cases h
  have hf : s.failed = false := (Bool.or_eq_false_iff.mp he).1
  cases hst with
  | thread a pool k hp => exact .inl ⟨a, hp⟩
  | statement c hc hlt =>
    refine .inr ⟨rfl, ?_⟩
    have hmax : maxStatements { c with cut := some (s.statements + 1) } = maxStatements c := rfl
    rw [slack, slack, hc, call_succ hc, Option.elim_some, Option.elim_some, hmax]
    simp only [hf, Bool.false_eq_true, if_false]
    omega
  | failure ha =>
    refine .inr ⟨rfl, ?_⟩
    simp [slack, hf]

/-- Statement by statement too, every crawl ends as the pool does, or with a failure of the database. -/
theorem inevitable_of_pool {Q : Pool n Database → Prop} {s : Moment n}
    (h : Inevitable (WorkerPool.step (webEnv server web) start) Q s.pool) :
    Inevitable (step server web start) (fun t => t.failed = true ∨ Q t.pool) s := by
  refine h.refine Moment.pool (slack web) (fun _ _ _ hst => slack_descends hst) fun t hstuck hq => ?_
  cases hf : t.failed with
  | true => exact .inl rfl
  | false =>
    refine .inr (hq fun a => ?_)
    cases ht : t.pool.globals.terminated with
    | true => simp [WorkerPool.step, ht]
    | false =>
      simpa [step, Moment.ended, hf, ht] using hstuck (.thread a)

/-- A worker comes to the start link and executes `k` statements of its `addLink`. -/
def midway (k : Nat) : List (Move 1) :=
  [.thread .main, .thread .main, .thread PoolLock.only, .thread PoolLock.only,
    .thread PoolLock.only] ++ List.replicate k .statement

theorem run_midway (server : Server) (db : Database) {c : Call} {k : Nat}
    (hc : callOf (web start.url) k = some c) (hk : k ≤ maxStatements c) : ∃ s : Moment 1,
    run (step server web start) (.initial 1 db) (midway k) = some s ∧
      s.pool.globals.world = db ∧ s.call web = some c := by
  obtain ⟨p, hr, hst, hw, ht⟩ : ∃ p : Pool 1 Database,
      run (step server web start) (.initial 1 db) (midway 0) = some ⟨p, 0, false⟩ ∧
      stage p = some (.visit start) ∧ p.globals.world = db ∧ p.globals.terminated = false := by
    refine ⟨_, rfl, ?_⟩
    exact ⟨rfl, rfl, rfl⟩
  have hcall : ∀ j, Moment.call web ⟨p, j, false⟩ = callOf (web start.url) j := by
    intro j
    simp only [Moment.call, hst, ht, Bool.false_eq_true, if_false]
  have hrun : run (step server web start) ⟨p, 0, false⟩ (List.replicate k .statement) =
      some ⟨p, 0 + k, false⟩ :=
    run_statements server start ht ((hcall 0).trans (callOf_at hc 0)) (by rwa [Nat.zero_add])
  refine ⟨⟨p, k, false⟩, ?_, hw, (hcall k).trans hc⟩
  have hsplit : midway k = midway 0 ++ List.replicate k .statement := rfl
  rw [hsplit, run_append, hr, Option.bind_some, hrun, Nat.zero_add]

end SpiderSearch.Statements
