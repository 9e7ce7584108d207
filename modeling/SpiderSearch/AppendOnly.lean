import SpiderSearch.WebCrawl

namespace SpiderSearch.AppendOnly

open CppTypes Tables StoredRows Triples DbSession DbClient IndexTruth DoWork Runs WorkerPool WebCrawl
open SpiderSearch.LoneWorker (solo firstVisit secondVisit run_firstVisit run_secondVisit)

/-- Rows have been added at the ends of the tables, and nothing else has happened to them. -/
structure Extends (db db' : Database) : Prop where
  keywords : db.keywords <+: db'.keywords
  urls : db.urls <+: db'.urls
  keywordUrsQty : db.keywordUrsQty <+: db'.keywordUrsQty

theorem Extends.refl (db : Database) : Extends db db :=
  ⟨List.prefix_refl _, List.prefix_refl _, List.prefix_refl _⟩

theorem Extends.trans {a b c : Database} (h : Extends a b) (h' : Extends b c) : Extends a c :=
  ⟨h.keywords.trans h'.keywords, h.urls.trans h'.urls, h.keywordUrsQty.trans h'.keywordUrsQty⟩

theorem Extends.stored {db db' : Database} (h : Extends db db') {k u : Str} {q : Int}
    (hs : Stored db k u q) : Stored db' k u q := by
  obtain ⟨kr, hk, ur, hu, r, hr, hrest⟩ := hs
  exact ⟨kr, h.keywords.subset hk, ur, h.urls.subset hu, r, h.keywordUrsQty.subset hr, hrest⟩

/-- A statement that adds rows at the ends of the tables. -/
def Appends (insert : Database → Except SqlError Database) : Prop :=
  ∀ db db', insert db = .ok db' → Extends db db'

theorem appends_insertUrl (url : Str) : Appends (insertUrl url) := by
  intro db db' h
  obtain ⟨-, hk, hq, hu⟩ := insertUrl_ok h
  exact ⟨by rw [hk], by rw [hu]; exact List.prefix_append _ _, by rw [hq]⟩

theorem appends_insertKeyword (keyword : Str) : Appends (insertKeyword keyword) := by
  intro db db' h
  obtain ⟨-, hu, hq, hk⟩ := insertKeyword_ok h
  exact ⟨by rw [hk]; exact List.prefix_append _ _, by rw [hu], by rw [hq]⟩

theorem appends_insertPair (keyword link : Str) (value : Nat) :
    Appends (insertPair keyword link value) := by
  intro db db' h
  obtain ⟨hk, hu, _, _, _, _, _, _, hq⟩ := insertPair_ok h
  exact ⟨by rw [hk], by rw [hu], by rw [hq]; exact List.prefix_append _ _⟩

/-- The committed tables extend `db`, and the open transaction extends the committed tables. -/
def Over (db : Database) (c : Database) (w : Option Database) : Prop :=
  Extends db c ∧ ∀ d ∈ w, Extends c d

/-- A program that only adds rows, wherever it is cut off. -/
def Grows {α : Type} (x : DbM α) : Prop :=
  ∀ db, Triple (Holds (Over db)) x (fun _ => Holds (Over db)) (Holds (Over db))

section Programs

variable {α β : Type}

theorem grows_pure (a : α) : Grows (pure a : DbM α) := fun _ => Triple.pure fun _ h => h

theorem Grows.bind {x : DbM α} {f : α → DbM β} (hx : Grows x) (hf : ∀ a, Grows (f a)) :
    Grows (x >>= f) := fun db => Triple.bind (hx db) fun a => hf a db

theorem grows_query (q : Database → Except SqlError α) : Grows (query q) := fun _ =>
  (query_triple fun _ _ h => h).consequence (fun _ h => h) (fun _ _ h => h.1) fun _ h => h

theorem grows_beginWork : Grows beginWork := by
  intro db
  refine beginWork_triple (fun _ _ h => h) fun c w h => ⟨h.1, fun d hd => ?_⟩
  obtain rfl := Option.some.inj hd
  exact Extends.refl c

theorem grows_execParams {insert : Database → Except SqlError Database} (hi : Appends insert) :
    Grows (execParams insert) := by
  intro db
  refine execParams_triple (fun _ _ h => h) (fun c w db' h he => ⟨h.1, fun d hd => ?_⟩)
    fun c db' h he => ⟨h.1.trans (hi c db' he), nofun⟩
  obtain rfl := Option.some.inj hd
  exact (h.2 w rfl).trans (hi w _ he)

theorem grows_commit : Grows commit := by
  intro db
  refine commit_triple (fun _ _ h => h) fun c w h => ⟨?_, nofun⟩
  cases w with
  | none => exact h.1
  | some d => exact h.1.trans (h.2 d rfl)

/-- How a program that was cut off goes on when it gets one more statement. -/
inductive Later : Except SqlError α × Session → Except SqlError α × Session → Prop
  | same (r : Except SqlError α) (c : Database) (w : Option Database) (k : Nat) :
      Later (r, ⟨c, w, some k⟩) (r, ⟨c, w, some (k + 1)⟩)
  | stopped (s : Session) (r : Except SqlError α × Session) (h : Extends s.committed r.2.committed) :
      Later (.error .stopped, s) r

def Steady (x : DbM α) : Prop := ∀ c w, (∀ d ∈ w, Extends c d) → ∀ j,
  Later (exec x ⟨c, w, some j⟩) (exec x ⟨c, w, some (j + 1)⟩)

theorem steady_pure (a : α) : Steady (pure a : DbM α) := fun _ _ _ _ => Later.same _ _ _ _

/-- A program that starts with a statement and does not look at the number left. -/
theorem steady_of_statement {x : DbM α}
    (hzero : ∀ c w, exec x ⟨c, w, some 0⟩ = (.error .stopped, ⟨c, w, some 0⟩)) (hg : Grows x)
    (hsucc : ∀ c w, ∃ r c' w', ∀ k, exec x ⟨c, w, some (k + 1)⟩ = (r, ⟨c', w', some k⟩)) :
    Steady x := by
  intro c w hw j
  cases j with
  | zero =>
    rw [hzero]
    refine Later.stopped _ _ ?_
    have h := hg c ⟨c, w, some 1⟩ ⟨Extends.refl c, hw⟩
    obtain ⟨r, c', w', he⟩ := hsucc c w
    rw [he] at h ⊢
    cases r with
    | ok a => exact h.1
    | error e => exact h.1
  | succ k =>
    obtain ⟨r, c', w', he⟩ := hsucc c w
    rw [he, he]
    exact Later.same r c' w' k

theorem Steady.bind {x : DbM α} {f : α → DbM β} (hx : Steady x) (hg : Grows x)
    (hf : ∀ a, Steady (f a)) (hgf : ∀ a, Grows (f a)) : Steady (x >>= f) := by
  intro c w hw j
  have hafter := hg c ⟨c, w, some j⟩ ⟨Extends.refl c, hw⟩
  have hafter' := hg c ⟨c, w, some (j + 1)⟩ ⟨Extends.refl c, hw⟩
  have h := hx c w hw j
  rw [exec_bind, exec_bind]
  generalize exec x ⟨c, w, some j⟩ = r at h hafter
  generalize exec x ⟨c, w, some (j + 1)⟩ = r' at h hafter'
  cases h with
  | same res c' w' k =>
    cases res with
    | error e => exact Later.same _ _ _ _
    | ok a => exact hf a c' w' hafter.2 k
  | stopped s r' hs =>
    refine Later.stopped _ _ ?_
    obtain ⟨res, t⟩ := r'
    cases res with
    | error e => exact hs
    | ok a =>
      refine hs.trans ?_
      have hrest := hgf a t.committed t ⟨Extends.refl _, hafter'.2⟩
      change Extends t.committed (exec (f a) t).2.committed
      cases hr : exec (f a) t with
      | mk res' t' =>
        rw [hr] at hrest
        cases res' with
        | ok b => exact hrest.1
        | error e => exact hrest.1

/-- A program that only adds rows, and adds no fewer the later it is cut off. -/
structure Tame (x : DbM α) : Prop where
  grows : Grows x
  steady : Steady x

theorem tame_pure (a : α) : Tame (pure a : DbM α) := ⟨grows_pure a, steady_pure a⟩

theorem Tame.bind {x : DbM α} {f : α → DbM β} (hx : Tame x) (hf : ∀ a, Tame (f a)) :
    Tame (x >>= f) :=
  ⟨hx.grows.bind fun a => (hf a).grows,
    hx.steady.bind hx.grows (fun a => (hf a).steady) fun a => (hf a).grows⟩

theorem tame_query (q : Database → Except SqlError α) : Tame (query q) := by
  refine ⟨grows_query q, steady_of_statement (fun c w => ?_) (grows_query q) fun c w => ?_⟩
  · simp [query, exec_bind]
  · cases hq : q c with
    | ok a => exact ⟨.ok a, c, w, fun k => by simp [query, exec_bind, hq]⟩
    | error e => exact ⟨.error e, c, w, fun k => by simp [query, exec_bind, hq]⟩

theorem tame_beginWork : Tame beginWork := by
  refine ⟨grows_beginWork, steady_of_statement (fun c w => ?_) grows_beginWork fun c w => ?_⟩
  · simp [beginWork, exec_bind]
  · exact ⟨.ok (), c, some c, fun k => by simp [beginWork, exec_bind]⟩

theorem tame_execParams {insert : Database → Except SqlError Database} (hi : Appends insert) :
    Tame (execParams insert) := by
  have hg := grows_execParams hi
  refine ⟨hg, steady_of_statement (fun c w => ?_) hg fun c w => ?_⟩
  · simp [execParams, exec_bind]
  · cases he : insert (w.getD c) with
    | error e => exact ⟨.error e, c, w, fun k => by simp [execParams, exec_bind, he]⟩
    | ok db =>
      cases w with
      | none => exact ⟨.ok (), db, none, fun k => by simp_all [execParams, exec_bind]⟩
      | some d => exact ⟨.ok (), c, some db, fun k => by simp_all [execParams, exec_bind]⟩

theorem tame_commit : Tame commit := by
  refine ⟨grows_commit, steady_of_statement (fun c w => ?_) grows_commit fun c w => ?_⟩
  · simp [commit, exec_bind]
  · exact ⟨.ok (), w.getD c, none, fun k => by simp [commit, exec_bind]⟩

end Programs

variable (server : Server)

theorem tame_addWord (link key : Str) (value : Nat) : Tame (addWord server link key value) := by
  have hpair := tame_execParams (appends_insertPair key link value)
  refine (tame_query _).bind fun found => ?_
  cases found with
  | true => exact hpair
  | false =>
    exact (tame_execParams (appends_insertKeyword key)).bind fun _ => tame_commit.bind fun _ => hpair

theorem tame_addWords (link : Str) (words : List (Str × Nat)) : Tame (addWords server link words) := by
  induction words with
  | nil => exact tame_pure ()
  | cons w words ih => exact (tame_addWord server link w.1 w.2).bind fun _ => ih

theorem tame_addLink (words : StdMap Nat) (link : Str) : Tame (addLink server words link) := by
  refine (tame_query _).bind fun found => ?_
  cases found with
  | true => exact tame_pure ()
  | false =>
    exact tame_beginWork.bind fun _ => (tame_execParams (appends_insertUrl link)).bind fun _ =>
      tame_commit.bind fun _ => (tame_addWords server link words.toList).bind fun _ => tame_commit

variable {server}

/-- A call of `addLink` only adds rows, wherever it is cut off. -/
theorem extends_tablesAfter (words : StdMap Nat) (link : Str) (db : Database) (cut : Option Nat) :
    Extends db (tablesAfter (addLink server words link) db cut) := by
  have h : Triple (Holds (Over db)) (addLink server words link) (fun _ => Holds (Over db))
      (Holds fun c _ => Extends db c) :=
    ((tame_addLink server words link).grows db).consequence (fun _ h => h) (fun _ _ h => h)
      fun _ h => h.1
  exact tablesAfter_of_triple h (fun _ _ h => h.1) ⟨Extends.refl db, nofun⟩ cut

/-- One more statement of a call leaves what was there before. -/
theorem extends_succ (words : StdMap Nat) (link : Str) (db : Database) (j : Nat) :
    Extends (tablesAfter (addLink server words link) db (some j))
      (tablesAfter (addLink server words link) db (some (j + 1))) := by
  have h := (tame_addLink server words link).steady db none nofun j
  rw [tablesAfter, tablesAfter]
  generalize exec (addLink server words link) ⟨db, none, some j⟩ = r at h
  generalize exec (addLink server words link) ⟨db, none, some (j + 1)⟩ = r' at h
  cases h with
  | same res c w k => exact Extends.refl c
  | stopped s r' hs => exact hs

/-- Neither the crawler nor calls that are cut off anywhere ever change or remove a row, so the ids
of the keywords and of the URLs mean the same forever. -/
theorem rows_only_appended (server : Server) :
    (∀ (web : Web) (start : TqueueItem) (n : Nat) (s t : Pool n Database) (as : List (Thread n)),
      run (step (webEnv server web) start) s as = some t → Extends s.globals.world t.globals.world) ∧
    ∀ (db : Database) (calls : List Call), Extends db (calls.foldl (Call.run server) db) := by
  apply And.intro
  · intro web start n s t as h
    exact tables_run Extends.refl (fun _ _ _ => Extends.trans)
      (fun db words link => extends_tablesAfter words link db none) h
  · intro db calls
    induction calls generalizing db with
    | nil => exact Extends.refl db
    | cons c calls ih => exact (extends_tablesAfter c.words c.link db c.cut).trans (ih _)

/-- The second page comes after what the first visit has stored. -/
theorem twoPages_appended : ∃ s t : Pool 1 Database,
    run (step (webEnv strict twoPages) PoolLock.home) (.initial 1 .empty) firstVisit = some s ∧
    run (step (webEnv strict twoPages) PoolLock.home) s secondVisit = some t ∧
    s.globals.world.urlTexts = [PoolLock.home.url] ∧
    t.globals.world.urlTexts = [PoolLock.home.url, second] ∧
    Extends s.globals.world t.globals.world := by
  obtain ⟨db₁, db₂, hu₁, hu₂, h₁, h₂, h₃⟩ := twoPages_visits
  have hs : run (step (webEnv strict twoPages) PoolLock.home) (.initial 1 .empty) firstVisit = some _ :=
    run_firstVisit Int.one_pos h₁ h₂
  have ht : run (step (webEnv strict twoPages) PoolLock.home)
      (solo ⟨[⟨second, 0⟩], db₁, false, [PoolLock.home, ⟨second, 0⟩], [PoolLock.home], [PoolLock.home]⟩
        none .empty) secondVisit = some _ := run_secondVisit h₃
  exact ⟨_, _, hs, ht, hu₁, hu₂,
    (rows_only_appended strict).1 twoPages PoolLock.home 1 _ _ secondVisit ht⟩

end SpiderSearch.AppendOnly
