import SpiderSearch.CrawledSearch

namespace SpiderSearch.Recrawl

open CppTypes Tables StoredRows DbSession DbClient AddLink DoWork Runs CrawlLoop WorkerPool PoolLock
  PoolRefines WebCrawl Layers LinkDepth BreadthFirst Coverage

variable {server : Server} {web : Web} {start : Str} {d : Nat} {old : List Str}

/-- The web without the links to the pages in `old`. -/
def fresh (old : List Str) (web : Web) : Web := fun u =>
  match web u with
  | .parsed url wordCount subLinks => .parsed url wordCount (subLinks.filter fun v => v ∉ old)
  | page => page

theorem parses_fresh {u : Str} : Parses (fresh old web) u ↔ Parses web u := by
  cases hw : web u with
  | parsed url words links =>
    have hf : fresh old web u = .parsed url words (links.filter fun v => v ∉ old) := by
      simp [fresh, hw]
    exact iff_of_true ⟨url, words, _, hf⟩ ⟨url, words, links, hw⟩
  | _ => simp [Parses, fresh, hw]

theorem links_fresh {u v : Str} : Links (fresh old web) u v ↔ Links web u v ∧ v ∉ old := by
  cases hw : web u with
  | parsed url words links => simp [Links, subLinks, fresh, hw]
  | _ => simp [Links, subLinks, fresh, hw]

theorem walk_links {k : Nat} {u v : Str} (h : Walk (Links (fresh old web)) k u v) :
    Walk (Links web) k u v :=
  h.mono fun _ _ he => (links_fresh.mp he).1

/-- What a crawl over a table with the pages `old` has added and queued so far, as long as no
exception has ended the process. -/
structure Extended (web : Web) (start : Str) (d : Nat) (old : List Str) (c : Loop Database) :
    Prop where
  pushed : ∀ item ∈ c.globals.pushed, AtLevel (fresh old web) start d item
  pending : ∀ st, c.stage = some st → ∀ v ∈ pending st, Links web st.work.url v ∧ 0 < st.work.dept
  chosen : ∀ work link rest, c.stage = some (.push work link rest) → link ∉ old
  kept : ∀ u ∈ old, u ∈ c.globals.world.urlTexts
  table : ∀ u ∈ c.globals.world.urlTexts,
    u ∈ old ∨ Parses web u ∧ ∃ p ∈ c.globals.popped, p.url = u
  processed : ∀ p ∈ c.globals.processed, Done (fresh old web) c.globals p []
  current : ∀ st, c.stage = some st → st ≠ .visit st.work →
    Done (fresh old web) c.globals st.work (LinkDepth.pending st)

theorem extended_initial (db : Database) : Extended web start d db.urlTexts (.initial db) where
  pushed := nofun
  pending := nofun
  chosen := nofun
  kept _ h := h
  table _ h := .inl h
  processed := nofun
  current := nofun

/-- A link that is not followed need not be settled. -/
theorem skip_link {g : Globals Database} {p : TqueueItem} {v : Str} {todo : List Str}
    (h : Done (fresh old web) g p (v :: todo)) (hv : v ∈ old) : Done (fresh old web) g p todo := by
  refine ⟨h.1, fun hd w hw => (h.2 hd w hw).imp_left fun hm => ?_⟩
  obtain rfl | hm := List.mem_cons.mp hm
  · exact absurd hv (links_fresh.mp hw).2
  · exact hm

/-- The worker goes on with the links that are left. -/
theorem Extended.forSubLinks {c : Loop Database} {g : Globals Database}
    (hi : Extended web start d old c) {work : TqueueItem} {links : List Str}
    (hpushed : ∀ item ∈ g.pushed, AtLevel (fresh old web) start d item)
    (hg : Grows c.globals g) (hproc : g.processed = c.globals.processed)
    (htable : ∀ u ∈ g.world.urlTexts, u ∈ old ∨ Parses web u ∧ ∃ p ∈ g.popped, p.url = u)
    (hlinks : ∀ v ∈ links, Links web work.url v ∧ 0 < work.dept)
    (hdone : Done (fresh old web) g work links) :
    Extended web start d old
      { c with globals := g, stage := some (DoWork.forSubLinks work links) } where
  pushed := hpushed
  pending st hst := by
    cases hst
    rwa [pending_forSubLinks, forSubLinks_work]
  chosen work' link rest hst := by
    cases links with
    | nil => cases hst
    | cons => cases hst
  kept u hu := hg.urls u (hi.kept u hu)
  table := htable
  processed p hp := (hi.processed p (hproc ▸ hp)).mono hg
  current st hst _ := by
    cases hst
    rwa [pending_forSubLinks, forSubLinks_work]

/-- What a visit that ends well has done. -/
structure Visited (web : Web) (db w : Database) (u : Str) (links : List Str) : Prop where
  parses : Parses web u
  links : ∀ v, Links web u v ↔ v ∈ links
  stored : ∀ v, v ∈ w.urlTexts ↔ v ∈ db.urlTexts ∨ v = u

theorem visited_of_parsed {db w : Database} {u : Str} {links : List Str}
    (hurl : ∀ url, Indexes web u url → url = u)
    (hans : ∀ db id, findUrl server u db = .ok id → id = decide (u ∈ db.urlTexts))
    (hv : (webEnv server web).visit db u = .parsed w links) : Visited web db w u links := by
  obtain ⟨url, words, hp, hc, rfl⟩ := visit_parsed hv
  obtain rfl := hurl url ⟨words, .inr ⟨links, hp⟩⟩
  refine ⟨⟨_, words, links, hp⟩, fun v => by simp [Links, subLinks, hp], fun v => ?_⟩
  apply Iff.intro
  · exact mem_urlTexts_tablesAfter
  · rintro (hm | rfl)
    · exact urlTexts_subset_tablesAfter hm
    · obtain ⟨hf, he⟩ | hf := tablesAfter_complete hc
      · rw [he]
        exact of_decide_eq_true (hans _ _ hf).symm
      · rw [hf.urls]
        exact List.mem_append_right _ (List.mem_singleton_self _)

theorem Visited.grows {g : Globals Database} {w : Database} {u : Str} {links : List Str}
    (h : Visited web g.world w u links) : Grows g { g with world := w } :=
  ⟨fun _ hp => hp, fun _ hp => hp, fun v hm => (h.stored v).mpr (.inl hm)⟩

theorem Visited.table {g : Globals Database} {w : Database} {work : TqueueItem} {links : List Str}
    (h : Visited web g.world w work.url links) (hm : work ∈ g.popped)
    (ht : ∀ u ∈ g.world.urlTexts, u ∈ old ∨ Parses web u ∧ ∃ p ∈ g.popped, p.url = u) :
    ∀ u ∈ w.urlTexts, u ∈ old ∨ Parses web u ∧ ∃ p ∈ g.popped, p.url = u := by
  intro u hu
  obtain hu | rfl := (h.stored u).mp hu
  · exact ht u hu
  · exact .inr ⟨h.parses, work, hm, rfl⟩

/-- The page is stored and its links are still to come. -/
theorem Visited.done {g : Globals Database} {w : Database} {work : TqueueItem} {links : List Str}
    (h : Visited web g.world w work.url links) {todo : List Str}
    (htodo : 0 < work.dept → todo = links) :
    Done (fresh old web) { g with world := w } work todo := by
  refine ⟨fun _ => (h.stored _).mpr (.inr rfl), fun hd v hl => .inl ?_⟩
  rw [htodo hd]
  exact (h.links v).mp (links_fresh.mp hl).1

theorem extended_body {c : Loop Database} (hurl : SameUrl web start)
    (hans : FindUrlSucceeds server web start) (hh : History c) (hlay : ∃ e, Layered e c)
    (hi : Extended web start d old c) {st : Stage} {g : Globals Database}
    {next : Option Stage} (hs : c.stage = some st)
    (hb : BodyStep (webEnv server web) c.globals st g next) (ht : g.terminated = false) :
    Extended web start d old { c with globals := g, stage := next } := by
  have hmem : st.work ∈ c.globals.popped := hh.work_mem hs
  obtain ⟨k, hk, hdept, hwalk'⟩ := hi.pushed _ (hh.popped_subset hmem)
  have hwalk := walk_links hwalk'
  have hpend := hi.pending st hs
  have hcur := hi.current st hs
  cases hb with
  | thrown work w hv => simp at ht
  | failed work link rest hf => simp at ht
  | rejected work w hv =>
    obtain ⟨hp, rfl⟩ := visit_rejected hv
    have hn : ¬ Parses web work.url := by
      rintro ⟨url, words, links, he⟩
      rw [hp] at he
      cases he
    refine ⟨hi.pushed, ?_, nofun, hi.kept, hi.table, hi.processed, ?_⟩
    · intro st' hst'
      cases hst'
      exact nofun
    · intro st' hst' _
      cases hst'
      exact ⟨fun h => absurd (parses_fresh.mp h) hn,
        fun _ v hv => absurd (links_fresh.mp hv).1.parses hn⟩
  | expand work w links hv hd =>
    have hvis := visited_of_parsed (hurl k _ · hwalk) (hans k _ hwalk) hv
    exact hi.forSubLinks hi.pushed hvis.grows rfl (hvis.table hmem hi.table)
      (fun v hm => ⟨(hvis.links v).mpr hm, hd⟩) (hvis.done fun _ => rfl)
  | leaf work w links hv hd =>
    have hvis := visited_of_parsed (hurl k _ · hwalk) (hans k _ hwalk) hv
    refine ⟨hi.pushed, ?_, nofun, fun u hu => hvis.grows.urls u (hi.kept u hu),
      hvis.table hmem hi.table, fun p hp => (hi.processed p hp).mono hvis.grows, ?_⟩
    · intro st' hst'
      cases hst'
      exact nofun
    · intro st' hst' _
      cases hst'
      exact hvis.done fun h => absurd hd (Int.not_le.mpr h)
  | known work link rest w hf =>
    obtain ⟨hok, rfl⟩ := findUrl_answer hf
    have hin : link ∈ c.globals.world.urlTexts := of_decide_eq_true
      (hans _ link (hwalk.snoc (hpend link List.mem_cons_self).1) _ _ hok).symm
    refine hi.forSubLinks hi.pushed ⟨fun _ h => h, fun _ h => h, fun _ h => h⟩ rfl hi.table
      (fun v hm => hpend v (List.mem_cons_of_mem _ hm)) ?_
    have hdone := hcur (by simp)
    obtain hold | ⟨hp, p, hpm, he⟩ := hi.table link hin
    · exact skip_link hdone hold
    · -- the page is indexed already; depths only fall, so it was taken at this level or above
      obtain ⟨e, hlay⟩ := hlay
      have hle : work.dept ≤ p.dept := by
        rw [← findUrl_work work link rest, hlay.stage _ hs]
        exact hlay.above p hpm
      exact hdone.settle (.inr ⟨parses_fresh.mpr hp, p, hpm, he, hle⟩)
  | unknown work link rest w hf =>
    obtain ⟨hok, rfl⟩ := findUrl_answer hf
    have hnew : link ∉ c.globals.world.urlTexts := of_decide_eq_false
      (hans _ link (hwalk.snoc (hpend link List.mem_cons_self).1) _ _ hok).symm
    refine ⟨hi.pushed, ?_, ?_, hi.kept, hi.table, hi.processed, ?_⟩
    · intro st' hst'
      cases hst'
      exact hpend
    · intro work' link' rest' hst'
      cases hst'
      exact fun hold => hnew (hi.kept link hold)
    · intro st' hst' _
      cases hst'
      exact hcur (by simp)
  | push work link rest =>
    have hg : Grows c.globals (c.globals.push ⟨link, work.dept - 1⟩) :=
      ⟨fun _ h => List.mem_append_left _ h, fun _ h => h, fun _ h => h⟩
    obtain ⟨hl, hd⟩ := hpend link List.mem_cons_self
    have hlevel : AtLevel (fresh old web) start d ⟨link, work.dept - 1⟩ :=
      AtLevel.subLink ⟨k, hk, hdept, hwalk'⟩ hd (links_fresh.mpr ⟨hl, hi.chosen _ _ _ hs⟩)
    have hqueued : Settled (fresh old web) (c.globals.push ⟨link, work.dept - 1⟩) work.dept link :=
      .inl (List.mem_append_right _ (List.mem_singleton_self _))
    exact hi.forSubLinks (Globals.forall_pushed hi.pushed hlevel) hg rfl hi.table
      (fun v hm => hpend v (List.mem_cons_of_mem _ hm)) (((hcur (by simp)).mono hg).settle hqueued)
  | unlock work =>
    refine ⟨hi.pushed, nofun, nofun, hi.kept, hi.table, fun p hp => ?_, nofun⟩
    obtain hp | hp := List.mem_append.mp hp
    · exact hi.processed p hp
    · rw [List.mem_singleton.mp hp]
      exact hcur (by simp)

theorem extended_step {c c' : Loop Database} (hurl : SameUrl web start)
    (hans : FindUrlSucceeds server web start) (hh : History c) (hlay : ∃ e, Layered e c)
    (hi : Extended web start d old c) (h : LoopStep (webEnv server web) ⟨start, d⟩ c c')
    (ht : c'.globals.terminated = false) : Extended web start d old c' := by
  cases h with
  | seed hs =>
    obtain ⟨hn, -⟩ := hh.fresh hs
    have hg : Grows c.globals (c.globals.push ⟨start, d⟩) :=
      ⟨fun _ h => List.mem_append_left _ h, fun _ h => h, fun _ h => h⟩
    have hlevel : AtLevel (fresh old web) start d ⟨start, d⟩ :=
      ⟨0, Nat.zero_le d, by simp, .refl start⟩
    exact ⟨Globals.forall_pushed hi.pushed hlevel, by simp [hn], by simp [hn], hi.kept, hi.table,
      fun p hp => (hi.processed p hp).mono hg, by simp [hn]⟩
  | pop work rest hs hq =>
    have hg : Grows c.globals
        { c.globals with queue := rest, popped := c.globals.popped ++ [work] } :=
      ⟨fun _ h => h, fun _ h => List.mem_append_left _ h, fun _ h => h⟩
    refine ⟨hi.pushed, ?_, nofun, hi.kept, fun u hu => (hi.table u hu).imp_right ?_,
      fun p hp => (hi.processed p hp).mono hg, ?_⟩
    · intro st hst
      cases hst
      exact nofun
    · rintro ⟨hp, p, hm, he⟩
      exact ⟨hp, p, hg.popped p hm, he⟩
    · intro st hst hne
      cases hst
      exact absurd rfl hne
  | body st g next hs hb => exact extended_body hurl hans hh hlay hi hs hb ht

theorem extended_run (hurl : SameUrl web start) (hans : FindUrlSucceeds server web start)
    {db : Database} {ts : List Turn} {c : Loop Database}
    (h : run (CrawlLoop.step (webEnv server web) ⟨start, d⟩) (.initial db) ts = some c)
    (ht : c.globals.terminated = false) : Extended web start d db.urlTexts c := by
  refine run_reachable (I := fun c => c.globals.terminated = false →
    Extended web start d db.urlTexts c) ?_ (fun _ => extended_initial db) h ht
  intro ts c t c' hr hi hst ht'
  have htc : c.globals.terminated = false := by
    cases htc : c.globals.terminated with
    | false => rfl
    | true => simp [CrawlLoop.step, htc] at hst
  exact extended_step hurl hans (history_run hr) (layered_run hr) (hi htc)
    (CrawlLoop.step_cases hst) ht'

/-- A drained loop is a breadth-first search of the new pages. -/
theorem explored_of_extended {c : Loop Database} (hh : History c)
    (hi : Extended web start d old c) (hs : c.stage = none) (hq : c.globals.queue = [])
    (hstart : ⟨start, d⟩ ∈ c.globals.pushed) (hp : Parses web start) :
    Explored (Follows (fresh old web)) start d (Taken (fresh old web) d c) := by
  have hpush : c.globals.pushed = c.globals.popped := by rw [hh.pushed, hq, List.append_nil]
  have hpop : c.globals.popped = c.globals.processed := by
    rw [hh.processed, hs, Option.map_none, Option.toList_none, List.append_nil]
  refine ⟨⟨parses_fresh.mpr hp, Nat.zero_le d, _, hpop ▸ hpush ▸ hstart, rfl, by simp⟩, ?_, ?_⟩
  · rintro v k ⟨hv, hk, p, hpm, rfl, he⟩
    obtain ⟨j, hj, hje, hw⟩ := hi.pushed p (hpush ▸ hpop ▸ hpm)
    obtain rfl : j = k := by omega
    exact (walk_follows hw hv).2
  · rintro u v k ⟨hu, hk, p, hpm, rfl, he⟩ hkd ⟨hl, hv⟩
    obtain hn | hnew | ⟨-, p', hpm', rfl, hle⟩ := (hi.processed p hpm).2 (by omega) v hl
    · cases hn
    · refine .inl ⟨hv, hkd, _, hpop ▸ hpush ▸ hnew, rfl, ?_⟩
      simp only
      omega
    · obtain ⟨j, hj, hje, -⟩ := hi.pushed p' (hpush ▸ hpm')
      exact .inr ⟨j, by omega, hv, hj, p', hpop ▸ hpm', rfl, hje⟩

theorem pushed_of_started {σ : Type} {env : Env σ} {item : TqueueItem} {world : σ} {ts : List Turn}
    {c : Loop σ} (h : run (CrawlLoop.step env item) (.initial world) ts = some c)
    (hs : c.started = true) : item ∈ c.globals.pushed := by
  refine run_invariant (I := fun c : Loop σ => c.started = true → item ∈ c.globals.pushed) ?_
    (fun hn => by cases hn) h hs
  intro c t c' hi hst hs'
  cases CrawlLoop.step_cases hst with
  | seed hn => exact List.mem_append_right _ (List.mem_singleton_self _)
  | pop work rest hn hq => exact hi hs'
  | body st g next hn hb =>
    cases hb with
    | push work link rest => exact List.mem_append_left _ (hi hs')
    | _ => exact hi hs'

/-- A crawl over filled tables stores what is found on new pages only. -/
theorem mem_recrawled (hurl : SameUrl web start) (hans : FindUrlSucceeds server web start) {n : Nat}
    {db : Database} {as : List (Thread n)} {s : Pool n Database}
    (h : run (WorkerPool.step (webEnv server web) ⟨start, d⟩) (.initial n db) as = some s)
    (hs : Deepening.Drained s) (u : Str) :
    u ∈ s.globals.world.urlTexts ↔
      u ∈ db.urlTexts ∨ Chain (fresh db.urlTexts web) d start u := by
  obtain ⟨ts, hr⟩ := core_run h
  have hstage : (core s).stage = none := core_stage_of_quiet hs.quiet
  have hh := history_run hr
  have hi := extended_run hurl hans hr (Deepening.not_terminated_of_quiet h hs.quiet)
  apply Iff.intro
  · intro hu
    refine (hi.table u hu).imp_right ?_
    rintro ⟨hpu, p, hpm, rfl⟩
    obtain ⟨k, hk, -, hw⟩ := hi.pushed p (hh.popped_subset hpm)
    obtain ⟨hps, hw'⟩ := walk_follows hw (parses_fresh.mpr hpu)
    exact ⟨hps, k, hk, hw'⟩
  · rintro (hu | ⟨hps, hw⟩)
    · exact hi.kept u hu
    · have hx := explored_of_extended hh hi hstage hs.queue (pushed_of_started hr hs.pushed)
        (parses_fresh.mp hps)
      obtain ⟨k, -, hpu, -, p, hpm, rfl, -⟩ := (hx.within_iff u).mp hw
      exact (hi.processed p hpm).1 hpu

/-- The pages that a crawl of the site adds to the pages `S`: the start page and what it leads to
over pages that are not among them. -/
def added (getContent : Links.Link → Str) (S : Set Str) (start : Str) (d : Nat) : Set Str :=
  {u | ∃ parser, Links.HtmlParser.new start = .ok parser ∧
    Parses (Parse.page getContent) parser.getURL ∧
    Within (fun a b => Follows (Parse.page getContent) a b ∧ b ∉ S) d parser.getURL u}

theorem follows_fresh : Follows (fresh old web) = fun a b => Follows web a b ∧ b ∉ old := by
  funext a b
  simp only [Follows, links_fresh, parses_fresh, and_right_comm]

theorem mem_recrawled_getURL {getContent : Links.Link → Str}
    (hans : ∀ parser, Links.HtmlParser.new start = .ok parser →
      FindUrlSucceeds server (Parse.page getContent) parser.getURL)
    {n : Nat} {db : Database} {as : List (Thread n)} {s : Pool n Database}
    (h : run (WorkerPool.step (webEnv server (Parse.page getContent)) ⟨start, d⟩) (.initial n db)
      as = some s) (hs : Deepening.Drained s) (u : Str) :
    u ∈ s.globals.world.urlTexts ↔
      u ∈ db.urlTexts ∨ u ∈ added getContent {v | v ∈ db.urlTexts} start d := by
  obtain ⟨parser, hn⟩ := Deepening.new_of_drained h hs
  obtain ⟨bs, t, ht, hdt, hw⟩ := Deepening.drained_from_getURL hn h hs
  rw [← hw, mem_recrawled (Deepening.sameUrl_getURL getContent hn) (hans parser hn) ht hdt u, Chain,
    follows_fresh, parses_fresh]
  apply or_congr_right
  apply Iff.intro
  · intro hc
    exact ⟨parser, hn, hc⟩
  · rintro ⟨parser', hn', hc⟩
    obtain rfl := Except.ok.inj (hn.symm.trans hn')
    exact hc

/-- A crawl as it was started, with the site as it was then. -/
structure Crawl where
  getContent : Links.Link → Str
  start : Str
  depth : Nat

/-- The tables after some crawls, each of which ran over the tables that the one before it left. -/
inductive Lifetime (server : Server) : List Crawl → Database → Prop
  | fresh : Lifetime server [] .empty
  | crawled {crawls : List Crawl} {db : Database} (hl : Lifetime server crawls db) (crawl : Crawl)
      (n : Nat) (as : List (Thread n)) (s : Pool n Database)
      (h : run (WorkerPool.step (webEnv server (Parse.page crawl.getContent))
        ⟨crawl.start, crawl.depth⟩) (.initial n db) as = some s) (hd : Deepening.Drained s) :
      Lifetime server (crawls ++ [crawl]) s.globals.world

/-- The pages that are stored after the crawls. -/
def storedAfter (crawls : List Crawl) : Set Str :=
  crawls.foldl (fun S crawl => S ∪ added crawl.getContent S crawl.start crawl.depth) ∅

theorem storedAfter_concat (crawls : List Crawl) (crawl : Crawl) : storedAfter (crawls ++ [crawl]) =
    storedAfter crawls ∪
      added crawl.getContent (storedAfter crawls) crawl.start crawl.depth := by
  simp [storedAfter]

/-- Crawl after crawl the table grows by what the start page leads to over new pages. -/
theorem lifetime_stored (server : Server) (crawls : List Crawl)
    (hans : ∀ crawl ∈ crawls, ∀ parser, Links.HtmlParser.new crawl.start = .ok parser →
      FindUrlSucceeds server (Parse.page crawl.getContent) parser.getURL)
    (db : Database) (h : Lifetime server crawls db) (u : Str) :
    u ∈ db.urlTexts ↔ u ∈ storedAfter crawls := by
  induction h generalizing u with
  | fresh => exact iff_of_false nofun id
  | @crawled crawls db hl crawl n as s hr hd ih =>
    obtain ⟨hbefore, hcrawl⟩ := List.forall_mem_append.mp hans
    have hset : {v | v ∈ db.urlTexts} = storedAfter crawls := Set.ext (ih hbefore)
    rw [mem_recrawled_getURL (hcrawl crawl (List.mem_singleton_self _)) hr hd, hset, ih hbefore,
      storedAfter_concat, Set.mem_union]

section Diamond

open SpiderSearch.VisitOnce (diamond root visit_of_oneWord diamond_root diamond_shallow root_plain)

/-- The start page alone, and then with what it links to. -/
def diamondCrawls : List Crawl := [⟨diamond, root, 0⟩, ⟨diamond, root, 1⟩]

theorem diamond_lifetime : ∃ db, Lifetime strict diamondCrawls db := by
  obtain ⟨db₁, hv, hu⟩ := visit_of_oneWord strict root_plain diamond_root .empty
  have hl₁ : Sequential.loop (webEnv strict (Parse.page diamond)) 1
      (Sequential.seeded .empty ⟨root, (0 : Nat)⟩) =
        some ⟨[], db₁, false, [⟨root, 0⟩], [⟨root, 0⟩], [⟨root, 0⟩]⟩ := by
    simp [Sequential.loop, Sequential.seeded, Globals.initial, Globals.push, SafeQueue.push,
      Sequential.iteration, Sequential.parse, Sequential.record, hv]
  have honly : ∀ u ∈ db₁.urlTexts, u = root := fun u h => by
    simpa [Database.urlTexts, Database.empty] using (hu u).mp h
  obtain ⟨db₂, -, hl₂⟩ := diamond_shallow db₁ honly
  obtain ⟨as₁, s₁, r₁, hs₁, hw₁⟩ := Deepening.drained_of_loop hl₁ rfl
  obtain ⟨as₂, s₂, r₂, hs₂, -⟩ := Deepening.drained_of_loop hl₂ rfl
  obtain rfl : s₁.globals.world = db₁ := hw₁
  have h₁ := Lifetime.crawled .fresh ⟨diamond, root, 0⟩ 1 as₁ s₁ r₁ hs₁
  exact ⟨_, h₁.crawled ⟨diamond, root, 1⟩ 1 as₂ s₂ r₂ hs₂⟩

theorem diamond_stored : ∃ db, Lifetime strict diamondCrawls db ∧
    ∀ u, u ∈ db.urlTexts ↔ u ∈ storedAfter diamondCrawls := by
  obtain ⟨db, h⟩ := diamond_lifetime
  have hans : ∀ crawl ∈ diamondCrawls, ∀ parser, Links.HtmlParser.new crawl.start = .ok parser →
      FindUrlSucceeds strict (Parse.page crawl.getContent) parser.getURL :=
    List.forall_mem_cons.mpr
      ⟨Deepening.diamond_asked, List.forall_mem_singleton.mpr Deepening.diamond_asked⟩
  exact ⟨db, h, lifetime_stored strict diamondCrawls hans db h⟩

end Diamond

end SpiderSearch.Recrawl
