import SpiderSearch.BreadthFirst
import SpiderSearch.LinkDepth

namespace SpiderSearch.Coverage

open CppTypes Tables DbSession DbClient AddLink DoWork Runs CrawlLoop WorkerPool PoolLock
  PoolRefines WebCrawl Layers LinkDepth BreadthFirst SqlText
open SpiderSearch.LoneWorker (solo twoVisits)

variable {server : Server} {web : Web} {start : Str} {d : Nat}

/-- A link from one page to another that parses. -/
def Follows (web : Web) (u v : Str) : Prop := Links web u v ∧ Parses web v

/-- A chain of at most `d` links all of whose pages parse. -/
def Chain (web : Web) (d : Nat) (u v : Str) : Prop := Parses web u ∧ Within (Follows web) d u v

/-- `GetURL` gives back every URL that can be queued. -/
def SameUrl (web : Web) (start : Str) : Prop :=
  ∀ k u url, Walk (Links web) k start u → Indexes web u url → url = u

/-- A `findUrl` that does not throw tells whether the URL is stored. -/
def FindUrlSucceeds (server : Server) (web : Web) (start : Str) : Prop :=
  ∀ k u, Walk (Links web) k start u → ∀ db id, findUrl server u db = .ok id →
    id = decide (u ∈ db.urlTexts)

theorem walk_follows {k : Nat} {u v : Str} (h : Walk (Links web) k u v) (hv : Parses web v) :
    Parses web u ∧ Walk (Follows web) k u v := by
  induction h with
  | refl a => exact ⟨hv, .refl a⟩
  | snoc _ he ih =>
    obtain ⟨hu, hw⟩ := ih he.parses
    exact ⟨hu, hw.snoc ⟨he, hv⟩⟩

/-- The link `v` found at depth `e` is queued for the next level, or its page has been taken at
this level or above. -/
def Settled (web : Web) (g : Globals Database) (e : Int) (v : Str) : Prop :=
  ⟨v, e - 1⟩ ∈ g.pushed ∨ Parses web v ∧ ∃ p ∈ g.popped, p.url = v ∧ e ≤ p.dept

/-- The page of `p` is in the table and its links, those of `todo` apart, are settled. -/
def Done (web : Web) (g : Globals Database) (p : TqueueItem) (todo : List Str) : Prop :=
  (Parses web p.url → p.url ∈ g.world.urlTexts) ∧
    (0 < p.dept → ∀ v, Links web p.url v → v ∈ todo ∨ Settled web g p.dept v)

structure Grows (g g' : Globals Database) : Prop where
  pushed : ∀ p ∈ g.pushed, p ∈ g'.pushed
  popped : ∀ p ∈ g.popped, p ∈ g'.popped
  urls : ∀ u ∈ g.world.urlTexts, u ∈ g'.world.urlTexts

theorem Settled.mono {g g' : Globals Database} (hg : Grows g g') {e : Int} {v : Str}
    (h : Settled web g e v) : Settled web g' e v := by
  obtain h | ⟨hp, p, hm, h⟩ := h
  · exact .inl (hg.pushed _ h)
  · exact .inr ⟨hp, p, hg.popped p hm, h⟩

theorem Done.mono {g g' : Globals Database} (hg : Grows g g') {p : TqueueItem} {todo : List Str}
    (h : Done web g p todo) : Done web g' p todo :=
  ⟨fun hp => hg.urls _ (h.1 hp), fun hd v hv => (h.2 hd v hv).imp_right (Settled.mono hg)⟩

theorem Done.settle {g : Globals Database} {p : TqueueItem} {v : Str} {todo : List Str}
    (h : Done web g p (v :: todo)) (hv : Settled web g p.dept v) : Done web g p todo := by
  refine ⟨h.1, fun hd w hw => ?_⟩
  obtain hm | hs := h.2 hd w hw
  · obtain rfl | hm := List.mem_cons.mp hm
    · exact .inr hv
    · exact .inl hm
  · exact .inr hs

/-- What has been indexed and queued so far, as long as no exception has ended the process. -/
structure Expanded (web : Web) (c : Loop Database) : Prop where
  table : ∀ u ∈ c.globals.world.urlTexts, Parses web u ∧ ∃ p ∈ c.globals.popped, p.url = u
  processed : ∀ p ∈ c.globals.processed, Done web c.globals p []
  current : ∀ st, c.stage = some st → st ≠ .visit st.work →
    Done web c.globals st.work (pending st)

theorem urlTexts_subset_tablesAfter {words : StdMap Nat} {url u : Str} {db : Database}
    {cut : Option Nat} (h : u ∈ db.urlTexts) :
    u ∈ (tablesAfter (addLink server words url) db cut).urlTexts := by
  obtain he | ⟨done, -, hf⟩ := tablesAfter_partly server words url db cut
  · rwa [he]
  · rw [hf.urls]
    exact List.mem_append_left _ h

/-- The state after a page has been parsed: it is in the table and its links are to come. -/
theorem expanded_parsed {c : Loop Database} {work : TqueueItem} {links : List Str} {w : Database}
    (hi : Expanded web c) (hm : work ∈ c.globals.popped)
    (hurl : ∀ url, Indexes web work.url url → url = work.url)
    (hans : ∀ db id, findUrl server work.url db = .ok id → id = decide (work.url ∈ db.urlTexts))
    (hv : (webEnv server web).visit c.globals.world work.url = .parsed w links)
    {next : Stage} (hw : next.work = work) (hn : 0 < work.dept → pending next = links) :
    Expanded web { c with globals := { c.globals with world := w }, stage := some next } := by
  obtain ⟨url, words, hp, hc, rfl⟩ := visit_parsed hv
  obtain rfl := hurl url ⟨words, .inr ⟨links, hp⟩⟩
  have hgrow : Grows c.globals { c.globals with
      world := tablesAfter (addLink server words work.url) c.globals.world none } :=
    ⟨fun _ h => h, fun _ h => h, fun _ h => urlTexts_subset_tablesAfter h⟩
  have hin : work.url ∈ (tablesAfter (addLink server words work.url) c.globals.world none).urlTexts := by
    obtain ⟨hf, he⟩ | hf := tablesAfter_complete hc
    · rw [he]
      exact of_decide_eq_true (hans _ _ hf).symm
    · rw [hf.urls]
      exact List.mem_append_right _ (List.mem_singleton_self _)
  refine ⟨?_, fun p hpm => (hi.processed p hpm).mono hgrow, ?_⟩
  · intro u hu
    obtain hu | rfl := mem_urlTexts_tablesAfter hu
    · exact hi.table u hu
    · exact ⟨⟨_, words, links, hp⟩, work, hm, rfl⟩
  · intro st hst _
    cases hst
    rw [hw]
    refine ⟨fun _ => hin, fun hd v hl => .inl ?_⟩
    rw [hn hd]
    rwa [Links, subLinks, hp] at hl

theorem expanded_initial : Expanded web (.initial .empty) := ⟨nofun, nofun, nofun⟩

theorem expanded_body {c : Loop Database} (hurl : SameUrl web start)
    (hans : FindUrlSucceeds server web start) (hh : History c) (hlay : ∃ e, Layered e c)
    (hlev : Levels web start d c) (hi : Expanded web c) {st : Stage} {g : Globals Database}
    {next : Option Stage} (hs : c.stage = some st)
    (hb : BodyStep (webEnv server web) c.globals st g next) (ht : g.terminated = false) :
    Expanded web { c with globals := g, stage := next } := by
  have hmem : st.work ∈ c.globals.popped := hh.work_mem hs
  obtain ⟨k, -, -, hwalk⟩ := hlev.pushed _ (hh.popped_subset hmem)
  have hcur := hi.current st hs
  cases hb with
  | thrown work w hv => simp at ht
  | failed work link rest hf => simp at ht
  | rejected work w hv =>
    obtain ⟨hp, rfl⟩ := visit_rejected hv
    have hn : ¬ Parses web work.url := by
      rintro ⟨url, words, links, he⟩
      rw [hp] at he
      cases he
    refine ⟨hi.table, hi.processed, ?_⟩
    intro st' hst' _
    cases hst'
    exact ⟨fun h => absurd h hn, fun _ v hv => absurd hv.parses hn⟩
  | expand work w links hv hd =>
    exact expanded_parsed hi hmem (hurl k _ · hwalk) (hans k _ hwalk) hv
      (forSubLinks_work work links) fun _ => pending_forSubLinks work links
  | leaf work w links hv hd =>
    exact expanded_parsed hi hmem (hurl k _ · hwalk) (hans k _ hwalk) hv rfl
      fun h => absurd hd (Int.not_le.mpr h)
  | known work link rest w hf =>
    obtain ⟨hok, rfl⟩ := findUrl_answer hf
    obtain ⟨hl, -⟩ := hlev.pending _ hs link List.mem_cons_self
    -- the page is indexed already; depths only fall, so it was taken at this level or above
    have hin : link ∈ c.globals.world.urlTexts :=
      of_decide_eq_true (hans _ link (hwalk.snoc hl) _ _ hok).symm
    obtain ⟨hp, p, hpm, he⟩ := hi.table link hin
    obtain ⟨e, hlay⟩ := hlay
    have hle : work.dept ≤ p.dept := by
      rw [← findUrl_work work link rest, hlay.stage _ hs]
      exact hlay.above p hpm
    refine ⟨hi.table, hi.processed, ?_⟩
    intro st' hst' _
    cases hst'
    rw [forSubLinks_work, pending_forSubLinks]
    exact (hcur (by simp)).settle (.inr ⟨hp, p, hpm, he, hle⟩)
  | unknown work link rest w hf =>
    obtain ⟨-, rfl⟩ := findUrl_answer hf
    refine ⟨hi.table, hi.processed, ?_⟩
    intro st' hst' _
    cases hst'
    exact hcur (by simp)
  | push work link rest =>
    have hg : Grows c.globals (c.globals.push ⟨link, work.dept - 1⟩) :=
      ⟨fun _ h => List.mem_append_left _ h, fun _ h => h, fun _ h => h⟩
    refine ⟨hi.table, fun p hp => (hi.processed p hp).mono hg, ?_⟩
    intro st' hst' _
    cases hst'
    rw [forSubLinks_work, pending_forSubLinks]
    refine ((hcur (by simp)).mono hg).settle (.inl ?_)
    exact List.mem_append_right _ (List.mem_singleton_self _)
  | unlock work =>
    refine ⟨hi.table, fun p hp => ?_, nofun⟩
    obtain hp | hp := List.mem_append.mp hp
    · exact hi.processed p hp
    · rw [List.mem_singleton.mp hp]
      exact hcur (by simp)

theorem expanded_step {c c' : Loop Database} (hurl : SameUrl web start)
    (hans : FindUrlSucceeds server web start) (hh : History c) (hlay : ∃ e, Layered e c)
    (hlev : Levels web start d c) (hi : Expanded web c)
    (h : LoopStep (webEnv server web) ⟨start, d⟩ c c') (ht : c'.globals.terminated = false) :
    Expanded web c' := by
  cases h with
  | seed hs =>
    obtain ⟨hn, -⟩ := hh.fresh hs
    have hg : Grows c.globals (c.globals.push ⟨start, d⟩) :=
      ⟨fun _ h => List.mem_append_left _ h, fun _ h => h, fun _ h => h⟩
    exact ⟨hi.table, fun p hp => (hi.processed p hp).mono hg, by simp [hn]⟩
  | pop work rest hs hq =>
    have hg : Grows c.globals
        { c.globals with queue := rest, popped := c.globals.popped ++ [work] } :=
      ⟨fun _ h => h, fun _ h => List.mem_append_left _ h, fun _ h => h⟩
    refine ⟨fun u hu => ?_, fun p hp => (hi.processed p hp).mono hg, ?_⟩
    · obtain ⟨hp, p, hm, he⟩ := hi.table u hu
      exact ⟨hp, p, hg.popped p hm, he⟩
    · intro st hst hne
      cases hst
      exact absurd rfl hne
  | body st g next hs hb => exact expanded_body hurl hans hh hlay hlev hi hs hb ht

theorem expanded_run (hurl : SameUrl web start) (hans : FindUrlSucceeds server web start)
    {ts : List Turn} {c : Loop Database}
    (h : run (CrawlLoop.step (webEnv server web) ⟨start, d⟩) (.initial .empty) ts = some c)
    (ht : c.globals.terminated = false) : Expanded web c := by
  refine (run_invariant (I := fun c => (History c ∧ (∃ e, Layered e c) ∧ Levels web start d c) ∧
    (c.globals.terminated = false → Expanded web c)) ?_ ?_ h).2 ht
  · rintro c t c' ⟨⟨hh, hlay, hlev⟩, hi⟩ hs
    have hc := CrawlLoop.step_cases hs
    refine ⟨⟨history_step hh hc, layered_step hh hlay hc, levels_step hh hlev hc⟩, fun ht' => ?_⟩
    have ht : c.globals.terminated = false := by
      cases htc : c.globals.terminated with
      | false => rfl
      | true => simp [CrawlLoop.step, htc] at hs
    exact expanded_step hurl hans hh hlay hlev (hi ht) hc ht'
  · exact ⟨⟨history_initial Database.empty, layered_initial Database.empty, levels_initial⟩,
      fun _ => expanded_initial⟩

/-- The levels at which the pages that parse have been taken. -/
def Taken (web : Web) (d : Nat) (c : Loop Database) (v : Str) (k : Nat) : Prop :=
  Parses web v ∧ k ≤ d ∧ ∃ p ∈ c.globals.processed, p.url = v ∧ p.dept = d - k

/-- A drained loop is a breadth-first search. -/
theorem explored_of_drained {c : Loop Database} (hh : History c) (hlev : Levels web start d c)
    (hi : Expanded web c) (hs : c.stage = none) (hq : c.globals.queue = [])
    (hstart : ⟨start, d⟩ ∈ c.globals.pushed) (hp : Parses web start) :
    Explored (Follows web) start d (Taken web d c) := by
  have hpush : c.globals.pushed = c.globals.processed := by
    rw [hh.pushed, hh.processed, hq, hs]
    simp
  have hpop : c.globals.popped = c.globals.processed := by
    rw [hh.processed, hs]
    simp
  refine ⟨⟨hp, Nat.zero_le d, _, hpush ▸ hstart, rfl, by simp⟩, ?_, ?_⟩
  · rintro v k ⟨hv, hk, p, hpm, rfl, he⟩
    obtain ⟨j, hj, hje, hw⟩ := hlev.pushed p (hpush ▸ hpm)
    obtain rfl : j = k := by omega
    exact (walk_follows hw hv).2
  · rintro u v k ⟨hu, hk, p, hpm, rfl, he⟩ hkd ⟨hl, hv⟩
    have hd : 0 < p.dept := by omega
    obtain hn | hset := (hi.processed p hpm).2 hd v hl
    · cases hn
    · obtain hnew | ⟨-, p', hpm', rfl, hle⟩ := hset
      · left
        refine ⟨hv, hkd, _, hpush ▸ hnew, rfl, ?_⟩
        simp only
        omega
      · right
        obtain ⟨j, hj, hje, -⟩ := hlev.pushed p' (hh.popped_subset hpm')
        exact ⟨j, by omega, hv, hj, p', hpop ▸ hpm', rfl, hje⟩

theorem start_pushed {ts : List Turn} {c : Loop Database}
    (h : run (CrawlLoop.step (webEnv server web) ⟨start, d⟩) (.initial .empty) ts = some c)
    (hs : c.started = true) : ⟨start, d⟩ ∈ c.globals.pushed := by
  refine run_invariant (I := fun c : Loop Database =>
    c.started = true → (⟨start, d⟩ : TqueueItem) ∈ c.globals.pushed) ?_ (fun h => by cases h) h hs
  intro c t c' hi hst hs'
  cases CrawlLoop.step_cases hst with
  | seed hn => exact List.mem_append_right _ (List.mem_singleton_self _)
  | pop work rest hn hq => exact hi hs'
  | body st g next hn hb =>
    cases hb with
    | push work link rest => exact List.mem_append_left _ (hi hs')
    | _ => exact hi hs'

theorem mem_drained (hurl : SameUrl web start) (hans : FindUrlSucceeds server web start) {n : Nat}
    {as : List (Thread n)} {s : Pool n Database}
    (h : run (WorkerPool.step (webEnv server web) ⟨start, d⟩) (.initial n .empty) as = some s)
    (hp : s.pushed = true) (hq : s.globals.queue = []) (hquiet : s.Quiet) (u : Str) :
    u ∈ s.globals.world.urlTexts ↔ Chain web d start u := by
  obtain ⟨ts, hr⟩ := core_run h
  have hs : (core s).stage = none := core_stage_of_quiet hquiet
  have ht : (core s).globals.terminated = false := by
    cases htc : (core s).globals.terminated with
    | false => rfl
    | true => exact absurd hs ((Sequential.tracks_run hr).stage htc)
  have hh := history_run hr
  have hlev := levels_run hr
  have hi := expanded_run hurl hans hr ht
  apply Iff.intro
  · intro hu
    obtain ⟨hpu, p, hpm, rfl⟩ := hi.table u hu
    obtain ⟨k, hk, -, hw⟩ := hlev.pushed p (hh.popped_subset hpm)
    obtain ⟨hps, hw'⟩ := walk_follows hw hpu
    exact ⟨hps, k, hk, hw'⟩
  · rintro ⟨hps, hw⟩
    have hx := explored_of_drained hh hlev hi hs hq (start_pushed hr hp) hps
    obtain ⟨k, -, hpu, -, p, hpm, rfl, -⟩ := (hx.within_iff u).mp hw
    exact (hi.processed p hpm).1 hpu

/-- Once the queue is drained the table holds exactly the pages within the depth of the crawl. -/
theorem crawl_covers (server : Server) (web : Web) (start : Str) (d : Nat)
    (hurl : SameUrl web start) (hans : FindUrlSucceeds server web start) (n : Nat)
    (as : List (Thread n)) (s : Pool n Database)
    (h : run (WorkerPool.step (webEnv server web) ⟨start, d⟩) (.initial n .empty) as = some s)
    (hp : s.pushed = true) (hq : s.globals.queue = []) (hquiet : s.Quiet) (u : Str) :
    u ∈ s.globals.world.urlTexts ↔ Chain web d start u :=
  mem_drained hurl hans h hp hq hquiet u

/-- On a drained run the depth is exceeded exactly where a page at distance `d` parses. -/
theorem drained_within_depth_iff (hurl : SameUrl web start)
    (hans : FindUrlSucceeds server web start) {n : Nat} {as : List (Thread n)} {s : Pool n Database}
    (h : run (WorkerPool.step (webEnv server web) ⟨start, d⟩) (.initial n .empty) as = some s)
    (hp : s.pushed = true) (hq : s.globals.queue = []) (hquiet : s.Quiet) :
    (∀ url ∈ s.globals.world.urlTexts,
        ∃ u k, k + 1 ≤ d ∧ Walk (Links web) k start u ∧ Indexes web u url) ↔
      ∀ u, Nearest (Links web) d start u → ¬ Parses web u := by
  have hc := mem_drained hurl hans h hp hq hquiet
  apply Iff.intro
  · intro hin u hn hu
    obtain ⟨hs, hw⟩ := walk_follows hn.1 hu
    obtain ⟨v, k, hk, hv, hix⟩ := hin u ((hc u).mpr ⟨hs, d, le_rfl, hw⟩)
    obtain rfl := hurl k v u hv hix
    exact hn.2 k hk hv
  · intro hfree u hu
    obtain ⟨hs, k, hk, hw⟩ := (hc u).mp hu
    have hpu : Parses web u := by
      cases hw with
      | refl => exact hs
      | snoc _ he => exact he.2
    obtain ⟨j, hj, hn⟩ := (hw.mono fun _ _ he => he.1).nearest
    have hne : j ≠ d := fun he => hfree u (he ▸ hn) hpu
    have hix := hpu
    obtain ⟨url, words, links, hpage⟩ := hix
    obtain rfl := hurl j u url hn.1 ⟨words, .inr ⟨links, hpage⟩⟩
    exact ⟨_, j, by omega, hn.1, words, .inr ⟨links, hpage⟩⟩

theorem twoPages_same : SameUrl twoPages home.url := by
  rintro k u url - ⟨words, h⟩
  rw [twoPages] at h
  split_ifs at h <;> simp_all

theorem twoPages_findUrl : FindUrlSucceeds strict twoPages home.url := by
  intro k u hw db id h
  have hq : quote ∉ u := by
    cases hw with
    | refl => exact home_valid.link
    | snoc _ he =>
      rw [(twoPages_links he).2]
      exact second_valid.link
  rw [findUrl_plain strict hq] at h
  exact (Except.ok.inj h).symm

theorem twoPages_covered : ∃ s,
    run (WorkerPool.step (webEnv strict twoPages) home) (.initial 1 .empty) twoVisits = some s ∧
    second ∈ s.globals.world.urlTexts ∧
    ∀ u, u ∈ s.globals.world.urlTexts ↔ Chain twoPages 1 home.url u := by
  obtain ⟨db, hdb, hr⟩ := twoPages_run
  exact ⟨_, hr, by simp [solo, hdb], crawl_covers strict twoPages home.url 1 twoPages_same
    twoPages_findUrl 1 twoVisits _ hr rfl rfl ((inv_run hr).quiet rfl)⟩

end SpiderSearch.Coverage
