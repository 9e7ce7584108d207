import SpiderSearch.Layers
import SpiderSearch.WebCrawl

namespace SpiderSearch.LinkDepth

open CppTypes Tables DbSession DbClient AddLink DoWork Runs CrawlLoop WorkerPool PoolLock
  PoolRefines WebCrawl Layers SqlText
open SpiderSearch.LoneWorker (twoVisits)

variable {server : Server} {web : Web} {start : Str} {d : Nat}

def subLinks (web : Web) (u : Str) : List Str :=
  match web u with
  | .parsed _ _ links => links
  | _ => []

def Links (web : Web) (u v : Str) : Prop := v ∈ subLinks web u

def Parses (web : Web) (u : Str) : Prop := ∃ url wordCount links, web u = .parsed url wordCount links

/-- A visit of `u` indexes the page under `url`. -/
def Indexes (web : Web) (u url : Str) : Prop :=
  ∃ wordCount, web u = .badLink url wordCount ∨ ∃ links, web u = .parsed url wordCount links

theorem Links.parses {u v : Str} (h : Links web u v) : Parses web u := by
  rw [Links, subLinks] at h
  split at h
  next url wordCount links hw => exact ⟨url, wordCount, links, hw⟩
  · cases h

def pending : Stage → List Str
  | .findUrl _ subLink rest | .push _ subLink rest => subLink :: rest
  | .visit _ | .unlock _ => []

@[simp] theorem pending_forSubLinks (work : TqueueItem) (links : List Str) :
    pending (forSubLinks work links) = links := by
  cases links <;> rfl

/-- The item stands as many links away from the start as its depth was counted down. -/
def AtLevel (web : Web) (start : Str) (d : Nat) (item : TqueueItem) : Prop :=
  ∃ k : Nat, k ≤ d ∧ item.dept = d - k ∧ Walk (Links web) k start item.url

theorem AtLevel.subLink {work : TqueueItem} {v : Str} (h : AtLevel web start d work)
    (hd : 0 < work.dept) (hv : Links web work.url v) : AtLevel web start d ⟨v, work.dept - 1⟩ := by
  obtain ⟨k, hk, he, hw⟩ := h
  refine ⟨k + 1, by omega, ?_, hw.snoc hv⟩
  push_cast
  omega

structure Levels (web : Web) (start : Str) (d : Nat) (c : Loop Database) : Prop where
  pushed : ∀ item ∈ c.globals.pushed, AtLevel web start d item
  pending : ∀ st, c.stage = some st → ∀ v ∈ pending st, Links web st.work.url v ∧ 0 < st.work.dept
  table : ∀ url ∈ c.globals.world.urlTexts, ∃ u k, k ≤ d ∧ Walk (Links web) k start u ∧ Indexes web u url

theorem levels_initial : Levels web start d (.initial .empty) :=
  ⟨nofun, nofun, nofun⟩

theorem mem_urlTexts_tablesAfter {words : StdMap Nat} {url u : Str} {db : Database}
    {cut : Option Nat} (h : u ∈ (tablesAfter (addLink server words url) db cut).urlTexts) :
    u ∈ db.urlTexts ∨ u = url := by
  obtain he | ⟨done, -, hf⟩ := tablesAfter_partly server words url db cut
  · rw [he] at h
    exact .inl h
  · rw [hf.urls] at h
    simpa using h

/-- A worker that has indexed its page goes on with the links that are left. -/
theorem Levels.forSubLinks {c : Loop Database} (work : TqueueItem) (links : List Str)
    (hpushed : ∀ item ∈ c.globals.pushed, AtLevel web start d item)
    (htable : ∀ url ∈ c.globals.world.urlTexts,
      ∃ u k, k ≤ d ∧ Walk (Links web) k start u ∧ Indexes web u url)
    (hlinks : ∀ v ∈ links, Links web work.url v ∧ 0 < work.dept) :
    Levels web start d { c with stage := some (forSubLinks work links) } where
  pushed := hpushed
  pending := by
    intro st hst v hv
    cases hst
    rw [pending_forSubLinks] at hv
    rw [forSubLinks_work]
    exact hlinks v hv
  table := htable

theorem levels_body {c : Loop Database} (hh : History c) (hi : Levels web start d c) {st : Stage}
    {g : Globals Database} {next : Option Stage} (hs : c.stage = some st)
    (hb : BodyStep (webEnv server web) c.globals st g next) :
    Levels web start d { c with globals := g, stage := next } := by
  have hlev : AtLevel web start d st.work := hi.pushed _ (hh.popped_subset (hh.work_mem hs))
  have hpend := hi.pending st hs
  have htable : ∀ (words : StdMap Nat) (url : Str), Indexes web st.work.url url →
      ∀ x ∈ (tablesAfter (addLink server words url) c.globals.world none).urlTexts,
        ∃ u k, k ≤ d ∧ Walk (Links web) k start u ∧ Indexes web u x := by
    intro words url hix x hx
    obtain hx | rfl := mem_urlTexts_tablesAfter hx
    · exact hi.table x hx
    · obtain ⟨k, hk, -, hw⟩ := hlev
      exact ⟨_, k, hk, hw, hix⟩
  cases hb with
  | thrown work w hv =>
    refine ⟨hi.pushed, fun st' hst' => by cases hst'; exact nofun, ?_⟩
    obtain rfl | ⟨url, words, hix, rfl⟩ := visit_thrown hv
    · exact hi.table
    · exact htable words url ⟨words, hix⟩
  | rejected work w hv =>
    obtain ⟨-, rfl⟩ := visit_rejected hv
    exact ⟨hi.pushed, fun st' hst' => by cases hst'; exact nofun, hi.table⟩
  | expand work w links hv hd =>
    obtain ⟨url, words, hw, -, rfl⟩ := visit_parsed hv
    refine Levels.forSubLinks (c := { c with globals := { c.globals with world := _ } }) work links
      hi.pushed (htable words url ⟨words, .inr ⟨links, hw⟩⟩) fun v hm => ⟨?_, hd⟩
    rwa [Links, subLinks, hw]
  | leaf work w links hv hd =>
    obtain ⟨url, words, hw, -, rfl⟩ := visit_parsed hv
    exact ⟨hi.pushed, fun st' hst' => by cases hst'; exact nofun,
      htable words url ⟨words, .inr ⟨links, hw⟩⟩⟩
  | failed work link rest hf =>
    exact ⟨hi.pushed, fun st' hst' => by cases hst'; exact hpend, hi.table⟩
  | known work link rest w hf =>
    obtain ⟨-, rfl⟩ := findUrl_answer hf
    exact Levels.forSubLinks (c := c) work rest hi.pushed hi.table fun v hm =>
      hpend v (List.mem_cons_of_mem _ hm)
  | unknown work link rest w hf =>
    obtain ⟨-, rfl⟩ := findUrl_answer hf
    exact ⟨hi.pushed, fun st' hst' => by cases hst'; exact hpend, hi.table⟩
  | push work link rest =>
    have hpushed : ∀ item ∈ (c.globals.push ⟨link, work.dept - 1⟩).pushed,
        AtLevel web start d item := by
      obtain ⟨hl, hd⟩ := hpend link List.mem_cons_self
      exact Globals.forall_pushed hi.pushed (hlev.subLink hd hl)
    exact Levels.forSubLinks (c := { c with globals := c.globals.push ⟨link, work.dept - 1⟩ }) work
      rest hpushed hi.table fun v hm => hpend v (List.mem_cons_of_mem _ hm)
  | unlock work => exact ⟨hi.pushed, nofun, hi.table⟩

theorem levels_step {c c' : Loop Database} (hh : History c) (hi : Levels web start d c)
    (h : LoopStep (webEnv server web) ⟨start, d⟩ c c') : Levels web start d c' := by
  cases h with
  | seed hs =>
    obtain ⟨hn, -⟩ := hh.fresh hs
    refine ⟨?_, by simp [hn], hi.table⟩
    apply Globals.forall_pushed hi.pushed
    exact ⟨0, Nat.zero_le d, by simp, .refl start⟩
  | pop work rest hs hq =>
    refine ⟨hi.pushed, ?_, hi.table⟩
    intro st hst
    cases hst
    exact nofun
  | body st g next hs hb => exact levels_body hh hi hs hb

theorem levels_run {ts : List Turn} {c : Loop Database}
    (h : run (CrawlLoop.step (webEnv server web) ⟨start, d⟩) (.initial .empty) ts = some c) :
    Levels web start d c := by
  refine (run_invariant (I := fun c => History c ∧ Levels web start d c) ?_
    ⟨history_initial .empty, levels_initial⟩ h).2
  rintro c t c' ⟨hh, hi⟩ hs
  exact ⟨history_step hh (CrawlLoop.step_cases hs), levels_step hh hi (CrawlLoop.step_cases hs)⟩

/-- Without a page to index at distance `d` itself, every indexed page lies within `d - 1`. -/
theorem indexed_within_depth (server : Server) (web : Web) (start : Str) (d : Nat)
    (hfree : ∀ u url, Nearest (Links web) d start u → ¬ Indexes web u url) (n : Nat)
    (as : List (Thread n)) (s : Pool n Database)
    (h : run (WorkerPool.step (webEnv server web) ⟨start, d⟩) (.initial n .empty) as = some s) :
    ∀ url ∈ s.globals.world.urlTexts,
      ∃ u k, k + 1 ≤ d ∧ Walk (Links web) k start u ∧ Indexes web u url := by
  obtain ⟨ts, hr⟩ := core_run h
  intro url hu
  obtain ⟨u, k, hk, hw, hix⟩ := (levels_run hr).table url hu
  obtain ⟨j, hj, hn⟩ := hw.nearest
  by_cases he : j = d
  · subst he
    exact absurd hix (hfree u url hn)
  · exact ⟨u, j, by omega, hn.1, hix⟩

theorem twoPages_links {u v : Str} (h : Links twoPages u v) : u = home.url ∧ v = second := by
  rw [Links, subLinks, twoPages] at h
  split_ifs at h with hu
  · exact ⟨hu, List.mem_singleton.mp h⟩
  · cases h
  · cases h

/-- Depth 2 leads to the page behind the start page and would lead no further. -/
theorem twoPages_within_depth : ∃ s,
    run (WorkerPool.step (webEnv strict twoPages) ⟨home.url, (2 : Nat)⟩) (.initial 1 .empty) twoVisits =
      some s ∧ s.globals.world.urlTexts = [home.url, second] ∧
    ∀ url ∈ s.globals.world.urlTexts,
      ∃ u k, k + 1 ≤ 2 ∧ Walk (Links twoPages) k home.url u ∧ Indexes twoPages u url := by
  have hfree : ∀ u url, Nearest (Links twoPages) 2 home.url u → ¬ Indexes twoPages u url := by
    rintro u url ⟨hw, -⟩ -
    cases hw with
    | snoc hw he =>
      cases hw with
      | snoc _ he' =>
        have hsecond := (twoPages_links he').2
        rw [(twoPages_links he).1] at hsecond
        exact second_ne_home hsecond.symm
  obtain ⟨db, hdb, hr⟩ := run_twoPages (d := (2 : Nat)) (by decide)
  exact ⟨_, hr, hdb, indexed_within_depth strict twoPages home.url 2 hfree 1 twoVisits _ hr⟩

/-- With depth 1 the page that the start page links to is indexed as well. -/
theorem indexed_beyond_depth : ¬ ∀ (server : Server) (web : Web) (start : Str) (d : Nat), 1 ≤ d →
    ∀ (n : Nat) (as : List (Thread n)) (s : Pool n Database),
      run (WorkerPool.step (webEnv server web) ⟨start, d⟩) (.initial n .empty) as = some s →
        ∀ url ∈ s.globals.world.urlTexts,
          ∃ u k, k + 1 ≤ d ∧ Walk (Links web) k start u ∧ Indexes web u url := by
  intro h
  obtain ⟨db, hdb, hr⟩ := twoPages_run
  have hin : second ∈ db.urlTexts := by simp [hdb]
  obtain ⟨u, k, hk, hw, words, hix⟩ := h strict twoPages home.url 1 le_rfl 1 twoVisits _ hr second hin
  obtain rfl : k = 0 := by omega
  cases hw
  have hhome : twoPages home.url = .parsed home.url oneWord [second] := if_pos rfl
  rw [hhome] at hix
  simp [second_ne_home.symm] at hix

end SpiderSearch.LinkDepth
