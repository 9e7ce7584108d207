import SpiderSearch.Coverage
import SpiderSearch.Parse

namespace SpiderSearch.VisitOnce

open CppTypes Tables DbSession DbClient AddLink DoWork Runs CrawlLoop WorkerPool PoolLock
  PoolRefines WebCrawl Layers LinkDepth Coverage

variable {server : Server} {web : Web} {start : TqueueItem}

/-- The link that is about to be pushed is not waiting in the queue already. -/
def NotWaiting (c : Loop Database) : Prop :=
  ∀ work subLink rest, c.stage = some (.push work subLink rest) →
    ∀ q ∈ c.globals.queue, q.url ≠ subLink

/-- A visited URL that some page links to is in the table. -/
def Kept (web : Web) (g : Globals Database) (u : Str) : Prop :=
  (∃ w, Links web w u) → u ∈ g.world.urlTexts

theorem Kept.mono {g g' : Globals Database} (hg : ∀ u ∈ g.world.urlTexts, u ∈ g'.world.urlTexts)
    {u : Str} (h : Kept web g u) : Kept web g' u :=
  fun hl => hg u (h hl)

/-- As long as nothing is pushed while it waits, no URL is pushed twice: what has been visited
is in the table, and `findUrl` sees it there. -/
structure Once (web : Web) (start : Str) (c : Loop Database) : Prop where
  pushed : (c.globals.pushed.map TqueueItem.url).Nodup
  reached : ∀ p ∈ c.globals.pushed, ∃ k, Walk (Links web) k start p.url
  pending : ∀ st, c.stage = some st → ∀ v ∈ pending st, Links web st.work.url v
  processed : ∀ p ∈ c.globals.processed, Kept web c.globals p.url
  current : ∀ st, c.stage = some st → st ≠ .visit st.work → Kept web c.globals st.work.url
  unseen : ∀ work v rest, c.stage = some (.push work v rest) → v ∉ c.globals.world.urlTexts

theorem once_initial (world : Database) : Once web start.url (.initial world) :=
  ⟨List.nodup_nil, nofun, nofun, nofun, nofun, nofun⟩

/-- A page that parses is in the table afterwards, if its URL is one that is linked to. -/
theorem kept_parsed {g : Globals Database} {u : Str} {links : List Str} {w : Database} {k : Nat}
    (hkey : ∀ u v url, Links web u v → Indexes web v url → url = v)
    (hans : FindUrlSucceeds server web start.url) (hw : Walk (Links web) k start.url u)
    (hv : (webEnv server web).visit g.world u = .parsed w links) :
    Kept web { g with world := w } u ∧ ∀ v ∈ g.world.urlTexts, v ∈ w.urlTexts := by
  obtain ⟨url, words, hp, hc, rfl⟩ := visit_parsed hv
  refine ⟨?_, fun v h => urlTexts_subset_tablesAfter h⟩
  rintro ⟨x, hx⟩
  obtain rfl := hkey x u url hx ⟨words, .inr ⟨links, hp⟩⟩
  obtain ⟨hf, he⟩ | hf := tablesAfter_complete hc
  · rw [he]
    exact of_decide_eq_true (hans k url hw _ _ hf).symm
  · rw [hf.urls]
    exact List.mem_append_right _ (List.mem_singleton_self _)

theorem urlTexts_of_thrown {g : Globals Database} {u : Str} {w : Database}
    (hv : (webEnv server web).visit g.world u = .thrown w) :
    ∀ v ∈ g.world.urlTexts, v ∈ w.urlTexts := by
  intro v h
  obtain rfl | ⟨url, words, -, rfl⟩ := visit_thrown hv
  · exact h
  · exact urlTexts_subset_tablesAfter h

/-- A link that is neither stored nor waiting has not been pushed before. -/
theorem notMem_pushed {c : Loop Database} (hh : History c) (hi : Once web start.url c)
    (hw : NotWaiting c) {work : TqueueItem} {link : Str} {rest : List Str}
    (hs : c.stage = some (.push work link rest)) :
    link ∉ c.globals.pushed.map TqueueItem.url := by
  have hl : ∃ w, Links web w link := ⟨_, hi.pending _ hs link List.mem_cons_self⟩
  have hn : link ∉ c.globals.world.urlTexts := hi.unseen work link rest hs
  intro hm
  obtain ⟨p, hp, rfl⟩ := List.mem_map.mp hm
  rw [hh.pushed, hh.processed, hs] at hp
  obtain hp | hp := List.mem_append.mp hp
  · obtain hp | hp := List.mem_append.mp hp
    · exact hn (hi.processed p hp hl)
    · obtain rfl : p = work := by simpa using hp
      exact hn (hi.current _ hs (by simp) hl)
  · exact hw work p.url rest hs p hp rfl

/-- A worker that has indexed its page goes on with the links that are left. -/
theorem Once.forSubLinks {start : Str} {c : Loop Database} (work : TqueueItem) (links : List Str)
    (hpushed : (c.globals.pushed.map TqueueItem.url).Nodup)
    (hreached : ∀ p ∈ c.globals.pushed, ∃ k, Walk (Links web) k start p.url)
    (hprocessed : ∀ p ∈ c.globals.processed, Kept web c.globals p.url)
    (hlinks : ∀ v ∈ links, Links web work.url v) (hkept : Kept web c.globals work.url) :
    Once web start { c with stage := some (forSubLinks work links) } where
  pushed := hpushed
  reached := hreached
  pending := by
    intro st hst v hv
    cases hst
    rw [pending_forSubLinks] at hv
    rw [forSubLinks_work]
    exact hlinks v hv
  processed := hprocessed
  current := by
    intro st hst _
    cases hst
    rwa [forSubLinks_work]
  unseen := fun work' v rest hst =>
    absurd (Option.some.inj hst) (forSubLinks_ne_push work links work' v rest)

/-- A worker at its page has not looked at any link yet. -/
theorem Once.visit {start : Str} {c : Loop Database} (work : TqueueItem)
    (hpushed : (c.globals.pushed.map TqueueItem.url).Nodup)
    (hreached : ∀ p ∈ c.globals.pushed, ∃ k, Walk (Links web) k start p.url)
    (hprocessed : ∀ p ∈ c.globals.processed, Kept web c.globals p.url) :
    Once web start { c with stage := some (.visit work) } where
  pushed := hpushed
  reached := hreached
  pending := by
    intro st hst
    cases hst
    exact List.forall_mem_nil _
  processed := hprocessed
  current := by
    intro st hst hne
    cases hst
    exact absurd rfl hne
  unseen := by simp

theorem once_body {c : Loop Database}
    (hpages : ∀ k u, Walk (Links web) k start.url u → Parses web u)
    (hkey : ∀ u v url, Links web u v → Indexes web v url → url = v)
    (hans : FindUrlSucceeds server web start.url) (hh : History c) (hw : NotWaiting c)
    (hi : Once web start.url c) {st : Stage} {g : Globals Database} {next : Option Stage}
    (hs : c.stage = some st) (hb : BodyStep (webEnv server web) c.globals st g next) :
    Once web start.url { c with globals := g, stage := next } := by
  obtain ⟨k, hwalk⟩ := hi.reached _ (hh.popped_subset (hh.work_mem hs))
  have hpend := hi.pending st hs
  have hcur := hi.current st hs
  cases hb with
  | thrown work w hv =>
    exact Once.visit (c := { c with globals := { c.globals with world := w, terminated := true } })
      work hi.pushed hi.reached fun p hp => (hi.processed p hp).mono (urlTexts_of_thrown hv)
  | failed work link rest hf =>
    refine ⟨hi.pushed, hi.reached, ?_, hi.processed, ?_, by simp⟩
    · intro st' hst'
      cases hst'
      exact hpend
    · intro st' hst' _
      cases hst'
      exact hcur (by simp)
  | rejected work w hv =>
    obtain ⟨hp, -⟩ := visit_rejected hv
    obtain ⟨url, words, links, he⟩ := hpages k _ hwalk
    rw [visit_work, hp] at he
    cases he
  | expand work w links hv hd =>
    obtain ⟨hkept, hgrow⟩ := kept_parsed hkey hans hwalk hv
    obtain ⟨url, words, hp, -, -⟩ := visit_parsed hv
    have hlinks : ∀ v ∈ links, Links web work.url v := by
      intro v hm
      rwa [Links, subLinks, hp]
    exact Once.forSubLinks (c := { c with globals := { c.globals with world := w } }) work links
      hi.pushed hi.reached (fun p hp => (hi.processed p hp).mono hgrow) hlinks hkept
  | leaf work w links hv hd =>
    obtain ⟨hkept, hgrow⟩ := kept_parsed hkey hans hwalk hv
    exact Once.forSubLinks (c := { c with globals := { c.globals with world := w } }) work []
      hi.pushed hi.reached (fun p hp => (hi.processed p hp).mono hgrow) (List.forall_mem_nil _) hkept
  | known work link rest w hf =>
    obtain ⟨-, rfl⟩ := findUrl_answer hf
    exact Once.forSubLinks (c := c) work rest hi.pushed hi.reached hi.processed
      (fun v hm => hpend v (List.mem_cons_of_mem _ hm)) (hcur (by simp))
  | unknown work link rest w hf =>
    obtain ⟨hok, rfl⟩ := findUrl_answer hf
    refine ⟨hi.pushed, hi.reached, ?_, hi.processed, ?_, ?_⟩
    · intro st' hst'
      cases hst'
      exact hpend
    · intro st' hst' _
      cases hst'
      exact hcur (by simp)
    · intro work' v rest' hst'
      cases hst'
      have hl : Links web work.url link := hpend link List.mem_cons_self
      exact of_decide_eq_false (hans _ link (hwalk.snoc hl) _ _ hok).symm
  | push work link rest =>
    have hl : Links web work.url link := hpend link List.mem_cons_self
    have hpushed : ((c.globals.push ⟨link, work.dept - 1⟩).pushed.map TqueueItem.url).Nodup := by
      rw [Globals.push, List.map_append]
      refine List.nodup_append.mpr ⟨hi.pushed, List.nodup_singleton _, ?_⟩
      rintro u hu v hv rfl
      obtain rfl : u = link := by simpa using hv
      exact notMem_pushed hh hi hw hs hu
    have hreached : ∀ p ∈ (c.globals.push ⟨link, work.dept - 1⟩).pushed,
        ∃ k, Walk (Links web) k start.url p.url := by
      apply Globals.forall_pushed hi.reached
      exact ⟨k + 1, hwalk.snoc hl⟩
    exact Once.forSubLinks (c := { c with globals := c.globals.push ⟨link, work.dept - 1⟩ }) work
      rest hpushed hreached hi.processed (fun v hm => hpend v (List.mem_cons_of_mem _ hm))
      (hcur (by simp))
  | unlock work =>
    refine ⟨hi.pushed, hi.reached, by simp, fun p hp => ?_, by simp, by simp⟩
    obtain hp | hp := List.mem_append.mp hp
    · exact hi.processed p hp
    · rw [List.mem_singleton.mp hp]
      exact hcur (by simp)

theorem once_step {c c' : Loop Database}
    (hpages : ∀ k u, Walk (Links web) k start.url u → Parses web u)
    (hkey : ∀ u v url, Links web u v → Indexes web v url → url = v)
    (hans : FindUrlSucceeds server web start.url) (hh : History c) (hw : NotWaiting c)
    (hi : Once web start.url c) (h : LoopStep (webEnv server web) start c c') :
    Once web start.url c' := by
  cases h with
  | seed hs =>
    obtain ⟨hn, hp⟩ := hh.fresh hs
    refine ⟨?_, ?_, by simp [hn], hi.processed, by simp [hn], by simp [hn]⟩
    · simp [Globals.push, hp]
    · apply Globals.forall_pushed hi.reached
      exact ⟨0, .refl _⟩
  | pop work rest hs hq =>
    exact Once.visit
      (c := { c with globals := { c.globals with queue := rest, popped := c.globals.popped ++ [work] } })
      work hi.pushed hi.reached hi.processed
  | body st g next hs hb => exact once_body hpages hkey hans hh hw hi hs hb

theorem once_run (hpages : ∀ k u, Walk (Links web) k start.url u → Parses web u)
    (hkey : ∀ u v url, Links web u v → Indexes web v url → url = v)
    (hans : FindUrlSucceeds server web start.url) {world : Database} {ts : List Turn}
    {c : Loop Database}
    (hp : Along (CrawlLoop.step (webEnv server web) start) (fun c _ => NotWaiting c) (.initial world) ts)
    (h : run (CrawlLoop.step (webEnv server web) start) (.initial world) ts = some c) :
    Once web start.url c := by
  refine (run_invariant_along (I := fun c => History c ∧ Once web start.url c) ?_
    ⟨history_initial world, once_initial world⟩ hp h).2
  rintro c t c' ⟨hh, hi⟩ hw hs
  have hc := CrawlLoop.step_cases hs
  exact ⟨history_step hh hc, once_step hpages hkey hans hh hw hi hc⟩

/-- No worker is about to push a link that waits in the queue. -/
def PushesNew {n : Nat} (s : Pool n Database) (_ : Thread n) : Prop :=
  ∀ i work subLink rest, s.pc i = .locked (.push work subLink rest) →
    ∀ q ∈ s.globals.queue, q.url ≠ subLink

theorem PushesNew.notWaiting {n : Nat} {s : Pool n Database} {a : Thread n} (h : PushesNew s a) :
    NotWaiting (core s) := by
  intro work link rest hs
  obtain ⟨i, -, hi⟩ := Option.bind_eq_some_iff.mp hs
  refine h i work link rest ?_
  cases hpc : s.pc i with
  | locked st =>
    rw [hpc] at hi
    cases hi
    rfl
  | _ => simp [hpc, stageOf] at hi

theorem core_run_along {n : Nat} {world : Database} {as : List (Thread n)} {s : Pool n Database}
    (hp : Along (WorkerPool.step (webEnv server web) start) PushesNew (.initial n world) as)
    (h : run (WorkerPool.step (webEnv server web) start) (.initial n world) as = some s) :
    ∃ ts, Along (CrawlLoop.step (webEnv server web) start) (fun c _ => NotWaiting c)
        (.initial world) ts ∧
      run (CrawlLoop.step (webEnv server web) start) (.initial world) ts = some (core s) := by
  rw [← core_initial (n := n)]
  refine run_simulates_along core (fun _ _ _ => inv_step) (fun s a t hi hn hs => ?_)
    (inv_initial world) hp h
  obtain he | ⟨b, hb⟩ := core_step hi hs
  · exact .inl he
  · exact .inr ⟨b, hn.notWaiting, hb⟩

/-- A URL has been queued twice, or is about to be. -/
def Doubled (c : Loop Database) : Prop :=
  ¬ (c.globals.pushed.map TqueueItem.url).Nodup ∨ ¬ NotWaiting c

theorem doubled_step {c c' : Loop Database} (hh : History c) (hd : Doubled c)
    (h : LoopStep (webEnv server web) start c c') : Doubled c' := by
  have grows : c.globals.pushed.Sublist c'.globals.pushed := by
    cases h with
    | seed hs => exact List.sublist_append_left _ _
    | pop work rest hs hq => exact List.Sublist.refl _
    | body st g next hs hb =>
      cases hb with
      | push work link rest => exact List.sublist_append_left _ _
      | _ => exact List.Sublist.refl _
  obtain hd | hd := hd
  · exact .inl fun hn => hd (hn.sublist (grows.map TqueueItem.url))
  · simp only [NotWaiting, not_forall, not_not] at hd
    obtain ⟨work, link, rest, hs, q, hq, rfl⟩ := hd
    left
    cases h with
    | seed hn => simp [(hh.fresh hn).1] at hs
    | pop work' rest' hn hq' => simp [hn] at hs
    | body st g next hs' hb =>
      rw [hs] at hs'
      cases hs'
      cases hb with
      | push work link rest =>
        have hm : q.url ∈ c.globals.pushed.map TqueueItem.url := by
          rw [hh.pushed]
          exact List.mem_map_of_mem (List.mem_append_right _ hq)
        rw [Globals.push, List.map_append, List.nodup_append]
        exact fun hn => hn.2.2 q.url hm q.url (by simp) rfl

theorem pushesNew_of_core {n : Nat} {s : Pool n Database} {a : Thread n} (hs : Inv s)
    (h : NotWaiting (core s)) : PushesNew s a :=
  fun _ work link rest hi => h work link rest (core_stage_of_locked hs hi)

/-- On a drained run the links pushed while they waited are the only ones taken twice. -/
theorem pushesNew_of_drained {n : Nat} {world : Database} {as : List (Thread n)}
    {s : Pool n Database}
    (h : run (WorkerPool.step (webEnv server web) start) (.initial n world) as = some s)
    (hq : s.globals.queue = []) (hquiet : s.Quiet) (hn : (s.globals.popped.map TqueueItem.url).Nodup) :
    Along (WorkerPool.step (webEnv server web) start) PushesNew (.initial n world) as := by
  refine along_of_trace (I := fun t => Inv t ∧ History (core t)) (B := fun t => Doubled (core t))
    ?_ ?_ ?_ ⟨inv_initial world, history_initial world⟩ h ?_
  · rintro t a u ⟨hi, hh⟩ hs
    refine ⟨inv_step hi hs, ?_⟩
    obtain he | ⟨b, hb⟩ := core_step hi hs
    · rwa [he]
    · exact history_step hh (CrawlLoop.step_cases hb)
  · rintro t a ⟨hi, -⟩ hp
    exact .inr fun hw => hp (pushesNew_of_core hi hw)
  · rintro t a u ⟨hi, hh⟩ hd hs
    obtain he | ⟨b, hb⟩ := core_step hi hs
    · rwa [he]
    · exact doubled_step hh hd (CrawlLoop.step_cases hb)
  · have hh := history_of_run h
    have hpush : s.globals.pushed = s.globals.popped := by
      rw [show s.globals.pushed = _ from hh.pushed]
      simp [core, hq]
    rintro (hd | hd)
    · exact hd (by rwa [show (core s).globals.pushed = s.globals.popped from hpush])
    · refine hd fun work link rest hs => ?_
      rw [core_stage_of_quiet hquiet] at hs
      cases hs

/-- No URL is taken twice as long as no link is pushed while it waits in the queue. -/
theorem visited_once (server : Server) (getContent : Links.Link → Str) (start : TqueueItem)
    (hpages : ∀ k u, Walk (Links (Parse.page getContent)) k start.url u →
      Parses (Parse.page getContent) u)
    (hans : FindUrlSucceeds server (Parse.page getContent) start.url) (n : Nat)
    (as : List (Thread n)) (s : Pool n Database)
    (h : run (WorkerPool.step (webEnv server (Parse.page getContent)) start) (.initial n .empty) as =
      some s) :
    (Along (WorkerPool.step (webEnv server (Parse.page getContent)) start) PushesNew
        (.initial n .empty) as →
      Always (WorkerPool.step (webEnv server (Parse.page getContent)) start)
        (fun t => (t.globals.popped.map TqueueItem.url).Nodup) (.initial n .empty) as) ∧
    (s.globals.queue = [] → s.Quiet → (s.globals.popped.map TqueueItem.url).Nodup →
      Along (WorkerPool.step (webEnv server (Parse.page getContent)) start) PushesNew
        (.initial n .empty) as) := by
  refine ⟨fun hp bs t hb ht => ?_, fun hq hquiet hn => pushesNew_of_drained h hq hquiet hn⟩
  obtain ⟨ts, hts, hr⟩ := core_run_along (along_initial hp hb) ht
  have hi := once_run hpages (fun u v url => Parse.page_sameUrl) hans hts hr
  have hsub : t.globals.popped.Sublist t.globals.pushed := by
    rw [show t.globals.pushed = _ from (history_run hr).pushed]
    exact List.sublist_append_left _ _
  exact hi.pushed.sublist (hsub.map TqueueItem.url)

def leafPage : Str := str "<body>spider spider "

/-- Two pages link to a third one. -/
def diamond (link : Links.Link) : Str :=
  if link.query = str "/" then str "<body>spider spider <a href=\"/b\"><a href=\"/c\">"
  else if link.query = str "/d" then leafPage
  else str "<body>spider spider <a href=\"/d\">"

def root : Str := str "http://a.b/"

def left : Str := str "http://a.b/b"

def right : Str := str "http://a.b/c"

def bottom : Str := str "http://a.b/d"

theorem page_of_site {getContent : Links.Link → Str} {u : Str} {query : Str} {links : List Str}
    (hl : Links.urlToLink u = .ok ⟨.HTTP, str "a.b", query⟩)
    (hu : Links.HtmlParser.getURL ⟨u, .HTTP, str "a.b", query⟩ = u)
    (hw : Words.extractWords (getContent ⟨.HTTP, str "a.b", query⟩) = some oneWord)
    (hx : Links.extractLink (getContent ⟨.HTTP, str "a.b", query⟩) ⟨.HTTP, str "a.b", query⟩ =
      some links) :
    Parse.page getContent u = .parsed u oneWord links := by
  have hc : (getContent ⟨.HTTP, str "a.b", query⟩).length ≠ 0 := by
    intro h0
    rw [List.length_eq_zero_iff.mp h0] at hw
    exact absurd hw (by decide)
  have hn : Links.HtmlParser.new u = .ok ⟨u, .HTTP, str "a.b", query⟩ := by
    rw [Links.HtmlParser.new, hl]
    rfl
  rw [Parse.page_parsed hn hc hw (by decide) hx, hu]

theorem diamond_root : Parse.page diamond root = .parsed root oneWord [left, right] :=
  page_of_site (by decide +kernel) rfl rfl (by decide +kernel)

theorem diamond_left : Parse.page diamond left = .parsed left oneWord [bottom] :=
  page_of_site (by decide +kernel) rfl rfl (by decide +kernel)

theorem diamond_right : Parse.page diamond right = .parsed right oneWord [bottom] :=
  page_of_site (by decide +kernel) rfl rfl (by decide +kernel)

theorem diamond_bottom : Parse.page diamond bottom = .parsed bottom oneWord [] :=
  page_of_site (by decide +kernel) rfl rfl (by decide +kernel)

/-- A visit of a page with one word, whether its URL is stored already or not. -/
theorem visit_of_oneWord (server : Server) {u : Str} {links : List Str} (hq : SqlText.quote ∉ u)
    (hw : web u = .parsed u oneWord links) (db : Database) :
    ∃ db', (webEnv server web).visit db u = .parsed db' links ∧
      ∀ v, v ∈ db'.urlTexts ↔ v ∈ db.urlTexts ∨ v = u := by
  have hv : IndexTruth.Call.Valid ⟨oneWord, u, none⟩ := IndexTruth.oneWord_valid hq none
  by_cases hn : u ∈ db.urlTexts
  · refine ⟨db, ?_, fun v => ⟨.inl, fun h => h.elim id fun h => h ▸ hn⟩⟩
    change visit server web db u = _
    simp only [visit, hw, index, IndexTruth.completes_uncut server hv db, tablesAfter_of_mem hn]
  · obtain ⟨db', hvisit, hu⟩ := visit_of_valid server hv hw db hn
    exact ⟨db', hvisit, fun v => by rw [hu, List.mem_append, List.mem_singleton]⟩

theorem findUrl_of_notMem (server : Server) (web : Web) (db : Database) {u : Str}
    (hq : SqlText.quote ∉ u) (hn : u ∉ db.urlTexts) :
    (webEnv server web).findUrl db u = some (false, db) := by
  simp [webEnv, findUrl_plain server hq, hn]

theorem root_plain : SqlText.quote ∉ root := by decide

theorem left_plain : SqlText.quote ∉ left := by decide

theorem right_plain : SqlText.quote ∉ right := by decide

theorem bottom_plain : SqlText.quote ∉ bottom := by decide

theorem diamond_loop : ∃ db, bottom ∈ db.urlTexts ∧
    Sequential.loop (webEnv strict (Parse.page diamond)) 5 (Sequential.seeded .empty ⟨root, 2⟩) = some
      ⟨[], db, false, [⟨root, 2⟩, ⟨left, 1⟩, ⟨right, 1⟩, ⟨bottom, 0⟩, ⟨bottom, 0⟩],
        [⟨root, 2⟩, ⟨left, 1⟩, ⟨right, 1⟩, ⟨bottom, 0⟩, ⟨bottom, 0⟩],
        [⟨root, 2⟩, ⟨left, 1⟩, ⟨right, 1⟩, ⟨bottom, 0⟩, ⟨bottom, 0⟩]⟩ := by
  obtain ⟨db₁, h₁, hu₁⟩ := visit_of_oneWord strict root_plain diamond_root .empty
  obtain ⟨db₂, h₂, hu₂⟩ := visit_of_oneWord strict left_plain diamond_left db₁
  obtain ⟨db₃, h₃, hu₃⟩ := visit_of_oneWord strict right_plain diamond_right db₂
  obtain ⟨db₄, h₄, -⟩ := visit_of_oneWord strict bottom_plain diamond_bottom db₃
  obtain ⟨db₅, h₅, hu₅⟩ := visit_of_oneWord strict bottom_plain diamond_bottom db₄
  have f₁ := findUrl_of_notMem strict (Parse.page diamond) db₁ left_plain
    (by rw [hu₁]; decide)
  have f₂ := findUrl_of_notMem strict (Parse.page diamond) db₁ right_plain
    (by rw [hu₁]; decide)
  have f₃ := findUrl_of_notMem strict (Parse.page diamond) db₂ bottom_plain
    (by rw [hu₂, hu₁]; decide)
  have f₄ := findUrl_of_notMem strict (Parse.page diamond) db₃ bottom_plain
    (by rw [hu₃, hu₂, hu₁]; decide)
  refine ⟨db₅, (hu₅ bottom).mpr (.inr rfl), ?_⟩
  simp [Sequential.loop, Sequential.seeded, Globals.initial, Globals.push, SafeQueue.push,
    Sequential.iteration, Sequential.parse, Sequential.pushUnseen, Sequential.record, h₁, h₂, h₃, h₄,
    h₅, f₁, f₂, f₃, f₄]

/-- A crawl of depth 1 reads the two pages that the start page links to and follows no link of
theirs. -/
theorem shallow_loop {web : Web} {l r : List Str} (hroot : web root = .parsed root oneWord [left, right])
    (hleft : web left = .parsed left oneWord l) (hright : web right = .parsed right oneWord r)
    (db : Database) (hdb : ∀ u ∈ db.urlTexts, u = root) : ∃ db',
    (∀ u, u ∈ db'.urlTexts ↔ u ∈ [root, left, right]) ∧
    Sequential.loop (webEnv strict web) 3 (Sequential.seeded db ⟨root, 1⟩) = some
      ⟨[], db', false, [⟨root, 1⟩, ⟨left, 0⟩, ⟨right, 0⟩], [⟨root, 1⟩, ⟨left, 0⟩, ⟨right, 0⟩],
        [⟨root, 1⟩, ⟨left, 0⟩, ⟨right, 0⟩]⟩ := by
  obtain ⟨db₁, h₁, hu₁⟩ := visit_of_oneWord strict root_plain hroot db
  obtain ⟨db₂, h₂, hu₂⟩ := visit_of_oneWord strict left_plain hleft db₁
  obtain ⟨db₃, h₃, hu₃⟩ := visit_of_oneWord strict right_plain hright db₂
  have honly : ∀ u, u ∈ db₁.urlTexts ↔ u = root := fun u =>
    ⟨fun h => ((hu₁ u).mp h).elim (hdb u) id, fun h => (hu₁ u).mpr (.inr h)⟩
  have f₁ := findUrl_of_notMem strict web db₁ left_plain
    (by rw [honly]; decide)
  have f₂ := findUrl_of_notMem strict web db₁ right_plain
    (by rw [honly]; decide)
  refine ⟨db₃, fun u => ?_, ?_⟩
  · rw [hu₃, hu₂, honly]
    simp [or_assoc]
  · simp [Sequential.loop, Sequential.seeded, Globals.initial, Globals.push, SafeQueue.push,
      Sequential.iteration, Sequential.parse, Sequential.pushUnseen, Sequential.record, h₁, h₂, h₃,
      f₁, f₂]

theorem diamond_shallow (db : Database) (hdb : ∀ u ∈ db.urlTexts, u = root) : ∃ db',
    (∀ u, u ∈ db'.urlTexts ↔ u ∈ [root, left, right]) ∧
    Sequential.loop (webEnv strict (Parse.page diamond)) 3 (Sequential.seeded db ⟨root, 1⟩) = some
      ⟨[], db', false, [⟨root, 1⟩, ⟨left, 0⟩, ⟨right, 0⟩], [⟨root, 1⟩, ⟨left, 0⟩, ⟨right, 0⟩],
        [⟨root, 1⟩, ⟨left, 0⟩, ⟨right, 0⟩]⟩ :=
  shallow_loop diamond_root diamond_left diamond_right db hdb

theorem diamond_reached {k : Nat} {u v : Str} (h : Walk (Links (Parse.page diamond)) k v u)
    (hv : v = root) : u ∈ [root, left, right, bottom] := by
  induction h with
  | refl =>
    rw [hv]
    exact List.mem_cons_self
  | snoc _ he ih =>
    have hm := ih hv
    rw [Links, subLinks] at he
    simp only [List.mem_cons, List.not_mem_nil, or_false] at hm
    obtain rfl | rfl | rfl | rfl := hm
    · rw [diamond_root] at he
      obtain rfl | rfl := by simpa using he
      · simp
      · simp
    · rw [diamond_left] at he
      obtain rfl := by simpa using he
      simp
    · rw [diamond_right] at he
      obtain rfl := by simpa using he
      simp
    · rw [diamond_bottom] at he
      cases he

theorem diamond_parses : ∀ k u, Walk (Links (Parse.page diamond)) k root u →
    Parses (Parse.page diamond) u := by
  intro k u h
  have hm := diamond_reached h rfl
  simp only [List.mem_cons, List.not_mem_nil, or_false] at hm
  obtain rfl | rfl | rfl | rfl := hm
  · exact ⟨_, _, _, diamond_root⟩
  · exact ⟨_, _, _, diamond_left⟩
  · exact ⟨_, _, _, diamond_right⟩
  · exact ⟨_, _, _, diamond_bottom⟩

theorem diamond_findUrl : FindUrlSucceeds strict (Parse.page diamond) root := by
  intro k u h db id hf
  have hall : ∀ v ∈ [root, left, right, bottom], SqlText.quote ∉ v := by decide
  rw [findUrl_plain strict (hall u (diamond_reached h rfl))] at hf
  exact (Except.ok.inj hf).symm

theorem diamond_once : ∃ as s,
    run (WorkerPool.step (webEnv strict (Parse.page diamond)) ⟨root, 1⟩) (.initial 1 .empty) as =
      some s ∧
    s.globals.popped = [⟨root, 1⟩, ⟨left, 0⟩, ⟨right, 0⟩] ∧
    Always (WorkerPool.step (webEnv strict (Parse.page diamond)) ⟨root, 1⟩)
      (fun t => (t.globals.popped.map TqueueItem.url).Nodup) (.initial 1 .empty) as := by
  obtain ⟨db, -, hloop⟩ := diamond_shallow .empty nofun
  obtain ⟨-, as, hr⟩ := LoneWorker.run_loop hloop
  have h := visited_once strict diamond ⟨root, 1⟩ diamond_parses diamond_findUrl 1 as _ hr
  have hn : [root, left, right].Nodup := by decide
  exact ⟨as, _, hr, rfl, h.1 (h.2 rfl (LoneWorker.solo_quiet _) hn)⟩

/-- The page at the bottom of the diamond is queued by both pages above it. -/
theorem visited_twice : ¬ ∀ (server : Server) (getContent : Links.Link → Str) (start : TqueueItem),
    (∀ k u, Walk (Links (Parse.page getContent)) k start.url u → Parses (Parse.page getContent) u) →
    FindUrlSucceeds server (Parse.page getContent) start.url →
    ∀ (n : Nat) (as : List (Thread n)) (s : Pool n Database),
      run (WorkerPool.step (webEnv server (Parse.page getContent)) start) (.initial n .empty) as =
        some s →
      (s.globals.popped.map TqueueItem.url).Nodup := by
  intro h
  obtain ⟨db, -, hl⟩ := diamond_loop
  obtain ⟨-, as, hr⟩ := LoneWorker.run_loop hl
  have hn := h strict diamond ⟨root, 2⟩ diamond_parses diamond_findUrl 1 as _ hr
  exact absurd hn (by decide : ¬ [root, left, right, bottom, bottom].Nodup)

end SpiderSearch.VisitOnce
