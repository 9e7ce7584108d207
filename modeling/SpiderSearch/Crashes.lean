import SpiderSearch.CrawledSearch
import SpiderSearch.Outcome
import SpiderSearch.SubLinks

namespace SpiderSearch.Crashes

open CppTypes Tables SqlText DbSession DbClient AddLink DoWork Runs WorkerPool PoolDrain PoolRefines
  WebCrawl Layers LinkDepth Coverage Deepening Links Words UrlKey Hrefs SearchEngine CrawledSearch
  LinkClosure SubLinks Outcome
open Statements hiding step

variable {server : Server} {getContent : Link → Str} {start : Str}

/-- A URL whose visit throws: the constructor rejects it, or its page has words, so that it is
indexed, and among its links an empty `href`. -/
def Fatal (getContent : Link → Str) (u : Str) : Prop :=
  match HtmlParser.new u with
  | .error _ => True
  | .ok parser => pageWords (getContent parser.link) ≠ 0 ∧ [] ∈ hrefs (getContent parser.link)

/-- A URL without an apostrophe. Unless it is the start link its page is stored under its name. -/
structure Plain (start u : Str) : Prop where
  noQuote : quote ∉ u
  readable : u = start ∨ ∃ parser, HtmlParser.new u = .ok parser ∧ parser.getURL = u

/-- No page of the site has an apostrophe in an `href`. -/
def PlainLinks (getContent : Link → Str) : Prop :=
  ∀ link, ∀ href ∈ hrefs (getContent link), quote ∉ href

theorem forall_ne_quote {s : Str} : (∀ b ∈ s, b ≠ quote) ↔ quote ∉ s :=
  ⟨fun h hm => h quote hm rfl, fun h _ hb he => h (he ▸ hb)⟩

/-- The sub-links of a page have no apostrophes and are read as what they are. -/
theorem plain_subLink (hq : PlainLinks getContent) {u v : Str} {parser : HtmlParser}
    {links : List Str} (hn : HtmlParser.new u = .ok parser)
    (hx : extractLink (getContent parser.link) parser.link = some links) (hu : quote ∉ u)
    (hv : v ∈ links) :
    quote ∉ v ∧ ∃ parser', HtmlParser.new v = .ok parser' ∧ parser'.getURL = v := by
  obtain ⟨href, hr, -, rfl⟩ := (mem_extractLink hx).mp hv
  have hl := Parse.urlToLink_of_new hn
  refine ⟨forall_ne_quote.mp (forall_subLink (by decide +kernel) (fun b hb => ?_) ?_), ?_⟩
  · exact forall_ne_quote.mpr hu b (urlToLink_host hl b hb)
  · exact forall_ne_quote.mpr (hq parser.link href hr)
  · exact new_linkToURL (resolved_of_urlToLinkFrom (resolved_of_urlToLink hl) (dot_of_mem_hrefs hr))

theorem inherited_plain (hq : PlainLinks getContent) :
    Inherited (webEnv server (Parse.page getContent)) (Plain start) := by
  intro w u w' links hu hv v hm
  obtain ⟨parser, hn, hx⟩ := links_of_visit hv
  obtain ⟨hquote, hread⟩ := plain_subLink hq hn hx hu.noQuote hm
  exact ⟨hquote, .inr hread⟩

theorem plain_of_walk (hq : PlainLinks getContent) {k : Nat} {u : Str} (hstart : quote ∉ start)
    (hw : Walk (LinkDepth.Links (Parse.page getContent)) k start u) : quote ∉ u := by
  induction hw with
  | refl => exact hstart
  | snoc _ he ih =>
    obtain ⟨parser, links, hn, hx, hm⟩ := Parse.page_subLinks he
    exact (plain_subLink hq hn hx (ih hstart) hm).1

theorem new_of_walk {k : Nat} {u : Str} (hn : ∃ parser, HtmlParser.new start = .ok parser)
    (hw : Walk (LinkDepth.Links (Parse.page getContent)) k start u) :
    ∃ parser, HtmlParser.new u = .ok parser := by
  cases hw with
  | refl => exact hn
  | snoc _ he =>
    obtain ⟨parser, links, hp, hx, hm⟩ := Parse.page_subLinks he
    obtain ⟨href, hr, -, rfl⟩ := (mem_extractLink hx).mp hm
    have hl := resolved_of_urlToLink (Parse.urlToLink_of_new hp)
    obtain ⟨parser', hp', -⟩ := new_linkToURL (resolved_of_urlToLinkFrom hl (dot_of_mem_hrefs hr))
    exact ⟨parser', hp'⟩

theorem findUrlSucceeds (server : Server) (hq : PlainLinks getContent) (hstart : quote ∉ start) :
    FindUrlSucceeds server (Parse.page getContent) start := by
  intro k u hw db id hid
  rw [findUrl_plain server (plain_of_walk hq hstart hw)] at hid
  exact (Except.ok.inj hid).symm

theorem plain_getURL {u : Str} {parser : HtmlParser} (hn : HtmlParser.new u = .ok parser)
    (hu : quote ∉ u) : quote ∉ parser.getURL :=
  forall_ne_quote.mp (forall_getURL hn (by decide +kernel) (forall_ne_quote.mpr hu))

theorem fatal_of_new {u : Str} {parser : HtmlParser} (hn : HtmlParser.new u = .ok parser) :
    Fatal getContent u ↔
      pageWords (getContent parser.link) ≠ 0 ∧ [] ∈ hrefs (getContent parser.link) := by
  rw [Fatal, hn]

theorem throws_fatal (hs : SmallPages getContent) :
    Throws (webEnv server (Parse.page getContent)) (Plain start) (Fatal getContent) where
  findUrl w u hu := by simp [webEnv, findUrl_plain server hu.noQuote]
  visit w u hu := by
    change (∃ w', WebCrawl.visit server (Parse.page getContent) w u = .thrown w') ↔ _
    cases hn : HtmlParser.new u with
    | error e => simp [WebCrawl.visit, Parse.page, hn, Fatal]
    | ok parser =>
      rw [fatal_of_new hn]
      obtain ⟨hz, hp⟩ | ⟨words, hc, hne, ⟨hx, hp⟩ | ⟨links, hx, hp⟩⟩ := page_words getContent hn
      · simp [WebCrawl.visit, hp, hz]
      · have he : [] ∈ hrefs (getContent parser.link) := by
          by_contra he
          obtain ⟨links, hl, -⟩ := extractLink_some he parser.link
          cases hx.symm.trans hl
        simp [WebCrawl.visit, hp, hne, he]
      · have hdone := IndexTruth.completes_uncut server (c := ⟨words, parser.getURL, none⟩)
          ⟨plain_getURL hn hu.noQuote, hc.storable (hs parser.link)⟩ w
        simp [WebCrawl.visit, hp, index, hdone, nil_notMem_hrefs hx]

/-- On a site without apostrophes in its links an exception that is not one of the database only ever
comes from a fatal page: the crawler never gets past one, and every sub-link it queues is one that the
constructor reads. -/
theorem crash_at_fatal (server : Server) (getContent : Link → Str) (hs : SmallPages getContent)
    (hq : PlainLinks getContent) (start : TqueueItem) (hstart : quote ∉ start.url) (db : Database)
    (n : Nat) (ms : List (Move n)) (s : Moment n)
    (h : run (Statements.step server (Parse.page getContent) start) (.initial n db) ms = some s) :
    (s.ended = true → s.failed = true ∨ ∃ item,
      s.pool.globals.popped = s.pool.globals.processed ++ [item] ∧ Fatal getContent item.url) ∧
    (∀ item ∈ s.pool.globals.processed, ¬ Fatal getContent item.url) ∧
    ∀ item ∈ s.pool.globals.pushed, item.url = start.url ∨
      ∃ parser, HtmlParser.new item.url = .ok parser ∧ parser.getURL = item.url := by
  obtain ⟨as, hr⟩ := pool_run h
  have hplain : Plain start.url start.url := ⟨hstart, .inl rfl⟩
  obtain ⟨hterm, hproc⟩ := terminated_at (inherited_plain hq) hplain (throws_fatal hs) hr
  refine ⟨fun he => ?_, hproc,
    fun item hm => (pushed_closed (inherited_plain hq) hplain hr item hm).readable⟩
  obtain hf | ht := Bool.or_eq_true_iff.mp he
  · exact .inl hf
  · exact .inr (hterm ht)

section Diamond

open SpiderSearch.VisitOnce (diamond leafPage root)

theorem diamond_plain : PlainLinks diamond := by
  intro link
  simp only [diamond, leafPage]
  split_ifs <;> decide +kernel

theorem diamond_hrefs (link : Link) : [] ∉ hrefs (diamond link) := by
  simp only [diamond, leafPage]
  split_ifs <;> decide +kernel

theorem diamond_not_crashed : ∃ (as : List (Thread 1)) (s : Moment 1),
    run (Statements.step strict (Parse.page diamond) ⟨root, (1 : Nat)⟩) (.initial 1 .empty)
      (as.map .thread) = some s ∧ Drained s.pool ∧
    VisitOnce.left ∈ s.pool.globals.world.urlTexts ∧
    ∀ item ∈ s.pool.globals.processed, ¬ Fatal diamond item.url := by
  obtain ⟨as, s, hr, hd, hl⟩ := diamond_run
  obtain ⟨k, hk⟩ := run_threads (s := .initial 1 .empty) rfl hr
  exact ⟨as, _, hk, hd, hl, (crash_at_fatal strict diamond diamond_small diamond_plain
    ⟨root, (1 : Nat)⟩ (by decide) .empty 1 _ _ hk).2.1⟩

end Diamond

/-- Without fatal pages within the depth the pool crawls a site to its end, unless the workers have
left before they were given the start link. -/
theorem healthy_pool (server : Server) (hs : SmallPages getContent) (hq : PlainLinks getContent)
    (hstart : quote ∉ start) {parser : HtmlParser} (hn : HtmlParser.new start = .ok parser)
    {d : Nat} (hfree : ∀ k ≤ d, ∀ u, Walk (LinkDepth.Links (Parse.page getContent)) k start u →
      ¬ Fatal getContent u) (n : Nat) :
    Inevitable (step (webEnv server (Parse.page getContent)) ⟨start, d⟩)
      (fun s => s.globals = Sequential.seeded .empty ⟨start, d⟩ ∨
        Drained s ∧ ∀ u, u ∈ s.globals.world.urlTexts ↔
          Chain (Parse.page getContent) d parser.getURL u)
      (Pool.initial n .empty) := by
  refine (inevitably_ended _ _ _ n).mono fun as s h he => ?_
  cases he with
  | exception ht =>
    have hplain : Plain start start := ⟨hstart, .inl rfl⟩
    obtain ⟨item, hp, hf⟩ := (terminated_at (inherited_plain hq) hplain (throws_fatal hs) h).1 ht
    obtain ⟨ts, hr⟩ := core_run h
    have hpopped : item ∈ s.globals.popped := by simp [hp]
    obtain ⟨k, hk, -, hw⟩ :=
      (levels_run hr).pushed item ((CrawlLoop.history_run hr).popped_subset hpopped)
    exact absurd hf (hfree k hk item.url hw)
  | abandoned _ hg => exact .inl hg
  | finished _ hd =>
    exact .inr ⟨hd, mem_drained_getURL hn (findUrlSucceeds server hq (plain_getURL hn hstart)) h hd⟩

/-- A site without apostrophes in its links and without fatal pages within the depth is crawled to
its end in every order of the threads and their statements, unless the database fails or the workers
have left before they were given the start link. -/
theorem healthy_crawl (server : Server) (getContent : Link → Str) (hs : SmallPages getContent)
    (hq : PlainLinks getContent) (start : Str) (hstart : quote ∉ start) (parser : HtmlParser)
    (hn : HtmlParser.new start = .ok parser) (d n : Nat)
    (hfree : ∀ k ≤ d, ∀ u, Walk (LinkDepth.Links (Parse.page getContent)) k start u →
      ¬ Fatal getContent u) :
    Inevitable (Statements.step server (Parse.page getContent) ⟨start, d⟩)
      (fun s => s.failed = true ∨ s.pool.globals = Sequential.seeded .empty ⟨start, d⟩ ∨
        Drained s.pool ∧ ∀ u, u ∈ (s.tables server (Parse.page getContent)).urlTexts ↔
          Chain (Parse.page getContent) d parser.getURL u)
      (Moment.initial n .empty) := by
  refine (inevitable_of_pool (healthy_pool server hs hq hstart hn hfree n)).mono fun ms s _ h => ?_
  obtain hf | hg | ⟨hd, hu⟩ := h
  · exact .inl hf
  · exact .inr (.inl hg)
  · refine .inr (.inr ⟨hd, ?_⟩)
    rwa [tables_of_quiet hd.quiet]

open SpiderSearch.VisitOnce (diamond root) in
theorem diamond_healthy : Inevitable (Statements.step strict (Parse.page diamond) ⟨root, (2 : Nat)⟩)
    (fun s => s.failed = true ∨ s.pool.globals = Sequential.seeded .empty ⟨root, (2 : Nat)⟩ ∨
      Drained s.pool ∧ ∀ u, u ∈ (s.tables strict (Parse.page diamond)).urlTexts ↔
        Chain (Parse.page diamond) 2 root u)
    (Moment.initial 3 .empty) := by
  refine healthy_crawl strict diamond diamond_small diamond_plain root (by decide) _ diamond_new 2 3
    fun k _ u hw hf => ?_
  obtain ⟨parser, hn⟩ := new_of_walk ⟨_, diamond_new⟩ hw
  exact diamond_hrefs parser.link ((fatal_of_new hn).mp hf).2

end SpiderSearch.Crashes
