import SpiderSearch.CrawledSearch
import SpiderSearch.Redirects
import SpiderSearch.SubLinks

namespace SpiderSearch.Confinement

open CppTypes Tables DbClient DoWork Runs WorkerPool WebCrawl Links UrlKey UrlGroups LinkInverse
  Hrefs LinkClosure SubLinks
open Redirects (Rooted SameSite urlToLinkFrom_rooted)

variable {server : Server} {getContent : Link → Str} {site link : Link}

theorem host_ne_nil (h : WellFormed link) : link.host ≠ [] := by
  obtain ⟨name, rest, hhost, -⟩ := h.host
  simp [hhost]

theorem query_ne_nil (h : WellFormed link) : link.query ≠ [] := by
  obtain ⟨tail, hquery, -⟩ := h.query
  simp [hquery]

/-- The constructor reads a well-formed link back from its URL. -/
theorem urlToLink_of_wellFormed (h : WellFormed link) : urlToLink (linkToURL link) = .ok link := by
  have ht := takes_url (takes_protocol link.protocol _) (takes_slashes _) h.takes_lineHost
    h.takes_query.2
  rw [← linkToURL_eq] at ht
  rw [urlToLink, groupsOf_firstUrl, lineUrl, groupsOf_of_takes ht]
  simp [host_ne_nil h, query_ne_nil h, scheme_ne_nil, protocolOf_scheme]

/-- An absolute reference leads to its link from any page. -/
theorem urlToLinkFrom_of_wellFormed (h : WellFormed link) (parent : Link) :
    urlToLinkFrom (linkToURL link) parent = link := by
  have ht := takes_url (takes_protocol link.protocol _) (takes_slashes _) h.takes_subHost
    h.takes_query.1
  rw [← linkToURL_eq] at ht
  rw [urlToLinkFrom_of_takes ht rfl rfl rfl rfl (query_ne_nil h)]
  simp [host_ne_nil h, scheme_ne_nil, protocolOf_scheme]

/-- A reference of a site to itself: a fragment, a path behind a single slash, or a whole URL. -/
inductive Local (site : Link) : Str → Prop
  | fragment {href : Str} (h : href.head? = some (ch '#')) : Local site href
  | rooted {href : Str} (h : Rooted href) : Local site href
  | absolute {link : Link} (h : WellFormed link) (hs : SameSite link site) :
      Local site (linkToURL link)

/-- The pages of the site have no references but to the site. -/
def SelfContained (getContent : Link → Str) (site : Link) : Prop :=
  ∀ link, SameSite link site → ∀ href ∈ hrefs (getContent link), Local site href

/-- A URL that is read as a well-formed link to the site. -/
def OnSite (site : Link) (u : Str) : Prop :=
  ∃ parser, HtmlParser.new u = .ok parser ∧ WellFormed parser.link ∧ SameSite parser.link site

theorem onSite_of_wellFormed (h : WellFormed link) (hs : SameSite link site) :
    OnSite site (linkToURL link) :=
  ⟨⟨linkToURL link, link⟩, by rw [HtmlParser.new, urlToLink_of_wellFormed h]; rfl, h, hs⟩

/-- A local reference of a page on the site leads to the site. -/
theorem Local.onSite {href : Str} (h : Local site href) (hf : href.head? ≠ some (ch '#'))
    (hline : ∀ b ∈ href, dot b = true) (hl : WellFormed link) (hs : SameSite link site) :
    OnSite site (linkToURL (urlToLinkFrom href link)) := by
  cases h with
  | fragment h => exact absurd h hf
  | rooted h =>
    obtain ⟨hp, hh⟩ := urlToLinkFrom_rooted h link
    obtain ⟨tail, hq, hb⟩ := urlToLinkFrom_query href link
    refine onSite_of_wellFormed ⟨?_, tail, hq, fun b hm => hline b (hb b hm)⟩
      ⟨hp.trans hs.1, hh.trans hs.2⟩
    rw [hh]
    exact hl.host
  | absolute h hs' =>
    rw [urlToLinkFrom_of_wellFormed h]
    exact onSite_of_wellFormed h hs'

theorem inherited_onSite (h : SelfContained getContent site) :
    Inherited (webEnv server (Parse.page getContent)) (OnSite site) := by
  rintro w u w' links ⟨parser, hn, hl, hs⟩ hv v hm
  obtain ⟨parser', hn', hx⟩ := links_of_visit hv
  obtain rfl := Except.ok.inj (hn.symm.trans hn')
  obtain ⟨href, hr, hf, rfl⟩ := (mem_extractLink hx).mp hm
  exact (h parser.link hs href hr).onSite hf (dot_of_mem_hrefs hr) hl hs

theorem page_congr {getContent' : Link → Str} {u : Str} {parser : HtmlParser}
    (hn : HtmlParser.new u = .ok parser) (h : getContent' parser.link = getContent parser.link) :
    Parse.page getContent' u = Parse.page getContent u := by
  simp only [Parse.page, hn, h]

theorem onSite_run (h : SelfContained getContent site) {start : TqueueItem}
    (hstart : OnSite site start.url) {db : Database} {n : Nat} {as : List (Thread n)}
    {s : Pool n Database}
    (hr : run (step (webEnv server (Parse.page getContent)) start) (.initial n db) as = some s) :
    ∀ item ∈ s.globals.pushed, OnSite site item.url :=
  pushed_closed (inherited_onSite h) hstart hr

/-- What other sites hold makes no difference to a crawl that stays on its site. -/
theorem run_of_same_site (h : SelfContained getContent site) {start : TqueueItem}
    (hstart : OnSite site start.url) {getContent' : Link → Str}
    (hsame : ∀ link, SameSite link site → getContent' link = getContent link) (db : Database)
    {n : Nat} (as : List (Thread n)) :
    run (step (webEnv server (Parse.page getContent')) start) (.initial n db) as =
      run (step (webEnv server (Parse.page getContent)) start) (.initial n db) as := by
  have hfind : (webEnv server (Parse.page getContent')).findUrl =
      (webEnv server (Parse.page getContent)).findUrl := rfl
  refine run_congr_of_closed (inherited_onSite h) hstart ?_ hfind as
  rintro w u ⟨parser, hn, -, hs⟩
  change visit server (Parse.page getContent') w u = visit server (Parse.page getContent) w u
  rw [visit, visit, page_congr hn (hsame parser.link hs)]

/-- A crawl that starts on a site whose pages only refer to the site never leaves it: every link that
is ever queued has the protocol and the host of the site, and what other sites hold makes no
difference to the crawl. -/
theorem crawl_confined (server : Server) (getContent : Link → Str) (start : TqueueItem)
    (parser : HtmlParser) (hn : HtmlParser.new start.url = .ok parser) (hl : WellFormed parser.link)
    (h : SelfContained getContent parser.link) (db : Database) (n : Nat) (as : List (Thread n)) :
    (∀ s, run (step (webEnv server (Parse.page getContent)) start) (.initial n db) as = some s →
      ∀ item ∈ s.globals.pushed, OnSite parser.link item.url) ∧
    ∀ getContent', (∀ link, SameSite link parser.link → getContent' link = getContent link) →
      run (step (webEnv server (Parse.page getContent')) start) (.initial n db) as =
        run (step (webEnv server (Parse.page getContent)) start) (.initial n db) as := by
  have hstart : OnSite parser.link start.url := ⟨parser, hn, hl, rfl, rfl⟩
  exact ⟨fun s hr => onSite_run h hstart hr,
    fun getContent' hsame => run_of_same_site h hstart hsame db as⟩

section Diamond

open SpiderSearch.VisitOnce (diamond leafPage root left)

theorem diamond_rooted (link : Link) : ∀ href ∈ hrefs (diamond link), Rooted href := by
  have h : ∀ href ∈ hrefs (diamond link), href.head? = some (ch '/') ∧ ¬ str "//" <+: href := by
    simp only [diamond, leafPage]
    split_ifs <;> decide +kernel
  exact h

theorem diamond_wellFormed : WellFormed ⟨.HTTP, str "a.b", str "/"⟩ :=
  ⟨⟨str "a", str "b", rfl, by decide, by decide +kernel, by decide, by decide +kernel⟩, [], rfl,
    nofun⟩

theorem diamond_confined : ∃ (as : List (Thread 1)) (s : Pool 1 Database),
    run (step (webEnv strict (Parse.page diamond)) ⟨root, (1 : Nat)⟩) (.initial 1 .empty) as = some s ∧
    Deepening.Drained s ∧ left ∈ s.globals.world.urlTexts ∧
    ∀ item ∈ s.globals.pushed, OnSite ⟨.HTTP, str "a.b", str "/"⟩ item.url := by
  obtain ⟨as, s, hr, hd, hl⟩ := CrawledSearch.diamond_run
  have hself : SelfContained diamond ⟨.HTTP, str "a.b", str "/"⟩ :=
    fun link _ href hm => .rooted (diamond_rooted link href hm)
  exact ⟨as, s, hr, hd, hl, (crawl_confined strict diamond ⟨root, (1 : Nat)⟩ _ Deepening.diamond_new
    diamond_wellFormed hself .empty 1 as).1 s hr⟩

end Diamond

end SpiderSearch.Confinement
