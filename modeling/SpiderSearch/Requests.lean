import SpiderSearch.Confinement

namespace SpiderSearch.Requests

open CppTypes Tables DbClient DoWork Runs WorkerPool WebCrawl Links UrlKey LinkInverse Hrefs
  Redirects Confinement

variable {server : Server} {http http' : Http} {site link : Link}

/-- The links that `getContent` sends a request to. -/
def requested (http : Http) (url : Link) : List Link :=
  match http url with
  | none => [url]
  | some res =>
    match redirectLink url res with
    | none => [url]
    | some link => if link.host ≠ [] then [url, link] else [url]

theorem mem_requested (http : Http) (url : Link) : url ∈ requested http url := by
  rw [requested]
  split
  · exact List.mem_singleton_self url
  · split
    · exact List.mem_singleton_self url
    · split_ifs
      · exact List.mem_cons_self
      · exact List.mem_singleton_self url

/-- The body that is returned is that of the last response. -/
theorem servedFrom_mem (http : Http) (url : Link) : servedFrom http url ∈ requested http url := by
  rw [servedFrom, requested]
  cases http url with
  | none => exact List.mem_singleton_self url
  | some res =>
    dsimp only [followed]
    cases redirectLink url res with
    | none => exact List.mem_singleton_self url
    | some link =>
      dsimp only
      split_ifs
      · exact List.mem_cons_of_mem _ (List.mem_singleton_self link)
      · exact List.mem_singleton_self url

/-- The servers of the site refer and redirect to the site alone. -/
structure Sealed (http : Http) (site : Link) : Prop where
  hrefs : ∀ link res, SameSite link site → http link = some res →
    ∀ href ∈ hrefs res.body, Local site href
  redirects : ∀ link res target, SameSite link site → http link = some res →
    redirectLink link res = some target → SameSite target site

theorem Sealed.requested (h : Sealed http site) (hs : SameSite link site) :
    ∀ target ∈ requested http link, SameSite target site := by
  intro target ht
  rw [Requests.requested] at ht
  cases hr : http link with
  | none =>
    rw [hr] at ht
    rwa [List.mem_singleton.mp ht]
  | some res =>
    simp only [hr] at ht
    cases hd : redirectLink link res with
    | none =>
      rw [hd] at ht
      rwa [List.mem_singleton.mp ht]
    | some next =>
      simp only [hd] at ht
      split_ifs at ht
      · obtain rfl | ht := List.mem_cons.mp ht
        · exact hs
        · rw [List.mem_singleton.mp ht]
          exact h.redirects link res next hs hr hd
      · rwa [List.mem_singleton.mp ht]

/-- What is returned for a link depends on the answers to its requests alone. -/
theorem getContent_congr (h : ∀ target ∈ requested http link, http' target = http target) :
    getContent http' link = getContent http link := by
  have hfirst := h link (mem_requested http link)
  have hserved : servedFrom http' link = servedFrom http link := by
    rw [servedFrom, servedFrom, hfirst]
  rw [getContent_eq, getContent_eq, hserved, getContent_Redirect, getContent_Redirect,
    h _ (servedFrom_mem http link)]

theorem Sealed.selfContained (h : Sealed http site) : SelfContained (getContent http) site := by
  intro link hs href hm
  have hserved := h.requested hs _ (servedFrom_mem http link)
  rw [getContent_eq, getContent_Redirect] at hm
  cases hr : http (servedFrom http link) with
  | none =>
    rw [hr] at hm
    cases hm
  | some res =>
    simp only [hr, textOf] at hm
    split_ifs at hm
    · exact h.hrefs _ res hserved hr href hm
    · cases hm

/-- A crawl of a site that refers and redirects to itself alone sends requests to the site alone,
and the answers of other servers make no difference to it. -/
theorem requests_confined (server : Server) (http : Http) (start : TqueueItem) (parser : HtmlParser)
    (hn : HtmlParser.new start.url = .ok parser) (hl : WellFormed parser.link)
    (h : Sealed http parser.link) (db : Database) (n : Nat) (as : List (Thread n)) :
    (∀ s,
      run (step (webEnv server (Parse.page (getContent http))) start) (.initial n db) as = some s →
      ∀ item ∈ s.globals.pushed, ∃ page, HtmlParser.new item.url = .ok page ∧
        ∀ target ∈ requested http page.link, SameSite target parser.link) ∧
    ∀ http' : Http, (∀ link, SameSite link parser.link → http' link = http link) →
      run (step (webEnv server (Parse.page (getContent http'))) start) (.initial n db) as =
        run (step (webEnv server (Parse.page (getContent http))) start) (.initial n db) as := by
  have hstart : OnSite parser.link start.url := ⟨parser, hn, hl, rfl, rfl⟩
  apply And.intro
  · intro s hr item hm
    obtain ⟨page, hp, -, hs⟩ := onSite_run h.selfContained hstart hr item hm
    exact ⟨page, hp, h.requested hs⟩
  · intro http' hsame
    refine run_of_same_site h.selfContained hstart (fun link hs => ?_) db as
    exact getContent_congr fun target ht => hsame target (h.requested hs target ht)

section Diamond

open SpiderSearch.VisitOnce (diamond root left right bottom page_of_site shallow_loop)

/-- One of the pages has moved. -/
def diamondHttp : Http := fun link =>
  if link.query = str "/c" then some ⟨301, [(str "location", str "/b")], []⟩
  else some ⟨200, [], diamond link⟩

theorem diamond_sealed (site : Link) : Sealed diamondHttp site := by
  have hres : ∀ link res, diamondHttp link = some res →
      res = ⟨301, [(str "location", str "/b")], []⟩ ∨ res = ⟨200, [], diamond link⟩ := by
    intro link res hr
    rw [diamondHttp] at hr
    split_ifs at hr
    · exact .inl (Option.some.inj hr).symm
    · exact .inr (Option.some.inj hr).symm
  constructor
  · intro link res hs hr href hm
    obtain rfl | rfl := hres link res hr
    · cases hm
    · exact .rooted (diamond_rooted link href hm)
  · intro link res target hs hr ht
    obtain rfl | rfl := hres link res hr
    · have hb : Rooted (str "/b") := ⟨rfl, by decide⟩
      have htarget : redirectLink link ⟨301, [(str "location", str "/b")], []⟩ =
          some (urlToLinkFrom (str "/b") link) := rfl
      obtain rfl := Option.some.inj (htarget.symm.trans ht)
      obtain ⟨hp, hh⟩ := urlToLinkFrom_rooted hb link
      exact ⟨hp.trans hs.1, hh.trans hs.2⟩
    · cases ht

/-- The crawl reads the page that has moved, by a request to the page it has moved to. -/
theorem diamond_requests : ∃ (as : List (Thread 1)) (s : Pool 1 Database),
    run (step (webEnv strict (Parse.page (getContent diamondHttp))) ⟨root, 1⟩) (.initial 1 .empty) as =
      some s ∧
    s.globals.processed = [⟨root, 1⟩, ⟨left, 0⟩, ⟨right, 0⟩] ∧ right ∈ s.globals.world.urlTexts ∧
    requested diamondHttp ⟨.HTTP, str "a.b", str "/c"⟩ =
      [⟨.HTTP, str "a.b", str "/c"⟩, ⟨.HTTP, str "a.b", str "/b"⟩] ∧
    ∀ item ∈ s.globals.pushed, ∃ page, HtmlParser.new item.url = .ok page ∧
      ∀ target ∈ requested diamondHttp page.link, SameSite target ⟨.HTTP, str "a.b", str "/"⟩ := by
  have hroot : Parse.page (getContent diamondHttp) root = .parsed root AddLink.oneWord [left, right] :=
    page_of_site (by decide +kernel) rfl rfl (by decide +kernel)
  have hleft : Parse.page (getContent diamondHttp) left = .parsed left AddLink.oneWord [bottom] :=
    page_of_site (by decide +kernel) rfl rfl (by decide +kernel)
  have hright : Parse.page (getContent diamondHttp) right = .parsed right AddLink.oneWord [bottom] :=
    page_of_site (by decide +kernel) rfl rfl (by decide +kernel)
  obtain ⟨db, hu, hl⟩ := shallow_loop hroot hleft hright .empty nofun
  obtain ⟨-, as, hr⟩ := LoneWorker.run_loop hl
  refine ⟨as, _, hr, rfl, (hu right).mpr (by decide), by decide +kernel, ?_⟩
  exact (requests_confined strict diamondHttp ⟨root, 1⟩ _ Deepening.diamond_new diamond_wellFormed
    (diamond_sealed _) .empty 1 as).1 _ hr

end Diamond

end SpiderSearch.Requests
