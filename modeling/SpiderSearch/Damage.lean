import SpiderSearch.CrawledSearch

namespace SpiderSearch.Damage

open CppTypes Tables StoredRows DbSession DbClient AddLink DoWork Runs WorkerPool WebCrawl Links Words
  SearchEngine CrawledSearch

variable {server : Server} {getContent : Link → Str} {D : Finset Str} {db : Database}

theorem trueBut_cut (h : TrueBut getContent D db) {url : Str} {parser : HtmlParser}
    {words : StdMap Nat} (hn : HtmlParser.new url = .ok parser)
    (hw : extractWords (getContent parser.link) = some words) (cut : Option Nat) :
    TrueBut getContent (insert parser.getURL D)
      (tablesAfter (addLink server words parser.getURL) db cut) := by
  obtain ⟨words', hw', hc⟩ := extractWords_counts (getContent parser.link)
  obtain rfl := Option.some.inj (hw.symm.trans hw')
  exact h.partly hn hc (tablesAfter_partly server words parser.getURL db cut)

/-- What the tables can be after any number of crawls of a site, each of which ran up to any point
at all. `kills` counts those that a kill ended inside `addLink`. -/
inductive Survives (server : Server) (getContent : Link → Str) : Nat → Database → Prop
  | created : Survives server getContent 0 .empty
  | crawled {kills : Nat} {db : Database} (h : Survives server getContent kills db)
      (start : TqueueItem) (n : Nat) (as : List (Thread n)) (s : Pool n Database)
      (hr : run (step (webEnv server (Parse.page getContent)) start) (.initial n db) as = some s) :
      Survives server getContent kills s.globals.world
  | killed {kills : Nat} {db : Database} (h : Survives server getContent kills db)
      (start : TqueueItem) (n : Nat) (as : List (Thread n)) (s : Pool n Database)
      (hr : run (step (webEnv server (Parse.page getContent)) start) (.initial n db) as = some s)
      (i : Fin n) (work : TqueueItem) (hpc : s.pc i = .locked (.visit work)) (parser : HtmlParser)
      (words : StdMap Nat) (hn : HtmlParser.new work.url = .ok parser)
      (hw : extractWords (getContent parser.link) = some words) (hne : words.size ≠ 0) (cut : Nat) :
      Survives server getContent (kills + 1)
        (tablesAfter (addLink server words parser.getURL) s.globals.world (some cut))

section Diamond

open SpiderSearch.VisitOnce (diamond root)
open LoneWorker (works)

/-- The crawler is killed while it stores its first page. -/
theorem diamond_survives : ∃ db, Survives strict diamond 1 db := by
  have hr : run (step (webEnv strict (Parse.page diamond)) ⟨root, 1⟩) (.initial 1 .empty)
      ([.main, .main] ++ works 3) = some _ := rfl
  have hn : HtmlParser.new root = .ok ⟨root, .HTTP, str "a.b", str "/"⟩ := Deepening.diamond_new
  obtain ⟨words, hw, hc⟩ := extractWords_counts (diamond ⟨.HTTP, str "a.b", str "/"⟩)
  have hne : words.size ≠ 0 := by
    rw [Ne, hc.size_eq_zero]
    decide +kernel
  exact ⟨_, .killed .created ⟨root, 1⟩ 1 _ _ hr 0 ⟨root, 1⟩ rfl _ words hn hw hne 4⟩

end Diamond

end SpiderSearch.Damage
