import SpiderSearch.Deepening
import SpiderSearch.SearchEngine
import SpiderSearch.Statements

namespace SpiderSearch.CrawledSearch

open CppTypes Tables StoredRows DbSession DbClient AddLink IndexTruth DoWork Runs WorkerPool WebCrawl
  Links Words Coverage Deepening HttpServer SearchIndex SearchEngine
open Statements hiding step

variable {server : Server} {getContent : Link → Str} {D : Finset Str} {db db' : Database}

/-- The words of the page that a URL leads to. -/
def wordsAt (getContent : Link → Str) (u : Str) : Multiset Str :=
  match HtmlParser.new u with
  | .error _ => 0
  | .ok parser => pageWords (getContent parser.link)

/-- No page of the site has more words than an `INTEGER` counts. -/
def SmallPages (getContent : Link → Str) : Prop :=
  ∀ link, ((pageWords (getContent link)).card : Int) ≤ intMax

/-- For the URLs in the tables, the rows are the words of their pages with their counts. -/
def Faithful (getContent : Link → Str) (db : Database) : Prop :=
  ∀ k u q, Stored db k u q ↔
    u ∈ db.urlTexts ∧ k ∈ wordsAt getContent u ∧ q = (wordsAt getContent u).count k

/-- A page is stored under a URL that leads to it again. -/
theorem wordsAt_getURL {url : Str} {parser : HtmlParser} (hn : HtmlParser.new url = .ok parser) :
    wordsAt getContent parser.getURL = pageWords (getContent parser.link) := by
  obtain ⟨parser', hn', hl⟩ := new_getURL hn
  simp [wordsAt, hn', hl]

/-- The rows tell the truth, and those of the pages outside `D` all of it. -/
structure TrueBut (getContent : Link → Str) (D : Finset Str) (db : Database) : Prop where
  sound : ∀ k u q, Stored db k u q →
    k ∈ wordsAt getContent u ∧ q = (wordsAt getContent u).count k
  complete : ∀ u ∈ db.urlTexts, u ∉ D → ∀ k ∈ wordsAt getContent u,
    Stored db k u ((wordsAt getContent u).count k)

theorem trueBut_empty : TrueBut getContent ∅ .empty := by
  refine ⟨?_, nofun⟩
  rintro k u q ⟨kr, hk, -⟩
  cases hk

theorem TrueBut.mono {E : Finset Str} (h : TrueBut getContent D db) (hle : D ⊆ E) :
    TrueBut getContent E db :=
  ⟨h.sound, fun u hu hE => h.complete u hu fun hD => hE (hle hD)⟩

/-- A page whose words have been stored as far as `done` is damaged unless these were all. -/
theorem TrueBut.filled {url : Str} {parser : HtmlParser} {words : StdMap Nat}
    {done : List (Str × Nat)} (h : TrueBut getContent D db)
    (hn : HtmlParser.new url = .ok parser)
    (hc : Counts words (pageWords (getContent parser.link))) (hsub : done ⊆ words.toList)
    (hall : parser.getURL ∉ D → done = words.toList)
    (hf : Filled db parser.getURL done db') : TrueBut getContent D db' := by
  have hwords : wordsAt getContent parser.getURL = pageWords (getContent parser.link) :=
    wordsAt_getURL hn
  constructor
  · intro k u q hs
    obtain hs | ⟨rfl, v, hv, rfl⟩ := (hf.stored k u q).mp hs
    · exact h.sound k u q hs
    · rw [hwords]
      obtain ⟨hk, rfl⟩ := (hc k v).mp (Std.ExtTreeMap.mem_toList_iff_getElem?_eq_some.mp (hsub hv))
      exact ⟨hk, rfl⟩
  · intro u hu hD k hk
    rw [hf.urls, List.mem_append, List.mem_singleton] at hu
    rw [hf.stored]
    obtain hu | rfl := hu
    · exact .inl (h.complete u hu hD k hk)
    · rw [hwords] at hk ⊢
      refine .inr ⟨rfl, _, ?_, rfl⟩
      rw [hall hD]
      exact Std.ExtTreeMap.mem_toList_iff_getElem?_eq_some.mpr ((hc k _).mpr ⟨hk, rfl⟩)

/-- Only the page at hand can be damaged where its call of `addLink` is cut off. -/
theorem TrueBut.partly {url : Str} {parser : HtmlParser} {words : StdMap Nat}
    (h : TrueBut getContent D db) (hn : HtmlParser.new url = .ok parser)
    (hc : Counts words (pageWords (getContent parser.link)))
    (hp : Partly db parser.getURL words.toList db') :
    TrueBut getContent (insert parser.getURL D) db' := by
  have h' := h.mono (Finset.subset_insert parser.getURL D)
  obtain rfl | ⟨done, hdone, hf⟩ := hp
  · exact h'
  · exact h'.filled hn hc hdone.subset (fun hD => absurd (Finset.mem_insert_self _ _) hD) hf

theorem trueBut_visit (server : Server) (hs : SmallPages getContent) (h : TrueBut getContent D db)
    (url : Str) : TrueBut getContent D (visit server (Parse.page getContent) db url).world := by
  cases hi : indexed getContent url with
  | none => rwa [world_blank server hi]
  | some page =>
    obtain ⟨link, t⟩ := page
    obtain ⟨words, hc, hw⟩ := world_indexed server hi db
    obtain ⟨parser, hn, rfl, rfl, -⟩ := indexed_eq_some.mp hi
    rw [hw]
    obtain he | hf := uncut_cases server (hc.storable (hs parser.link)) parser.getURL db
    · rwa [he]
    · exact h.filled hn hc (List.Subset.refl _) (fun _ => rfl) hf

theorem trueBut_run (server : Server) (hs : SmallPages getContent) (h : TrueBut getContent D db)
    {start : TqueueItem} {n : Nat} {as : List (Thread n)} {s : Pool n Database}
    (hr : run (step (webEnv server (Parse.page getContent)) start) (.initial n db) as = some s) :
    TrueBut getContent D s.globals.world := by
  refine world_run (I := TrueBut getContent D) (fun w url hw => trueBut_visit server hs hw url) ?_ h hr
  intro w url id w' hw hid
  rwa [(findUrl_answer hid).2]

theorem faithful_iff {db : Database} : Faithful getContent db ↔ TrueBut getContent ∅ db := by
  apply Iff.intro
  · intro h
    exact ⟨fun k u q hs => ((h k u q).mp hs).2, fun u hu _ k hk => (h k u _).mpr ⟨hu, hk, rfl⟩⟩
  · intro h k u q
    apply Iff.intro
    · intro hs
      exact ⟨hs.url_mem, h.sound k u q hs⟩
    · rintro ⟨hu, hk, rfl⟩
      exact h.complete u hu (Finset.notMem_empty u) k hk

theorem faithful_empty : Faithful getContent .empty := faithful_iff.mpr trueBut_empty

theorem faithful_run (server : Server) (hs : SmallPages getContent) {start : TqueueItem}
    {db : Database} (hf : Faithful getContent db) {n : Nat} {as : List (Thread n)}
    {s : Pool n Database}
    (h : run (step (webEnv server (Parse.page getContent)) start) (.initial n db) as = some s) :
    Faithful getContent s.globals.world :=
  faithful_iff.mpr (trueBut_run server hs (faithful_iff.mp hf) h)

/-- The page that an `addLink` of the crawler belongs to. -/
theorem page_of_call {n : Nat} {s : Moment n} {c : Call}
    (h : s.call (Parse.page getContent) = some c) :
    ∃ url parser, HtmlParser.new url = .ok parser ∧ parser.getURL = c.link ∧
      Counts c.words (pageWords (getContent parser.link)) := by
  obtain ⟨-, work, -, hc⟩ := call_eq_some h
  obtain ⟨-, hp⟩ := callOf_eq_some hc
  cases hn : HtmlParser.new work.url with
  | error e => simp [Parse.page, hn] at hp
  | ok parser =>
    refine ⟨work.url, parser, hn, ?_⟩
    obtain ⟨-, hr⟩ | ⟨words, hw, -, ⟨-, hr⟩ | ⟨links, -, hr⟩⟩ := page_words getContent hn
    · simp [hr] at hp
    · obtain ⟨hl, rfl⟩ : parser.getURL = c.link ∧ words = c.words := by simpa [hr] using hp
      exact ⟨hl, hw⟩
    · obtain ⟨hl, rfl⟩ : parser.getURL = c.link ∧ words = c.words := by simpa [hr] using hp
      exact ⟨hl, hw⟩

section Diamond

open SpiderSearch.VisitOnce (diamond leafPage root left diamond_shallow)

theorem diamond_small : SmallPages diamond := by
  intro link
  simp only [diamond, leafPage]
  split_ifs <;> decide +kernel

theorem diamond_run : ∃ as s,
    run (step (webEnv strict (Parse.page diamond)) ⟨root, (1 : Nat)⟩) (.initial 1 .empty) as = some s ∧
      Drained s ∧ left ∈ s.globals.world.urlTexts := by
  obtain ⟨db, hu, hl⟩ := diamond_shallow .empty nofun
  obtain ⟨as, s, hr, hd, hw⟩ := drained_of_loop hl rfl
  refine ⟨as, s, hr, hd, ?_⟩
  rw [hw]
  exact (hu left).mpr (by decide)

/-- The first URL has been committed, its word has not been looked at. -/
theorem diamond_midway : ∃ s : Moment 1,
    run (Statements.step strict (Parse.page diamond) ⟨root, (1 : Nat)⟩) (.initial 1 .empty)
      (midway 4) = some s ∧ root ∈ s.unfinished strict (Parse.page diamond) := by
  have hc : callOf (Parse.page diamond (⟨root, (1 : Nat)⟩ : TqueueItem).url) 4 =
      some ⟨oneWord, root, some 4⟩ := by
    rw [VisitOnce.diamond_root]
    rfl
  obtain ⟨s, hr, hw, hcall⟩ := run_midway strict .empty hc (Nat.le_of_ble_eq_true rfl)
  refine ⟨s, hr, unfinished_of_first_commit hcall rfl ?_ ?_⟩
  · rw [hw]
    exact findUrl_plain strict VisitOnce.root_plain _
  · rw [hw]
    exact List.not_mem_nil

end Diamond

/-- The part of the site that the tables hold. -/
def corpusOf (getContent : Link → Str) (db : Database) : Corpus Str Str where
  pages := db.urlTexts.toFinset
  text u := if u ∈ db.urlTexts then wordsAt getContent u else 0
  blank _ hu := if_neg fun h => hu (List.mem_toFinset.mpr h)

theorem Faithful.represents {db : Database} (hf : Faithful getContent db) :
    Represents db (corpusOf getContent db) where
  urls _ := List.mem_toFinset.symm
  stored k u q := by
    rw [hf]
    by_cases hu : u ∈ db.urlTexts
    · simp [corpusOf, hu]
    · simp [corpusOf, hu]

theorem small_corpusOf (hs : SmallPages getContent) (db : Database) :
    Small (corpusOf getContent db) := by
  have hzero : ((Multiset.card (0 : Multiset Str) : Nat) : Int) ≤ intMax := by
    rw [intMax]
    decide
  intro u
  simp only [corpusOf, wordsAt]
  split
  · split
    · exact hzero
    · exact hs _
  · exact hzero

end SpiderSearch.CrawledSearch
