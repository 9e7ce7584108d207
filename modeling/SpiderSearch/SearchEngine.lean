import SpiderSearch.Parse
import SpiderSearch.SearchIndex
import SpiderSearch.SearchResults
import SpiderSearch.TagText

namespace SpiderSearch.SearchEngine

open CppTypes Tables StoredRows DbSession DbClient AddLink IndexTruth DoWork Runs WebCrawl Links Words
  LetterRuns WordCounts Keyword SearchTotals SearchResults SearchIndex SqlText Triples
open HttpServer (Failure Response processRequest writeResponse print_bad_request)

/-- The words of a page, each as often as it is counted. -/
def pageWords (html : Str) : Multiset Str :=
  (((runs isAlpha (testString1 html)).filter counted).map fun r => toLower r.word : List Str)

/-- The words map of an indexed page holds its bag of words. -/
def Counts (words : StdMap Nat) (t : Multiset Str) : Prop :=
  ∀ (k : Str) (v : Nat), words[k]? = some v ↔ k ∈ t ∧ v = t.count k

/-- The tables hold the corpus: its pages are the URLs, its counts the quantities. -/
structure Represents (db : Database) (c : Corpus Str Str) : Prop where
  urls : ∀ u, u ∈ db.urlTexts ↔ u ∈ c.pages
  stored : ∀ k u q, Stored db k u q ↔ k ∈ c.text u ∧ q = (c.text u).count k

theorem count_pageWords (html w : Str) :
    (pageWords html).count w = tally (runs isAlpha (testString1 html)) w := by
  rw [pageWords, Multiset.coe_count, tally]
  convert TagText.count_map_filter counted (runs isAlpha (testString1 html)) w

theorem extractWords_counts (html : Str) :
    ∃ words, extractWords html = some words ∧ Counts words (pageWords html) := by
  obtain ⟨words, hs, hc⟩ := scanText_counts (testString1 html)
  refine ⟨words, hs, fun k v => ?_⟩
  obtain ⟨hcount, hmem⟩ := hc k
  rw [← count_pageWords] at hcount
  rw [← Multiset.count_pos, ← hcount, ← hmem, Std.ExtTreeMap.getD_eq_getD_getElem?,
    Std.ExtTreeMap.mem_iff_isSome_getElem?]
  cases hk : words[k]? with
  | none => simp
  | some q => simp [eq_comm]

theorem isWord_of_mem {html k : Str} (h : k ∈ pageWords html) : IsWord k := by
  obtain ⟨words, he, hc⟩ := extractWords_counts html
  obtain ⟨words', he', hw⟩ := extractWords_spec html
  obtain rfl := Option.some.inj (he.symm.trans he')
  apply hw
  rw [Std.ExtTreeMap.mem_iff_isSome_getElem?, (hc k _).mpr ⟨h, rfl⟩]
  rfl

/-- The map of a page is one that `addLink` can store. -/
theorem Counts.storable {words : StdMap Nat} {html : Str} (h : Counts words (pageWords html))
    (hs : ((pageWords html).card : Int) ≤ intMax) (k : Str) (v : Nat) (hk : words[k]? = some v) :
    k.all isAlpha = true ∧ (v : Int) ≤ intMax := by
  obtain ⟨hm, rfl⟩ := (h k v).mp hk
  exact ⟨(isWord_of_mem hm).1, (Int.ofNat_le.mpr (Multiset.count_le_card k _)).trans hs⟩

theorem Counts.size_eq_zero {words : StdMap Nat} {t : Multiset Str} (h : Counts words t) :
    words.size = 0 ↔ t = 0 := by
  have he : words.size = 0 ↔ ∀ k : Str, words[k]? = none := by
    rw [← Std.ExtTreeMap.length_toList, List.length_eq_zero_iff, List.eq_nil_iff_forall_not_mem]
    simp [Std.ExtTreeMap.mem_toList_iff_getElem?_eq_some, Option.eq_none_iff_forall_ne_some]
  rw [he, Multiset.eq_zero_iff_forall_notMem]
  refine forall_congr' fun k => ?_
  rw [Option.eq_none_iff_forall_ne_some]
  apply Iff.intro
  · intro hn hk
    exact hn _ ((h k _).mpr ⟨hk, rfl⟩)
  · intro hk v hv
    exact hk ((h k v).mp hv).1

theorem represents_empty : Represents .empty .empty where
  urls u := by simp [Database.urlTexts, Database.empty, Corpus.empty]
  stored k u q := by simp [Stored, Database.empty, Corpus.empty]

/-- A new URL with its words is a new page of the corpus. -/
theorem Represents.filled {db db' : Database} {c : Corpus Str Str} {link : Str}
    {words : StdMap Nat} {t : Multiset Str} (h : Represents db c) (hw : Counts words t)
    (hf : Filled db link words.toList db') : Represents db' (c.add link t) := by
  have hnew : link ∉ db.urlTexts := by
    have hn := db'.urlUnique
    rw [← Database.urlTexts, hf.urls, List.nodup_append] at hn
    exact fun hm => hn.2.2 link hm link (List.mem_singleton_self link) rfl
  have hpage : link ∉ c.pages := fun hm => hnew ((h.urls link).mpr hm)
  apply Represents.mk
  · intro u
    rw [hf.urls, List.mem_append, List.mem_singleton, h.urls, c.add_pages, Finset.mem_insert, or_comm]
  · intro k u q
    rw [hf.stored]
    by_cases hu : u = link
    · subst hu
      rw [Corpus.add_text_self hpage]
      apply Iff.intro
      · rintro (hs | ⟨-, v, hv, rfl⟩)
        · exact absurd hs.url_mem hnew
        · obtain ⟨hk, rfl⟩ := (hw k v).mp (Std.ExtTreeMap.mem_toList_iff_getElem?_eq_some.mp hv)
          exact ⟨hk, rfl⟩
      · rintro ⟨hk, rfl⟩
        exact .inr ⟨rfl, _, Std.ExtTreeMap.mem_toList_iff_getElem?_eq_some.mpr
          ((hw k _).mpr ⟨hk, rfl⟩), rfl⟩
    · rw [Corpus.add_text_other hu, h.stored]
      simp [hu]

/-- Without a failure from outside `addLink` leaves the tables alone or stores all the words. -/
theorem uncut_cases (server : Server) {words : StdMap Nat}
    (hw : ∀ (k : Str) (v : Nat), words[k]? = some v → k.all isAlpha = true ∧ (v : Int) ≤ intMax)
    (link : Str) (db : Database) :
    tablesAfter (addLink server words link) db none = db ∨
      Filled db link words.toList (tablesAfter (addLink server words link) db none) := by
  cases hf : findUrl server link db with
  | error e => simp [tablesAfter, addLink, exec_bind, query, hf, exec_throw]
  | ok id =>
    have hq := exec_query_uncut hf none
    cases id with
    | true => simp [tablesAfter, addLink, exec_bind, hq]
    | false =>
      cases hi : insertUrl link db with
      | error e => simp [tablesAfter, addLink, exec_bind, hq, beginWork, execParams, hi]
      | ok db₁ =>
        have hu : link ∈ db₁.urlTexts := by simp [urlTexts_insertUrl hi]
        have hs : ∀ w ∈ words.toList, ∀ q, ¬ Stored db₁ w.1 link q := fun w _ q hq =>
          (insertUrl_ok hi).1 ((stored_insertUrl hi _ _ q).mp hq).url_mem
        have hw' : ∀ w ∈ words.toList, quote ∉ w.1 ∧ (w.2 : Int) ≤ intMax := by
          intro w hm
          obtain ⟨hl, hv⟩ := hw w.1 w.2 (Std.ExtTreeMap.mem_toList_iff_getElem?_eq_some.mp hm)
          exact ⟨quote_notMem_of_letters hl, hv⟩
        have hn : (words.toList.map Prod.fst).Nodup := by
          rw [Std.ExtTreeMap.map_fst_toList_eq_keys]
          exact Std.ExtTreeMap.nodup_keys
        obtain ⟨db', hx⟩ := addWords_uncut server hw' hn hu hs
        have hc : completes (addLink server words link) db none = true := by
          simp [completes, addLink, beginWork, execParams, commit, exec_bind, hq, hi, hx]
        exact (tablesAfter_complete hc).imp And.right id

/-- What a visit of a URL has to index: the URL of the page and its words, if there are any. -/
def indexed (getContent : Link → Str) (url : Str) : Option (Str × Multiset Str) :=
  match HtmlParser.new url with
  | .error _ => none
  | .ok parser =>
    let t := pageWords (getContent parser.link)
    if t = 0 then none else some (parser.getURL, t)

theorem indexed_eq_some {getContent : Link → Str} {url link : Str} {t : Multiset Str} :
    indexed getContent url = some (link, t) ↔ ∃ parser, HtmlParser.new url = .ok parser ∧
      parser.getURL = link ∧ pageWords (getContent parser.link) = t ∧ t ≠ 0 := by
  rw [indexed]
  cases HtmlParser.new url with
  | error e => simp
  | ok parser =>
    by_cases h : pageWords (getContent parser.link) = 0
    · simp only [h, if_true, reduceCtorEq, false_iff]
      rintro ⟨parser', he, -, rfl, hne⟩
      cases he
      exact hne h
    · simp only [h, if_false, Option.some.injEq, Prod.mk.injEq]
      apply Iff.intro
      · rintro ⟨rfl, rfl⟩
        exact ⟨parser, rfl, rfl, rfl, h⟩
      · rintro ⟨parser', he, rfl, rfl, -⟩
        cases he
        exact ⟨rfl, rfl⟩

/-- The page behind a URL, as far as the index is concerned. -/
theorem page_words (getContent : Link → Str) {url : Str} {parser : HtmlParser}
    (hn : HtmlParser.new url = .ok parser) :
    (pageWords (getContent parser.link) = 0 ∧ Parse.page getContent url = .rejected) ∨
      ∃ words, Counts words (pageWords (getContent parser.link)) ∧
        pageWords (getContent parser.link) ≠ 0 ∧
        (extractLink (getContent parser.link) parser.link = none ∧
            Parse.page getContent url = .badLink parser.getURL words ∨
          ∃ links, extractLink (getContent parser.link) parser.link = some links ∧
            Parse.page getContent url = .parsed parser.getURL words links) := by
  obtain ⟨words, he, hc⟩ := extractWords_counts (getContent parser.link)
  by_cases hw : words.size = 0
  · refine .inl ⟨hc.size_eq_zero.mp hw, ?_⟩
    simp [Parse.page, hn, he, hw]
  · have hne : pageWords (getContent parser.link) ≠ 0 := fun h => hw (hc.size_eq_zero.mpr h)
    have hlen : (getContent parser.link).length ≠ 0 := by
      intro h
      rw [List.length_eq_zero_iff] at h
      exact hne (by rw [h]; decide +kernel)
    refine .inr ⟨words, hc, hne, ?_⟩
    cases hl : extractLink (getContent parser.link) parser.link with
    | none => exact .inl ⟨rfl, by simp [Parse.page, hn, he, hw, hlen, hl]⟩
    | some links => exact .inr ⟨links, rfl, by simp [Parse.page, hn, he, hw, hlen, hl]⟩

theorem world_blank (server : Server) {getContent : Link → Str} {url : Str}
    (h : indexed getContent url = none) (db : Database) :
    (visit server (Parse.page getContent) db url).world = db := by
  cases hn : HtmlParser.new url with
  | error e => simp [visit, Parse.page, hn, Visit.world]
  | ok parser =>
    obtain ⟨-, hp⟩ | ⟨words, -, hne, -⟩ := page_words getContent hn
    · simp [visit, hp, Visit.world]
    · simp [indexed, hn, hne] at h

theorem world_indexed (server : Server) {getContent : Link → Str} {url link : Str}
    {t : Multiset Str} (h : indexed getContent url = some (link, t)) (db : Database) :
    ∃ words, Counts words t ∧ (visit server (Parse.page getContent) db url).world =
      tablesAfter (addLink server words link) db none := by
  obtain ⟨parser, hn, rfl, rfl, hne⟩ := indexed_eq_some.mp h
  obtain ⟨hz, -⟩ | ⟨words, hc, -, ⟨-, hp⟩ | ⟨links, -, hp⟩⟩ := page_words getContent hn
  · exact absurd hz hne
  · exact ⟨words, hc, by simp [visit, hp, Visit.world, index]⟩
  · refine ⟨words, hc, ?_⟩
    simp only [visit, hp, index]
    split
    · rename_i db' he
      exact (congrArg Prod.snd he).symm
    · rename_i db' he
      exact (congrArg Prod.snd he).symm

/-- No page has more words than an `INTEGER` counts. -/
def Small (c : Corpus Str Str) : Prop := ∀ u, ((c.text u).card : Int) ≤ intMax

theorem Represents.quantity_eq {db : Database} {c : Corpus Str Str} (h : Represents db c)
    (k u : Str) : quantity db k u = (c.text u).count k := by
  by_cases hk : k ∈ c.text u
  · exact quantity_of_stored ((h.stored k u _).mpr ⟨hk, rfl⟩)
  · rw [quantity_of_notStored fun q hq => hk ((h.stored k u q).mp hq).1,
      Multiset.count_eq_zero_of_notMem hk]
    rfl

theorem Represents.candidate_iff {db : Database} {c : Corpus Str Str} (h : Represents db c)
    (ks : List Str) (u : Str) : Candidate db ks u ↔ u ∈ c.hits ks.toFinset := by
  rw [Candidate, Corpus.mem_hits]
  refine exists_congr fun k => ?_
  rw [List.mem_toFinset]
  refine and_congr_right fun _ => ?_
  apply Iff.intro
  · rintro ⟨q, hq⟩
    exact ((h.stored k u q).mp hq).1
  · intro hk
    exact ⟨_, (h.stored k u _).mpr ⟨hk, rfl⟩⟩

/-- No total of a represented corpus leaves the range of an `int`. -/
theorem Represents.score_eq {db : Database} {c : Corpus Str Str} (h : Represents db c)
    (hs : Small c) (ks : List Str) (u : Str) : score db ks u = c.total ks.toFinset u := by
  have ht : total db ks u = c.total ks.toFinset u := by
    rw [total, Corpus.total, Nat.cast_sum]
    exact Finset.sum_congr rfl fun k _ => h.quantity_eq k u
  have hle : (c.total ks.toFinset u : Int) ≤ intMax :=
    (Int.ofNat_le.mpr (c.total_le_card ks.toFinset u)).trans (hs u)
  rw [score, ht]
  refine wrapInt_of_range ?_ hle
  rw [intMin]
  omega

/-- A line of an answer, with its count as the `int` that the server prints. -/
def resultRow (line : Nat × Str) : Int × Str := (line.1, line.2)

/-- The rows of a result list are the first lines of the answer of the corpus. -/
theorem Represents.rows_eq {db : Database} {c : Corpus Str Str} (h : Represents db c)
    (hs : Small c) {ks ranked : List Str} (hord : ranked.Pairwise (Outranks db ks))
    (hmem : ∀ u, u ∈ ranked ↔ Candidate db ks u) :
    (ranked.take 10).map (fun u => (score db ks u, u)) =
      (c.answer ks.toFinset 10).map resultRow := by
  have hr : ranked = c.ranked ks.toFinset := by
    refine c.eq_ranked ks.toFinset (Multimap.nodup_of_asymm (outranks_asymm db ks) hord)
      (fun u => by rw [hmem, h.candidate_iff]) (hord.imp fun {u v} ho => ?_)
    rw [Outranks, h.score_eq hs, h.score_eq hs, Nat.cast_lt, Nat.cast_inj] at ho
    refine ho.imp id fun hsame => ⟨hsame.1, ?_⟩
    rw [hsame.2]
    rfl
  rw [Corpus.answer, hr, List.map_map]
  refine List.map_congr_left fun u _ => ?_
  rw [Function.comp_apply, h.score_eq hs, resultRow]

/-- What the two programs are asked to do with the tables: the crawler visits a URL, whose page
may have changed since the last visit, and the server answers a search. -/
inductive Op where
  | visit (getContent : Link → Str) (url : Str)
  | search (version : Nat) (value : Str)

def Op.Valid : Op → Prop
  | .visit getContent url => ∀ link t, indexed getContent url = some (link, t) →
      quote ∉ link ∧ (t.card : Int) ≤ intMax
  | .search _ value => value.length < npos

/-- The programs at work on the tables. -/
def serve (server : Server) (db : Database) :
    Op → Database × Option (Except (Failure SqlError) Response)
  | .visit getContent url => ((visit server (Parse.page getContent) db url).world, none)
  | .search version value =>
    (db, some (processRequest (getUrl db) ⟨version, .post, str "/", str "search=" ++ value⟩))

def answered (version : Nat) : Response :=
  { Response.initial with
    version := version, keep_alive := false, result := .ok, server := some (str "Beast") }

/-- The page that a corpus answers with. -/
def reply (c : Corpus Str Str) (value : Str) : Response → Response :=
  match getKeyword value with
  | none | some [] => print_bad_request
  | some ks => resultPage ((c.answer ks.toFinset 10).map resultRow)

/-- The same work on a corpus. -/
def engine (c : Corpus Str Str) : Op → Corpus Str Str × Option (Except (Failure SqlError) Response)
  | .visit getContent url =>
    (match indexed getContent url with
      | none => c
      | some (link, t) => c.add link t, none)
  | .search version value => (c, some (.ok (writeResponse (reply c value (answered version)))))

theorem small_add {c : Corpus Str Str} (hs : Small c) (link : Str) {t : Multiset Str}
    (ht : (t.card : Int) ≤ intMax) : Small (c.add link t) := by
  intro u
  by_cases hl : link ∈ c.pages
  · rw [Corpus.add_of_mem hl]
    exact hs u
  · by_cases hu : u = link
    · rw [hu, Corpus.add_text_self hl]
      exact ht
    · rw [Corpus.add_text_other hu]
      exact hs u

theorem Represents.search {db : Database} {c : Corpus Str Str} (h : Represents db c) (hs : Small c)
    (version : Nat) {value : Str} (hlen : value.length < npos) :
    processRequest (getUrl db) ⟨version, .post, str "/", str "search=" ++ value⟩ =
      .ok (writeResponse (reply c value (answered version))) := by
  obtain ⟨ks, hk⟩ := getKeyword_total hlen
  have hpost : ∀ response, HttpServer.createResponsePost (getUrl db)
      ⟨version, .post, str "/", str "search=" ++ value⟩ response = .ok (reply c value response) := by
    intro response
    by_cases hne : ks = []
    · rw [HttpServer.createResponsePost_search (getUrl db) value _ response rfl rfl]
      simp [HttpServer.answer, reply, hk, hne]
    · obtain ⟨ranked, rows, hord, hmem, hrows, -, hanswer⟩ := search_answered db hk hne
      rw [hanswer _ response rfl rfl, hrows, h.rows_eq hs hord hmem, reply, hk]
      cases ks with
      | nil => exact absurd rfl hne
      | cons k ks => rfl
  simp [processRequest, hpost, answered, Except.map]

/-- A visit of a page without apostrophes in its URL adds the page to the corpus. -/
theorem Represents.visit {db : Database} {c : Corpus Str Str} (h : Represents db c)
    (server : Server) {getContent : Link → Str} {url link : Str} {t : Multiset Str}
    (hi : indexed getContent url = some (link, t)) (hl : quote ∉ link)
    (ht : (t.card : Int) ≤ intMax) :
    Represents (visit server (Parse.page getContent) db url).world (c.add link t) := by
  obtain ⟨words, hc, hw⟩ := world_indexed server hi db
  obtain ⟨parser, -, -, rfl, -⟩ := indexed_eq_some.mp hi
  rw [hw]
  by_cases hm : link ∈ db.urlTexts
  · rw [tablesAfter_of_mem hm, Corpus.add_of_mem ((h.urls link).mp hm)]
    exact h
  · have hdone := completes_uncut server (c := ⟨words, link, none⟩) ⟨hl, hc.storable ht⟩ db
    obtain ⟨hf, -⟩ | hf := tablesAfter_complete hdone
    · rw [findUrl_plain server hl] at hf
      exact absurd (of_decide_eq_true (Except.ok.inj hf)) hm
    · exact h.filled hc hf

/-- The tables answer like the corpus they hold, whatever was visited and asked before. -/
theorem search_engine_refined (server : Server) (ops : List Op) (h : ∀ op ∈ ops, op.Valid) :
    answers (serve server) .empty ops = answers engine .empty ops := by
  refine answers_eq (fun db c => Represents db c ∧ Small c) Op.Valid (fun db c op hr hv => ?_)
    ⟨represents_empty, fun u => ?_⟩ h
  · obtain ⟨hr, hs⟩ := hr
    cases op with
    | search version value => exact ⟨⟨hr, hs⟩, congrArg some (hr.search hs version hv)⟩
    | visit getContent url =>
      refine ⟨?_, rfl⟩
      cases hi : indexed getContent url with
      | none => simpa [serve, engine, hi, world_blank server hi] using ⟨hr, hs⟩
      | some page =>
        obtain ⟨link, t⟩ := page
        obtain ⟨hl, ht⟩ := hv link t hi
        have he : (engine c (.visit getContent url)).1 = c.add link t := by simp [engine, hi]
        rw [he]
        exact ⟨hr.visit server hi hl ht, small_add hs link ht⟩
  · rw [Corpus.empty, Multiset.card_zero, intMax]
    decide

/-- A page is visited and its word asked for. -/
def spiderOps : List Op :=
  [.visit (fun _ => str "<body>spider ") (str "http://a.b/"), .search 11 (str "spider")]

theorem spiderOps_answered : (∀ op ∈ spiderOps, op.Valid) ∧
    answers (serve strict) .empty spiderOps = answers engine .empty spiderOps := by
  have hv : ∀ op ∈ spiderOps, op.Valid := by
    intro op hop
    obtain rfl | hop := List.mem_cons.mp hop
    · intro link t hi
      obtain ⟨parser, hn, rfl, rfl, -⟩ := indexed_eq_some.mp hi
      have hn' : HtmlParser.new (str "http://a.b/") =
          .ok ⟨str "http://a.b/", .HTTP, str "a.b", str "/"⟩ := rfl
      obtain rfl := Except.ok.inj (hn'.symm.trans hn)
      exact ⟨by decide, by decide +kernel⟩
    · obtain rfl := List.mem_singleton.mp hop
      exact (by decide : (str "spider").length < npos)
  exact ⟨hv, search_engine_refined strict spiderOps hv⟩

end SpiderSearch.SearchEngine
