import SpiderSearch.SearchTotals

namespace SpiderSearch.SearchResults

open CppTypes Tables StoredRows DbClient Keyword HttpServer SearchTotals

variable {ε : Type}

/-- The rows of the result table for a list of keywords. -/
def resultRows (getUrl : Str → Except ε (StdMap Int)) (ks : List Str) :
    Except ε (List (Int × Str)) :=
  (addKeywords getUrl ks ∅).map fun m => printed 10 (dbResultSort m)

def resultPage (rows : List (Int × Str)) : Response → Response :=
  if rows = [] then print_not_found
  else htmlPage (str "<p>Response:<p>\n<table>\n" ++ rows.flatMap tableRow ++ str "</table>\n")

theorem printed_ten {α : Type} (rows : List α) : printed 10 rows = rows.take 10 :=
  printed_eq_take 9 rows

theorem answer_eq {getUrl : Str → Except ε (StdMap Int)} {value k : Str} {ks : List Str}
    {m : StdMap Int} (hk : getKeyword value = some (k :: ks))
    (hm : addKeywords getUrl (k :: ks) ∅ = .ok m) (response : Response) :
    answer getUrl value response = .ok (if m.size > 0 then print_result (dbResultSort m) response
      else print_not_found response) := by
  rw [answer, hk]
  simp only [hm]
  split_ifs <;> rfl

/-- The first ten candidates are printed, and the page holds just their rows. -/
theorem search_answered (db : Database) {value : Str} {ks : List Str}
    (hk : getKeyword value = some ks) (hne : ks ≠ []) :
    ∃ (ranked : List Str) (rows : List (Int × Str)), ranked.Pairwise (Outranks db ks) ∧
      (∀ u, u ∈ ranked ↔ Candidate db ks u) ∧
      rows = (ranked.take 10).map (fun u => (score db ks u, u)) ∧
      resultRows (getUrl db) ks = .ok rows ∧
      ∀ request response, request.target = str "/" → request.body = str "search=" ++ value →
        createResponsePost (getUrl db) request response = .ok (resultPage rows response) := by
  obtain ⟨m, ranked, hm, hsorted, hmem, hsort, hsize⟩ := search_ranked db (getKeyword_nodup hk)
  have hrows : printed 10 (dbResultSort m) = (ranked.take 10).map fun u => (score db ks u, u) := by
    rw [printed_ten, hsort, List.map_take]
  refine ⟨ranked, _, hsorted, hmem, rfl, ?_, ?_⟩
  · rw [resultRows, hm, ← hrows]
    rfl
  · intro request response ht hb
    obtain ⟨k, ks, rfl⟩ := List.exists_cons_of_ne_nil hne
    rw [createResponsePost_search _ value request response ht hb, answer_eq hk hm]
    by_cases hr : ranked = []
    · rw [if_neg (fun h => hsize.mp h hr), hr]
      rfl
    · rw [if_pos (hsize.mpr hr), ← hrows, resultPage, if_neg]
      · rfl
      · intro h
        rw [hrows, List.map_eq_nil_iff, List.take_eq_nil_iff] at h
        simp [hr] at h

theorem score_eq_total {db : Database} {ks : List Str} {u : Str}
    (h : intMin ≤ total db ks u ∧ total db ks u ≤ intMax) : score db ks u = total db ks u :=
  wrapInt_of_range h.1 h.2

/-- The printed rows are the first ten candidates by total and URL, each with its total. -/
theorem rows_ranked (db : Database) (value : Str) (ks : List Str) (hk : getKeyword value = some ks)
    (hne : ks ≠ []) (hr : ∀ u, intMin ≤ total db ks u ∧ total db ks u ≤ intMax) (request : Request)
    (response : Response) (ht : request.target = str "/") (hb : request.body = str "search=" ++ value) :
    ∃ ranked : List Str, ranked.Nodup ∧ (∀ u, u ∈ ranked ↔ Candidate db ks u) ∧
      ranked.Pairwise (fun u v => total db ks v < total db ks u ∨
        total db ks u = total db ks v ∧ compare u v = .lt) ∧
      resultRows (getUrl db) ks = .ok ((ranked.take 10).map fun u => (total db ks u, u)) ∧
      createResponsePost (getUrl db) request response =
        .ok (resultPage ((ranked.take 10).map fun u => (total db ks u, u)) response) ∧
      ∀ u ∈ ranked.take 10, ∀ v, Candidate db ks v → v ∉ ranked.take 10 →
        total db ks v ≤ total db ks u := by
  obtain ⟨ranked, rows, hsorted, hmem, rfl, hrows, hpage⟩ := search_answered db hk hne
  have hscore : ∀ u, score db ks u = total db ks u := fun u => score_eq_total (hr u)
  simp only [hscore] at hrows hpage
  have hpair : ranked.Pairwise (fun u v => total db ks v < total db ks u ∨
      total db ks u = total db ks v ∧ compare u v = .lt) := by
    refine hsorted.imp fun {u v} h => ?_
    simpa only [Outranks, hscore] using h
  refine ⟨ranked, Multimap.nodup_of_asymm (outranks_asymm db ks) hsorted, hmem, hpair, hrows,
    hpage request response ht hb, ?_⟩
  intro u hu v hv hout
  rw [← List.take_append_drop 10 ranked, List.pairwise_append] at hpair
  have hdrop : v ∈ ranked.drop 10 := by
    have hin := (hmem v).mpr hv
    rw [← List.take_append_drop 10 ranked, List.mem_append] at hin
    exact hin.resolve_left hout
  obtain h | ⟨h, -⟩ := hpair.2.2 u hu v hdrop
  · exact le_of_lt h
  · exact le_of_eq h.symm

def spider : Str := str "spider"

def robot : Str := str "robot"

def page : Str := str "http://a.b/"

/-- One page, on which `spider` occurs twice and `robot` does not. -/
def spiderOnly : Database where
  keywords := [⟨1, spider⟩, ⟨2, robot⟩]
  urls := [⟨1, page⟩]
  keywordUrsQty := [⟨1, 1, 2⟩]
  keywordIds := by decide
  keywordUnique := by decide
  urlIds := by decide
  urlUnique := by decide
  k_u := by decide
  idKeywordRefs := by decide
  idUrlRefs := by decide
  quantityRange := by decide

def post (value : Str) : Request := ⟨11, .post, str "/", str "search=" ++ value⟩

theorem getKeyword_spider : getKeyword spider = some [spider] := by decide

theorem spider_stored : Stored spiderOnly spider page 2 :=
  ⟨⟨1, spider⟩, by decide, ⟨1, page⟩, by decide, ⟨1, 1, 2⟩, by decide, rfl, rfl, rfl, rfl, rfl⟩

/-- Three pages with both words, two of them with the same total, and one with neither. -/
def fourPages : Database where
  keywords := [⟨1, spider⟩, ⟨2, robot⟩]
  urls := [⟨1, str "http://a.b/e"⟩, ⟨2, str "http://a.b/d"⟩, ⟨3, str "http://a.b/c"⟩, ⟨4, page⟩]
  keywordUrsQty := [⟨1, 1, 2⟩, ⟨2, 1, 1⟩, ⟨2, 3, 2⟩, ⟨1, 3, 1⟩, ⟨1, 4, 3⟩, ⟨2, 4, 2⟩]
  keywordIds := by decide
  keywordUnique := by decide
  urlIds := by decide
  urlUnique := by decide
  k_u := by decide
  idKeywordRefs := by decide
  idUrlRefs := by decide
  quantityRange := by decide

def threeRows : List (Int × Str) :=
  [(5, page), (3, str "http://a.b/c"), (3, str "http://a.b/e")]

theorem getKeyword_both : getKeyword (str "spider+robot") = some [spider, robot] := by decide

theorem addKeywords_getUrl (db : Database) (ks : List Str) (acc : StdMap Int) :
    addKeywords (getUrl db) ks acc = .ok (ks.foldl
      (fun db_result k => addUrls (assignRows (joinRows db k) ∅).toList db_result) acc) := by
  induction ks generalizing acc with
  | nil => rfl
  | cons k ks ih =>
    rw [addKeywords, getUrl_eq]
    exact ih _

theorem fourPages_rows : resultRows (getUrl fourPages) [spider, robot] = .ok threeRows := by
  rw [resultRows, addKeywords_getUrl]
  exact congrArg Except.ok (by decide)

theorem fourPages_range (u : Str) : intMin ≤ total fourPages [spider, robot] u ∧
    total fourPages [spider, robot] u ≤ intMax := by
  by_cases hu : u ∈ fourPages.urlTexts
  · have h : ∀ u ∈ fourPages.urlTexts, intMin ≤ total fourPages [spider, robot] u ∧
        total fourPages [spider, robot] u ≤ intMax := by decide
    exact h u hu
  · have h : total fourPages [spider, robot] u = 0 :=
      Finset.sum_eq_zero fun k _ => quantity_of_notStored fun q hq => hu hq.url_mem
    rw [h]
    decide

/-- The page with the largest total comes first, and the two that tie stand in the order of their
URLs, not of their ids. -/
theorem spider_ranked : ∃ ranked : List Str,
    (ranked.take 10).map (fun u => (total fourPages [spider, robot] u, u)) = threeRows ∧
    createResponsePost (getUrl fourPages) (post (str "spider+robot")) .initial =
      .ok (resultPage threeRows .initial) ∧
    ∀ u, u ∈ ranked ↔ Candidate fourPages [spider, robot] u := by
  obtain ⟨ranked, -, hmem, -, hrows, hpage, -⟩ := rows_ranked fourPages (str "spider+robot")
    [spider, robot] getKeyword_both (by decide) fourPages_range (post (str "spider+robot")) .initial
    rfl rfl
  have hthree := Except.ok.inj (hrows.symm.trans fourPages_rows)
  exact ⟨ranked, hthree, by rw [hpage, hthree], hmem⟩

/-- A document in which every keyword occurs. -/
def HasAll (db : Database) (ks : List Str) (u : Str) : Prop := ∀ k ∈ ks, ∃ q, Stored db k u q

/-- Only documents with every keyword are listed, and all of them where there are at most ten. -/
def ContainsAll (db : Database) (ks : List Str) (rows : List (Int × Str)) : Prop :=
  (∀ row ∈ rows, HasAll db ks row.2) ∧
    ({u | HasAll db ks u}.ncard ≤ 10 → ∀ u, HasAll db ks u → ∃ row ∈ rows, row.2 = u)

theorem HasAll.candidate {db : Database} {ks : List Str} {u : Str} (hne : ks ≠ [])
    (h : HasAll db ks u) : Candidate db ks u := by
  obtain ⟨k, hk⟩ := List.exists_mem_of_ne_nil ks hne
  exact ⟨k, hk, h k hk⟩

theorem hasAll_finite (db : Database) {ks : List Str} (hne : ks ≠ []) :
    {u | HasAll db ks u}.Finite := by
  refine (List.finite_toSet db.urlTexts).subset fun u hu => ?_
  obtain ⟨k, -, q, hs⟩ := HasAll.candidate hne hu
  exact hs.url_mem

theorem hasAll_listed {db : Database} {ks ranked : List Str} (hne : ks ≠ []) (hn : ranked.Nodup)
    (hmem : ∀ u, u ∈ ranked ↔ Candidate db ks u) (hall : ∀ u ∈ ranked.take 10, HasAll db ks u)
    (hcard : {u | HasAll db ks u}.ncard ≤ 10) {u : Str} (hu : HasAll db ks u) :
    u ∈ ranked.take 10 := by
  classical
  -- ten URLs with every keyword are listed, and `u` would be an eleventh
  by_contra hout
  have hin : u ∈ ranked := (hmem u).mpr (hu.candidate hne)
  have hlen : (ranked.take 10).length = 10 := by
    rw [List.length_take, Nat.min_eq_left]
    by_contra hlt
    rw [List.take_of_length_le (by omega)] at hout
    exact hout hin
  have hnodup : (u :: ranked.take 10).Nodup := List.nodup_cons.mpr ⟨hout, hn.sublist (List.take_sublist 10 ranked)⟩
  have hsub : ((u :: ranked.take 10).toFinset : Set Str) ⊆ {u | HasAll db ks u} := by
    intro v hv
    rw [List.coe_toFinset] at hv
    obtain rfl | hv := List.mem_cons.mp hv
    · exact hu
    · exact hall v hv
  have hle := Set.ncard_le_ncard hsub (hasAll_finite db hne)
  rw [Set.ncard_coe_finset, List.toFinset_card_of_nodup hnodup, List.length_cons, hlen] at hle
  omega

theorem containsAll_iff {db : Database} {ks ranked : List Str} (hne : ks ≠ [])
    (hsorted : ranked.Pairwise (Outranks db ks)) (hmem : ∀ u, u ∈ ranked ↔ Candidate db ks u) :
    ContainsAll db ks ((ranked.take 10).map fun u => (score db ks u, u)) ↔
      ∀ u, Candidate db ks u → ¬ HasAll db ks u →
        10 ≤ {v | Candidate db ks v ∧ Outranks db ks v u}.ncard := by
  have hasymm := outranks_asymm db ks
  have htake : ∀ u, Candidate db ks u → (u ∈ ranked.take 10 ↔
      {v | Candidate db ks v ∧ Outranks db ks v u}.ncard < 10) := by
    intro u hu
    have h := Multimap.mem_take_iff hasymm hsorted ((hmem u).mpr hu) 10
    simpa only [hmem] using h
  apply Iff.intro
  · rintro ⟨hlisted, -⟩ u hc hall
    by_contra hlt
    have hin := (htake u hc).mpr (Nat.not_le.mp hlt)
    exact hall (hlisted _ (List.mem_map_of_mem hin))
  · intro hpart
    have hlisted : ∀ u ∈ ranked.take 10, HasAll db ks u := by
      intro u hu
      have hc := (hmem u).mp (List.mem_of_mem_take hu)
      by_contra hall
      exact absurd ((htake u hc).mp hu) (Nat.not_lt.mpr (hpart u hc hall))
    refine ⟨?_, fun hcard u hu => ?_⟩
    · intro row hrow
      obtain ⟨u, hu, rfl⟩ := List.mem_map.mp hrow
      exact hlisted u hu
    · have hin := hasAll_listed hne (Multimap.nodup_of_asymm hasymm hsorted) hmem hlisted hcard hu
      exact ⟨_, List.mem_map_of_mem hin, rfl⟩

theorem outranking_le (db : Database) (ks : List Str) (u : Str) :
    {v | Candidate db ks v ∧ Outranks db ks v u}.ncard ≤ db.urls.length := by
  classical
  have hsub : {v | Candidate db ks v ∧ Outranks db ks v u} ⊆ (db.urlTexts.toFinset : Set Str) := by
    rintro v ⟨⟨k, -, q, hs⟩, -⟩
    rw [List.coe_toFinset]
    exact hs.url_mem
  have hle := Set.ncard_le_ncard hsub (Finset.finite_toSet _)
  rw [Set.ncard_coe_finset] at hle
  refine hle.trans ((List.toFinset_card_le _).trans ?_)
  rw [Database.urlTexts, List.length_map]

theorem fourPages_stored :
    (Stored fourPages spider page 3 ∧ Stored fourPages robot page 2) ∧
    (Stored fourPages spider (str "http://a.b/c") 1 ∧ Stored fourPages robot (str "http://a.b/c") 2) ∧
    Stored fourPages spider (str "http://a.b/e") 2 ∧ Stored fourPages robot (str "http://a.b/e") 1 := by
  simp only [Stored]
  refine ⟨⟨?_, ?_⟩, ⟨?_, ?_⟩, ?_, ?_⟩ <;> decide

theorem fourPages_hasAll : ∀ row ∈ threeRows, HasAll fourPages [spider, robot] row.2 := by
  obtain ⟨⟨hs₁, hr₁⟩, ⟨hs₂, hr₂⟩, hs₃, hr₃⟩ := fourPages_stored
  simp only [threeRows, HasAll, List.forall_mem_cons, List.not_mem_nil, false_implies, implies_true,
    and_true]
  exact ⟨⟨⟨_, hs₁⟩, _, hr₁⟩, ⟨⟨_, hs₂⟩, _, hr₂⟩, ⟨_, hs₃⟩, _, hr₃⟩

theorem fourPages_candidate {u : Str} (h : Candidate fourPages [spider, robot] u) :
    ∃ row ∈ threeRows, row.2 = u := by
  have hlisted : ∀ ur ∈ fourPages.urls, ∀ r ∈ fourPages.keywordUrsQty, r.idUrl = ur.id →
      ∃ row ∈ threeRows, row.2 = ur.url := by decide
  obtain ⟨k, -, q, kr, -, ur, hur, r, hr, -, rfl, -, hid, -⟩ := h
  exact hlisted ur hur r hr hid

/-- The result page keeps to the documents with every keyword exactly when ten others outrank
each document that has only some of them. -/
theorem results_contain_all_iff (db : Database) (value : Str) (ks : List Str)
    (hk : getKeyword value = some ks) (hne : ks ≠ []) (request : Request) (response : Response)
    (ht : request.target = str "/") (hb : request.body = str "search=" ++ value) :
    ∃ rows, resultRows (getUrl db) ks = .ok rows ∧
      createResponsePost (getUrl db) request response = .ok (resultPage rows response) ∧
      (ContainsAll db ks rows ↔ ∀ u, Candidate db ks u → ¬ HasAll db ks u →
        10 ≤ {v | Candidate db ks v ∧ Outranks db ks v u}.ncard) := by
  obtain ⟨ranked, rows, hsorted, hmem, rfl, hrows, hpage⟩ := search_answered db hk hne
  exact ⟨_, hrows, hpage request response ht hb, containsAll_iff hne hsorted hmem⟩

theorem spider_contained : resultRows (getUrl fourPages) [spider, robot] = .ok threeRows ∧
    ContainsAll fourPages [spider, robot] threeRows ∧
    ∀ row ∈ threeRows, HasAll fourPages [spider, robot] row.2 := by
  obtain ⟨rows, hrows, -, hiff⟩ := results_contain_all_iff fourPages (str "spider+robot")
    [spider, robot] getKeyword_both (by decide) (post (str "spider+robot")) .initial rfl rfl
  obtain rfl := Except.ok.inj (hrows.symm.trans fourPages_rows)
  refine ⟨fourPages_rows, hiff.mpr fun u hc hn => ?_, fourPages_hasAll⟩
  obtain ⟨row, hrow, rfl⟩ := fourPages_candidate hc
  exact absurd (fourPages_hasAll row hrow) hn

theorem robot_not_stored (u : Str) (q : Int) : ¬ Stored spiderOnly robot u q := by
  rintro ⟨kr, hkr, ur, -, r, hr, h1, -, h3, -, -⟩
  obtain rfl : r = ⟨1, 1, 2⟩ := List.mem_singleton.mp hr
  obtain rfl | rfl : kr = ⟨1, spider⟩ ∨ kr = ⟨2, robot⟩ := by
    simpa [spiderOnly] using hkr
  · exact absurd h1 (by decide)
  · exact absurd h3 (by decide)

/-- Asked for both words, the page with only one of them is listed. -/
theorem one_word_listed : ¬ ∀ (db : Database) (value : Str) (ks : List Str),
    getKeyword value = some ks → ks ≠ [] → ∀ (request : Request) (response : Response),
      request.target = str "/" → request.body = str "search=" ++ value →
        ∃ rows, resultRows (getUrl db) ks = .ok rows ∧
          createResponsePost (getUrl db) request response = .ok (resultPage rows response) ∧
          ContainsAll db ks rows := by
  intro h
  obtain ⟨rows, hrows, -, hall⟩ := h spiderOnly (str "spider+robot") [spider, robot]
    getKeyword_both (by decide) (post (str "spider+robot")) .initial rfl rfl
  obtain ⟨ranked, rows', hsorted, hmem, rfl, hrows', -⟩ :=
    search_answered spiderOnly getKeyword_both (List.cons_ne_nil _ _)
  obtain rfl := Except.ok.inj (hrows.symm.trans hrows')
  have hcand : Candidate spiderOnly [spider, robot] page :=
    ⟨spider, List.mem_cons_self, 2, spider_stored⟩
  have hmiss : ¬ HasAll spiderOnly [spider, robot] page := by
    intro h
    obtain ⟨q, hq⟩ := h robot (by simp)
    exact robot_not_stored page q hq
  have hten := (containsAll_iff (List.cons_ne_nil _ _) hsorted hmem).mp hall page hcand hmiss
  have hone := outranking_le spiderOnly [spider, robot] page
  have hlen : spiderOnly.urls.length = 1 := rfl
  omega

end SpiderSearch.SearchResults
