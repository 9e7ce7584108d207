import SpiderSearch.SearchResults

namespace SpiderSearch.Arrangement

open CppTypes DbClient Keyword HttpServer SearchTotals SearchResults Tables

variable {db : Database} {ks ks' : List Str}

/-- Two lists with the same keywords in them, whatever their order. -/
def SameWords (ks ks' : List Str) : Prop := ∀ k, k ∈ ks ↔ k ∈ ks'

theorem SameWords.nil_iff (h : SameWords ks ks') : ks = [] ↔ ks' = [] := by
  rw [List.eq_nil_iff_forall_not_mem, List.eq_nil_iff_forall_not_mem]
  exact forall_congr' fun k => not_congr (h k)

theorem SameWords.candidate (h : SameWords ks ks') (u : Str) :
    Candidate db ks u ↔ Candidate db ks' u :=
  exists_congr fun k => and_congr_left fun _ => h k

theorem SameWords.score (h : SameWords ks ks') (u : Str) : score db ks u = score db ks' u := by
  have hset : ks.toFinset = ks'.toFinset := by
    ext k
    rw [List.mem_toFinset, List.mem_toFinset, h k]
  rw [SearchTotals.score, SearchTotals.score, total, total, hset]

theorem SameWords.outranks (h : SameWords ks ks') (u v : Str) :
    Outranks db ks u v ↔ Outranks db ks' u v := by
  rw [Outranks, Outranks, h.score u, h.score v]

/-- Keywords are looked up one by one into one map, and the map forgets their order. -/
theorem answer_eq {value value' : Str} (hk : getKeyword value = some ks)
    (hk' : getKeyword value' = some ks') (h : SameWords ks ks') {request request' : Request}
    (response : Response) (ht : request.target = str "/") (ht' : request'.target = str "/")
    (hb : request.body = str "search=" ++ value) (hb' : request'.body = str "search=" ++ value') :
    ∃ answered, createResponsePost (getUrl db) request response = .ok answered ∧
      createResponsePost (getUrl db) request' response = .ok answered := by
  by_cases hne : ks = []
  · have hne' : ks' = [] := h.nil_iff.mp hne
    rw [createResponsePost_search _ value request response ht hb,
      createResponsePost_search _ value' request' response ht' hb', answer, answer, hk, hk', hne, hne']
    exact ⟨_, rfl, rfl⟩
  · have hne' : ks' ≠ [] := fun he => hne (h.nil_iff.mpr he)
    obtain ⟨ranked, rows, hsorted, hmem, rfl, -, hpage⟩ := search_answered db hk hne
    obtain ⟨ranked', rows', hsorted', hmem', rfl, -, hpage'⟩ := search_answered db hk' hne'
    have hr : ranked = ranked' := by
      refine Multimap.eq_of_mem_iff (outranks_asymm db ks) hsorted ?_ fun u => ?_
      · exact hsorted'.imp fun {u v} hu => (h.outranks u v).mpr hu
      · rw [hmem, hmem', h.candidate]
    have hs : ∀ u, SearchTotals.score db ks u = SearchTotals.score db ks' u := h.score
    refine ⟨_, hpage request response ht hb, ?_⟩
    rw [hpage' request' response ht' hb', hr]
    simp only [hs]

/-- The answer to a search is the answer to its set of words. -/
theorem answer_of_words (db : Database) (value value' : Str) (hlen : value.length < npos)
    (hlen' : value'.length < npos)
    (hset : ∀ w, accepted w = true →
      (w ∈ (toLower value).splitOn (ch '+') ↔ w ∈ (toLower value').splitOn (ch '+')))
    (request request' : Request) (response : Response) (ht : request.target = request'.target)
    (hb : request.body = str "search=" ++ value) (hb' : request'.body = str "search=" ++ value') :
    ∃ answered, createResponsePost (getUrl db) request response = .ok answered ∧
      createResponsePost (getUrl db) request' response = .ok answered := by
  obtain ⟨ks, hk⟩ := getKeyword_total hlen
  obtain ⟨ks', hk'⟩ := getKeyword_total hlen'
  have h : SameWords ks ks' := by
    intro w
    rw [mem_getKeyword hlen hk, mem_getKeyword hlen' hk']
    exact and_congr_left fun ha => hset w ha
  by_cases htarget : request.target = str "/"
  · exact answer_eq hk hk' h response htarget (ht ▸ htarget) hb hb'
  · rw [createResponsePost, if_neg htarget, createResponsePost, if_neg (ht ▸ htarget)]
    exact ⟨_, rfl, rfl⟩

theorem spider_robot_swapped :
    ∃ answered,
      createResponsePost (getUrl spiderOnly) (post (str "Spider+robot")) .initial = .ok answered ∧
      createResponsePost (getUrl spiderOnly) (post (str "robot+ab+x1+SPIDER+robot")) .initial =
        .ok answered := by
  refine answer_of_words spiderOnly _ _ (by decide) (by decide) (fun w ha => ?_) _ _ _ rfl rfl rfl
  have h : (toLower (str "Spider+robot")).splitOn (ch '+') = [spider, robot] := by decide
  have h' : (toLower (str "robot+ab+x1+SPIDER+robot")).splitOn (ch '+') =
      [robot, str "ab", str "x1", spider, robot] := by decide
  rw [h, h']
  simp only [List.mem_cons, List.not_mem_nil, or_false]
  apply Iff.intro
  · rintro (rfl | rfl) <;> simp
  · rintro (rfl | rfl | rfl | rfl | rfl)
    · exact .inr rfl
    · exact absurd ha (by decide)
    · exact absurd ha (by decide)
    · exact .inl rfl
    · exact .inr rfl

end SpiderSearch.Arrangement
