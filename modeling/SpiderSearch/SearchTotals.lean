import SpiderSearch.HttpServer

namespace SpiderSearch.SearchTotals

open CppTypes Tables StoredRows DbClient HttpServer

/-- The quantity stored for a keyword and a URL, 0 where there is none. -/
def quantity (db : Database) (k u : Str) : Int :=
  match keywordRow db k, urlRow db u with
  | some kr, some ur =>
    ((db.keywordUrsQty.find? fun r => r.pair = (kr.id, ur.id)).map QtyRow.quantity).getD 0
  | _, _ => 0

/-- A URL with a row for at least one of the keywords. -/
def Candidate (db : Database) (ks : List Str) (u : Str) : Prop := ∃ k ∈ ks, ∃ q, Stored db k u q

def total (db : Database) (ks : List Str) (u : Str) : Int := ∑ k ∈ ks.toFinset, quantity db k u

/-- The `int` that holds the total of a URL. -/
def score (db : Database) (ks : List Str) (u : Str) : Int := wrapInt (total db ks u)

def Outranks (db : Database) (ks : List Str) (v u : Str) : Prop :=
  score db ks u < score db ks v ∨ score db ks v = score db ks u ∧ compare v u = .lt

theorem quantity_of_notStored {db : Database} {k u : Str} (h : ∀ q, ¬ Stored db k u q) :
    quantity db k u = 0 := by
  rw [quantity]
  split
  next kr ur hk hu =>
    obtain ⟨hkm, hke⟩ := keywordRow_some hk
    obtain ⟨hum, hue⟩ := urlRow_some hu
    have hn : db.keywordUrsQty.find? (fun r => r.pair = (kr.id, ur.id)) = none := by
      rw [List.find?_eq_none]
      intro r hr hp
      have hids : r.idKeyword = kr.id ∧ r.idUrl = ur.id := by simpa [QtyRow.pair] using hp
      exact h r.quantity ⟨kr, hkm, ur, hum, r, hr, hke, hue, hids.1, hids.2, rfl⟩
    rw [hn]
    rfl
  · rfl

theorem quantity_of_stored {db : Database} {k u : Str} {q : Int} (h : Stored db k u q) :
    quantity db k u = q := by
  obtain ⟨kr, hk⟩ : ∃ kr, keywordRow db k = some kr := exists_row h.keyword_mem
  obtain ⟨ur, hu⟩ : ∃ ur, urlRow db u = some ur := exists_row h.url_mem
  obtain ⟨hkm, hke⟩ := keywordRow_some hk
  obtain ⟨hum, hue⟩ := urlRow_some hu
  obtain ⟨kr', hkm', ur', hum', r, hr, hke', hue', h1, h2, rfl⟩ := h
  obtain rfl := keyword_row_eq db hkm' hkm (.inr (hke'.trans hke.symm))
  obtain rfl := url_row_eq db hum' hum (.inr (hue'.trans hue.symm))
  have hpair : r.pair = (kr'.id, ur'.id) := by simp [QtyRow.pair, h1, h2]
  obtain ⟨r', hr'⟩ := exists_row (hpair ▸ List.mem_map_of_mem (f := QtyRow.pair) hr)
  obtain ⟨hrm, he⟩ := find_row hr'
  obtain rfl := List.inj_on_of_nodup_map db.k_u hrm hr (he.trans hpair.symm)
  simp [quantity, hk, hu, hr']

theorem addUrls_of_notMem {rows : List (Str × Int)} (acc : StdMap Int) {u : Str}
    (h : u ∉ rows.map Prod.fst) : (addUrls rows acc)[u]? = acc[u]? := by
  induction rows generalizing acc with
  | nil => rfl
  | cons row rows ih =>
    obtain ⟨key, value⟩ := row
    rw [List.map_cons, List.mem_cons, not_or] at h
    have hne : ¬ compare key u = .eq := fun he => h.1 (Std.compare_eq_iff_eq.mp he).symm
    have hi := ih (acc.insert key (wrapInt (acc[key]?.getD 0 + value))) h.2
    rw [Std.ExtTreeMap.getElem?_insert, if_neg hne] at hi
    exact hi

theorem addUrls_of_mem {rows : List (Str × Int)} (acc : StdMap Int) {u : Str} {q : Int}
    (hn : (rows.map Prod.fst).Nodup) (h : (u, q) ∈ rows) :
    (addUrls rows acc)[u]? = some (wrapInt (acc[u]?.getD 0 + q)) := by
  induction rows generalizing acc with
  | nil => cases h
  | cons row rows ih =>
    obtain ⟨key, value⟩ := row
    rw [List.map_cons, List.nodup_cons] at hn
    obtain he | h := List.mem_cons.mp h
    · cases he
      have hi := addUrls_of_notMem (acc.insert u (wrapInt (acc[u]?.getD 0 + q))) hn.1
      rw [Std.ExtTreeMap.getElem?_insert_self] at hi
      exact hi
    · have hne : ¬ compare key u = .eq := fun he =>
        hn.1 (List.mem_map.mpr ⟨(u, q), h, (Std.compare_eq_iff_eq.mp he).symm⟩)
      have hi := ih (acc.insert key (wrapInt (acc[key]?.getD 0 + value))) hn.2 h
      rw [Std.ExtTreeMap.getElem?_insert, if_neg hne] at hi
      exact hi

/-- The accumulated map after the keywords `ks`: a total for every candidate. -/
def Sums (db : Database) (ks : List Str) (acc : StdMap Int) : Prop :=
  ∀ (u : Str) (v : Int), acc[u]? = some v ↔
    Candidate db ks u ∧ v = wrapInt ((ks.map fun k => quantity db k u).sum)

theorem Candidate.concat {db : Database} {ks : List Str} {k u : Str} :
    Candidate db (ks ++ [k]) u ↔ Candidate db ks u ∨ ∃ q, Stored db k u q := by
  simp [Candidate, or_and_right, exists_or]

theorem sum_of_not_candidate {db : Database} {ks : List Str} {u : Str} (h : ¬ Candidate db ks u) :
    (ks.map fun k => quantity db k u).sum = 0 := by
  apply List.sum_eq_zero
  intro x hx
  obtain ⟨k, hk, rfl⟩ := List.mem_map.mp hx
  exact quantity_of_notStored fun q hq => h ⟨k, hk, q, hq⟩

theorem Sums.getD {db : Database} {ks : List Str} {acc : StdMap Int} (h : Sums db ks acc) (u : Str) :
    acc[u]?.getD 0 = wrapInt ((ks.map fun k => quantity db k u).sum) := by
  by_cases hc : Candidate db ks u
  · rw [(h u _).mpr ⟨hc, rfl⟩, Option.getD_some]
  · rw [sum_of_not_candidate hc]
    cases ha : acc[u]? with
    | none => rfl
    | some v => exact absurd ((h u v).mp ha).1 hc

theorem sums_step {db : Database} {ks : List Str} {acc m : StdMap Int} {k : Str}
    (h : Sums db ks acc) (hm : ∀ (u : Str) (q : Int), m[u]? = some q ↔ Stored db k u q) :
    Sums db (ks ++ [k]) (addUrls m.toList acc) := by
  intro u v
  have hn : (m.toList.map Prod.fst).Nodup := by
    rw [Std.ExtTreeMap.map_fst_toList_eq_keys]
    exact Std.ExtTreeMap.nodup_keys
  rw [Candidate.concat, List.map_append, List.sum_append, List.map_singleton, List.sum_singleton]
  by_cases hs : ∃ q, Stored db k u q
  · obtain ⟨q, hq⟩ := hs
    have hin : (u, q) ∈ m.toList :=
      Std.ExtTreeMap.mem_toList_iff_getElem?_eq_some.mpr ((hm u q).mpr hq)
    -- an `int` that wrapped earlier still wraps to the same total
    rw [addUrls_of_mem acc hn hin, h.getD u, wrapInt_add, quantity_of_stored hq, Option.some_inj, eq_comm]
    exact ⟨fun hv => ⟨.inr ⟨q, hq⟩, hv⟩, fun hv => hv.2⟩
  · have hout : u ∉ m.toList.map Prod.fst := by
      intro hu
      obtain ⟨⟨u', q⟩, hin, rfl⟩ := List.mem_map.mp hu
      exact hs ⟨q, (hm u' q).mp (Std.ExtTreeMap.mem_toList_iff_getElem?_eq_some.mp hin)⟩
    rw [addUrls_of_notMem acc hout, h u v, quantity_of_notStored (not_exists.mp hs), add_zero]
    simp [hs]

theorem addKeywords_sums {db : Database} {done : List Str} {acc : StdMap Int} (ks : List Str)
    (h : Sums db done acc) :
    ∃ m, addKeywords (getUrl db) ks acc = .ok m ∧ Sums db (done ++ ks) m := by
  induction ks generalizing done acc with
  | nil => exact ⟨acc, rfl, by rwa [List.append_nil]⟩
  | cons k ks ih =>
    obtain ⟨m, hg, hm⟩ := getUrl_spec db k
    obtain ⟨m', hr, hs⟩ := ih (sums_step h hm)
    refine ⟨m', ?_, by simpa using hs⟩
    rw [addKeywords, hg]
    exact hr

theorem outranks_asymm (db : Database) (ks : List Str) (u v : Str) (h : Outranks db ks u v) :
    ¬ Outranks db ks v u := by
  rintro (h' | ⟨he', hc'⟩)
  · obtain h | ⟨he, -⟩ := h
    · omega
    · omega
  · obtain h | ⟨-, hc⟩ := h
    · omega
    · have hs : compare u v = (compare v u).swap := Std.OrientedCmp.eq_swap
      rw [hc, hc'] at hs
      cases hs

theorem dbResultSort_perm (m : StdMap Int) : (dbResultSort m).Perm (m.toList.map Prod.swap) := by
  rw [dbResultSort]
  exact (Multimap.insertAll_perm _ _).trans (by rw [List.append_nil])

/-- Larger totals stand first; the map hands out its URLs in order, so ties keep that order. -/
theorem dbResultSort_sorted (m : StdMap Int) :
    (dbResultSort m).Pairwise (Multimap.Before (fun a b : Int => decide (b < a))
      fun u v : Str => compare u v = .lt) := by
  refine Multimap.insertAll_before ?_ ?_ List.Pairwise.nil ?_ nofun
  · simp only [decide_eq_true_eq]
    intro a b c h1 h2
    omega
  · simp only [decide_eq_true_eq]
    intro a b
    omega
  · rw [List.pairwise_map]
    have ho := Std.ExtTreeMap.ordered_keys_toList (t := m)
    exact ho

theorem score_eq_sum (db : Database) {ks : List Str} (hn : ks.Nodup) (u : Str) :
    score db ks u = wrapInt ((ks.map fun k => quantity db k u).sum) := by
  rw [score, total, List.sum_toFinset _ hn]

theorem Sums.mem_dbResultSort {db : Database} {ks : List Str} {m : StdMap Int} (hs : Sums db ks m)
    (hn : ks.Nodup) (e : Int × Str) :
    e ∈ dbResultSort m ↔ Candidate db ks e.2 ∧ e.1 = score db ks e.2 := by
  rw [(dbResultSort_perm m).mem_iff, score_eq_sum db hn, ← hs e.2 e.1,
    ← Std.ExtTreeMap.mem_toList_iff_getElem?_eq_some, List.mem_map]
  apply Iff.intro
  · rintro ⟨p, hp, rfl⟩
    exact hp
  · intro hp
    exact ⟨_, hp, rfl⟩

/-- The search ranks exactly the candidates: by their totals, and by the URL where these agree. -/
theorem search_ranked (db : Database) {ks : List Str} (hn : ks.Nodup) :
    ∃ m ranked, addKeywords (getUrl db) ks ∅ = .ok m ∧ ranked.Pairwise (Outranks db ks) ∧
      (∀ u, u ∈ ranked ↔ Candidate db ks u) ∧
      dbResultSort m = ranked.map (fun u => (score db ks u, u)) ∧ (m.size > 0 ↔ ranked ≠ []) := by
  have hzero : Sums db [] ∅ := fun u v => by simp [Candidate]
  obtain ⟨m, hm, hs⟩ := addKeywords_sums ks hzero
  rw [List.nil_append] at hs
  have hmem := hs.mem_dbResultSort hn
  refine ⟨m, (dbResultSort m).map Prod.snd, hm, ?_, ?_, ?_, ?_⟩
  · rw [List.pairwise_map]
    refine (dbResultSort_sorted m).imp_of_mem fun {a b} ha hb h => ?_
    rw [Outranks, ← ((hmem a).mp ha).2, ← ((hmem b).mp hb).2]
    simpa [Multimap.Before] using h
  · intro u
    rw [List.mem_map]
    apply Iff.intro
    · rintro ⟨e, he, rfl⟩
      exact ((hmem e).mp he).1
    · intro hc
      exact ⟨(score db ks u, u), (hmem _).mpr ⟨hc, rfl⟩, rfl⟩
  · rw [List.map_map]
    refine (List.map_id _).symm.trans (List.map_congr_left fun e he => ?_)
    exact Prod.ext ((hmem e).mp he).2 rfl
  · have hlen : (dbResultSort m).length = m.size := by
      rw [(dbResultSort_perm m).length_eq, List.length_map, Std.ExtTreeMap.length_toList]
    rw [← hlen, gt_iff_lt, List.length_pos_iff, ne_eq, ne_eq, List.map_eq_nil_iff]

end SpiderSearch.SearchTotals
