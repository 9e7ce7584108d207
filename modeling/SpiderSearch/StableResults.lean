import SpiderSearch.LinkDepth
import SpiderSearch.SearchResults
import SpiderSearch.Statements

namespace SpiderSearch.StableResults

open CppTypes Tables StoredRows DbSession DbClient AddLink DoWork Runs WebCrawl Keyword HttpServer
  SearchTotals SearchResults Statements
open IndexTruth (Call foldl_frame)

variable {server : Server} {D : Finset Str} {db db' : Database} {ks : List Str}

/-- The pages of the first tables, those of `D` apart, and what is stored of them are as they were. -/
structure Keeps (D : Finset Str) (db db' : Database) : Prop where
  urls : ∀ u ∈ db.urlTexts, u ∉ D → u ∈ db'.urlTexts
  stored : ∀ u ∈ db.urlTexts, u ∉ D → ∀ k q, Stored db' k u q ↔ Stored db k u q

theorem Keeps.refl (db : Database) : Keeps ∅ db db := ⟨fun _ h _ => h, fun _ _ _ _ _ => Iff.rfl⟩

theorem Keeps.trans {db'' : Database} (h : Keeps D db db') (h' : Keeps ∅ db' db'') :
    Keeps D db db'' where
  urls u hu hD := h'.urls u (h.urls u hu hD) (Finset.notMem_empty u)
  stored u hu hD k q :=
    (h'.stored u (h.urls u hu hD) (Finset.notMem_empty u) k q).trans (h.stored u hu hD k q)

theorem keeps_calls (server : Server) (db : Database) (calls : List Call) :
    Keeps ∅ db (calls.foldl (Call.run server) db) where
  urls _ hu _ := (foldl_frame hu calls).1
  stored _ hu _ := (foldl_frame hu calls).2

theorem keeps_call (server : Server) (db : Database) (c : Call) : Keeps ∅ db (c.run server db) :=
  keeps_calls server db [c]

/-- What a call has added so far does not touch the other pages. -/
theorem keeps_of_filled {link : Str} {done : List (Str × Nat)} (h : Filled db link done db') :
    Keeps {link} db' db where
  urls u hu hD := by
    rw [h.urls, List.mem_append, List.mem_singleton] at hu
    exact hu.resolve_right fun he => hD (Finset.mem_singleton.mpr he)
  stored u _ hD k q := by
    rw [h.stored]
    exact ⟨.inl, fun hs => hs.resolve_right fun he => hD (Finset.mem_singleton.mpr he.1)⟩

section Moments

variable {web : Web} {n : Nat}

/-- Whatever a call under way has stored, the tables had the other pages before. -/
theorem keeps_world (server : Server) (web : Web) (s : Moment n) :
    Keeps (s.unfinished server web) (s.tables server web) s.pool.globals.world := by
  obtain ⟨he, hu⟩ | ⟨c, done, -, -, hf, hu⟩ := tables_cases server web s
  · rw [he, hu]
    exact .refl _
  · rw [hu]
    exact keeps_of_filled hf

theorem keeps_tables (server : Server) (web : Web) (s : Moment n) :
    Keeps ∅ s.pool.globals.world (s.tables server web) := by
  cases hc : s.call web with
  | none =>
    rw [tables_of_call_none hc]
    exact .refl _
  | some c =>
    rw [tables_of_call hc]
    exact keeps_call server _ c

theorem keeps_run {start : TqueueItem} {s t : Moment n} {ms : List (Move n)}
    (h : run (step server web start) s ms = some t) :
    Keeps (s.unfinished server web) (s.tables server web) (t.tables server web) := by
  obtain ⟨as, hr⟩ := pool_run h
  have hw : Keeps ∅ s.pool.globals.world t.pool.globals.world :=
    tables_run Keeps.refl (fun _ _ _ => Keeps.trans)
      (fun db words link => keeps_call server db ⟨words, link, none⟩) hr
  exact ((keeps_world server web s).trans hw).trans (keeps_tables server web t)

end Moments

/-- A page that the first tables have, and not only in part. -/
def Old (D : Finset Str) (db : Database) (u : Str) : Prop := u ∈ db.urlTexts ∧ u ∉ D

instance (D : Finset Str) (db : Database) : DecidablePred (Old D db) :=
  fun _ => inferInstanceAs (Decidable (_ ∧ _))

theorem Keeps.candidate_iff (h : Keeps D db db') (ks : List Str) (u : Str) :
    Candidate db' ks u ∧ Old D db u ↔ Candidate db ks u ∧ Old D db u := by
  refine and_congr_left fun ⟨hu, hD⟩ => ?_
  apply Iff.intro
  · rintro ⟨k, hk, q, hq⟩
    exact ⟨k, hk, q, (h.stored u hu hD k q).mp hq⟩
  · rintro ⟨k, hk, q, hq⟩
    exact ⟨k, hk, q, (h.stored u hu hD k q).mpr hq⟩

theorem Keeps.score_eq (h : Keeps D db db') (ks : List Str) {u : Str} (hu : Old D db u) :
    score db' ks u = score db ks u := by
  have hq : ∀ k, quantity db' k u = quantity db k u := by
    intro k
    by_cases hs : ∃ q, Stored db k u q
    · obtain ⟨q, hs⟩ := hs
      rw [quantity_of_stored hs, quantity_of_stored ((h.stored u hu.1 hu.2 k q).mpr hs)]
    · have hn : ∀ q, ¬ Stored db k u q := fun q hq => hs ⟨q, hq⟩
      rw [quantity_of_notStored hn,
        quantity_of_notStored fun q hq => hn q ((h.stored u hu.1 hu.2 k q).mp hq)]
  rw [score, score, total, total, Finset.sum_congr rfl fun k _ => hq k]

/-- Pages that were there before keep their order among themselves. -/
theorem Keeps.filter_ranked (h : Keeps D db db') {ranked ranked' : List Str}
    (hord : ranked.Pairwise (Outranks db ks)) (hmem : ∀ u, u ∈ ranked ↔ Candidate db ks u)
    (hord' : ranked'.Pairwise (Outranks db' ks)) (hmem' : ∀ u, u ∈ ranked' ↔ Candidate db' ks u) :
    ranked'.filter (fun u => Old D db u) = ranked.filter fun u => Old D db u := by
  refine Multimap.eq_of_mem_iff (outranks_asymm db ks) ?_ (hord.filter _) fun u => ?_
  · refine (hord'.filter _).imp_of_mem fun {u v} hu hv ho => ?_
    have hu := of_decide_eq_true (List.mem_filter.mp hu).2
    have hv := of_decide_eq_true (List.mem_filter.mp hv).2
    rwa [Outranks, h.score_eq ks hu, h.score_eq ks hv] at ho
  · rw [List.mem_filter, List.mem_filter, hmem', hmem, decide_eq_true_eq, h.candidate_iff]

/-- The filtered first parts of two lists that are filtered alike: where the filter drops nothing from
one first part, it is not the shorter one. -/
theorem prefix_or_of_take {α : Type} {p : α → Prop} [DecidablePred p] {l l' : List α} (n : Nat)
    (h : l'.filter (fun a => p a) = l.filter fun a => p a) :
    (l'.take n).filter (fun a => p a) <+: (l.take n).filter (fun a => p a) ∨
      (l.take n).filter (fun a => p a) <+: (l'.take n).filter (fun a => p a) ∧
        ∃ a ∈ l.take n, ¬ p a := by
  have hp := (List.take_prefix n l).filter fun a => p a
  have hp' := (List.take_prefix n l').filter fun a => p a
  have hlen := hp'.length_le
  rw [h] at hp' hlen
  by_cases hall : ∀ a ∈ l.take n, p a
  · left
    refine List.prefix_of_prefix_length_le hp' hp ?_
    have htake := (List.length_filter_le (fun a => decide (p a)) (l'.take n)).trans
      (List.length_take_le n l')
    have hle := List.length_filter_le (fun a => decide (p a)) l
    rw [List.filter_eq_self.mpr fun a ha => decide_eq_true (hall a ha), List.length_take]
    omega
  · push Not at hall
    obtain hle | hle := List.prefix_or_prefix_of_prefix hp' hp
    · exact .inl hle
    · exact .inr ⟨hle, hall⟩

/-- What a search prints later of the old pages is an initial part of what it printed before, or the
other way around where it printed a page of `D` before. -/
def Stable (D : Finset Str) (db db' : Database) : Prop :=
  ∀ value ks, getKeyword value = some ks → ks ≠ [] → ∃ rows rows',
    (∀ request response, request.target = str "/" → request.body = str "search=" ++ value →
      createResponsePost (getUrl db) request response = .ok (resultPage rows response) ∧
      createResponsePost (getUrl db') request response = .ok (resultPage rows' response)) ∧
    (rows'.filter (fun row => Old D db row.2) <+: rows.filter (fun row => Old D db row.2) ∨
      rows.filter (fun row => Old D db row.2) <+: rows'.filter (fun row => Old D db row.2) ∧
        ∃ row ∈ rows, row.2 ∈ D)

theorem Keeps.stable (h : Keeps D db db') : Stable D db db' := by
  intro value ks hk hne
  obtain ⟨ranked, rows, hord, hmem, rfl, -, hpage⟩ := search_answered db hk hne
  obtain ⟨ranked', rows', hord', hmem', rfl, -, hpage'⟩ := search_answered db' hk hne
  refine ⟨_, _, fun request response ht hb => ⟨hpage request response ht hb,
    hpage' request response ht hb⟩, ?_⟩
  have hscore : ((ranked'.take 10).filter fun u => Old D db u).map (fun u => (score db' ks u, u)) =
      ((ranked'.take 10).filter fun u => Old D db u).map fun u => (score db ks u, u) := by
    refine List.map_congr_left fun u hu => ?_
    rw [h.score_eq ks (of_decide_eq_true (List.mem_filter.mp hu).2)]
  rw [List.filter_map, List.filter_map, Function.comp_def, Function.comp_def, hscore]
  obtain hp | ⟨hp, u, hu, hold⟩ :=
    prefix_or_of_take 10 (h.filter_ranked hord hmem hord' hmem')
  · exact .inl (hp.map _)
  · obtain ⟨k, -, q, hs⟩ := (hmem u).mp (List.mem_of_mem_take hu)
    have hD : u ∈ D := by
      by_contra hD
      exact hold ⟨hs.url_mem, hD⟩
    exact .inr ⟨hp.map _, _, List.mem_map_of_mem hu, hD⟩

/-- While the crawler goes on, at any two moments between its statements, and over calls that are cut
off anywhere, a page that is stored keeps its count and its place among the pages beside it, and gives
way to new pages and to the one that was being stored only. -/
theorem results_stable (server : Server) :
    (∀ (web : Web) (start : TqueueItem) (n : Nat) (s t : Moment n) (ms : List (Move n)),
      run (step server web start) s ms = some t →
        Stable (s.unfinished server web) (s.tables server web) (t.tables server web)) ∧
    ∀ (db : Database) (calls : List Call), Stable ∅ db (calls.foldl (Call.run server) db) := by
  apply And.intro
  · intro web start n s t ms h
    exact (keeps_run h).stable
  · intro db calls
    exact (keeps_calls server db calls).stable

section OtherPage

open SpiderSearch.WebCrawl (second second_valid)

def otherPage : Web := fun _ => .parsed second oneWord []

/-- One search comes while a page is being added beside the one that the tables hold, and another one
when its word has been stored. -/
theorem spider_stays : ∃ s t : Moment 1,
    run (step strict otherPage PoolLock.home) (.initial 1 spiderOnly) (midway 4) = some s ∧
    run (step strict otherPage PoolLock.home) s (List.replicate 4 .statement) = some t ∧
    second ∈ s.unfinished strict otherPage ∧
    Stable (s.unfinished strict otherPage) (s.tables strict otherPage) (t.tables strict otherPage) := by
  have hc : ∀ k, callOf (otherPage PoolLock.home.url) k = some ⟨oneWord, second, some k⟩ :=
    fun _ => rfl
  obtain ⟨s, hs, hw, hcall⟩ := run_midway strict spiderOnly (hc 4) (Nat.le_of_ble_eq_true rfl)
  obtain ⟨t, ht, -, -⟩ := run_midway strict spiderOnly (hc 8) (Nat.le_of_ble_eq_true rfl)
  have hrun : run (step strict otherPage PoolLock.home) s (List.replicate 4 .statement) = some t := by
    rw [show midway 8 = midway 4 ++ List.replicate 4 .statement from rfl, run_append, hs,
      Option.bind_some] at ht
    exact ht
  have hout : second ∉ s.pool.globals.world.urlTexts := by
    rw [hw]
    decide
  have hf : findUrl strict second s.pool.globals.world = .ok false := by
    rw [findUrl_plain strict second_valid.link, decide_eq_false hout]
  exact ⟨s, t, hs, hrun, unfinished_of_first_commit hcall rfl hf hout,
    (results_stable strict).1 otherPage PoolLock.home 1 s t _ hrun⟩

end OtherPage

end SpiderSearch.StableResults
