import SpiderSearch.AppendOnly
import SpiderSearch.SearchTotals

namespace SpiderSearch.LiveSearch

open CppTypes Tables StoredRows DbSession DbClient IndexTruth HttpServer SearchTotals Runs AppendOnly

variable {server : Server}

/-- A search while the crawler writes. The crawler's mutex lets one call of `addLink` run at a time;
`base` are the tables it began on, and its `cut` counts the statements it has executed. The server
has the keywords of `todo` still to look up. -/
structure Live where
  base : Database
  running : Option Call
  todo : List Str
  db_result : StdMap Int

/-- The committed tables. -/
def Live.tables (server : Server) (s : Live) : Database :=
  match s.running with
  | none => s.base
  | some c => c.run server s.base

inductive Event where
  | enter (words : StdMap Nat) (link : Str)
  | statement
  | leave
  | lookup

/-- `leave` ends the call wherever it stands: it has returned, or its process was killed. -/
def step (server : Server) (s : Live) : Event → Option Live
  | .enter words link =>
    match s.running with
    | none => some { s with running := some ⟨words, link, some 0⟩ }
    | some _ => none
  | .statement =>
    match s.running with
    | some ⟨words, link, some j⟩ => some { s with running := some ⟨words, link, some (j + 1)⟩ }
    | _ => none
  | .leave =>
    match s.running with
    | none => none
    | some _ => some { s with base := s.tables server, running := none }
  | .lookup =>
    match s.todo with
    | [] => none
    | k :: todo =>
      match getUrl (s.tables server) k with
      | .error _ => none
      | .ok urls => some { s with todo := todo, db_result := addUrls urls.toList s.db_result }

/-- Left alone the server adds up what `addKeywords` adds up. -/
theorem run_lookups (server : Server) (db : Database) (ks : List Str) (acc m : StdMap Int) :
    addKeywords (getUrl db) ks acc = .ok m ↔
      run (step server) ⟨db, none, ks, acc⟩ (List.replicate ks.length .lookup) =
        some ⟨db, none, [], m⟩ := by
  induction ks generalizing acc with
  | nil => simp [addKeywords]
  | cons k ks ih =>
    obtain ⟨urls, hg, -⟩ := getUrl_spec db k
    have hstep : step server ⟨db, none, k :: ks, acc⟩ .lookup =
        some ⟨db, none, ks, addUrls urls.toList acc⟩ := by simp [step, Live.tables, hg]
    rw [addKeywords, hg, List.length_cons, List.replicate_succ, run_cons, hstep,
      Option.bind_some]
    exact ih (addUrls urls.toList acc)

inductive LiveStep (server : Server) (s : Live) : Live → Prop
  | write (t : Live) (ht : t.todo = s.todo) (hr : t.db_result = s.db_result)
      (h : Extends (s.tables server) (t.tables server)) : LiveStep server s t
  | lookup (k : Str) (todo : List Str) (urls : StdMap Int) (hk : s.todo = k :: todo)
      (hg : getUrl (s.tables server) k = .ok urls) :
      LiveStep server s { s with todo := todo, db_result := addUrls urls.toList s.db_result }

theorem step_cases {s t : Live} {e : Event} (h : step server s e = some t) :
    LiveStep server s t := by
  cases e with
  | enter words link =>
    simp only [step] at h
    split at h
    · rename_i hr
      cases h
      refine .write _ rfl rfl ?_
      simp only [Live.tables, hr]
      exact extends_tablesAfter words link s.base (some 0)
    · cases h
  | statement =>
    simp only [step] at h
    split at h
    · rename_i words link j hr
      cases h
      refine .write _ rfl rfl ?_
      simp only [Live.tables, hr]
      exact extends_succ words link s.base j
    · cases h
  | leave =>
    simp only [step] at h
    split at h
    · cases h
    · cases h
      exact .write _ rfl rfl (Extends.refl _)
  | lookup =>
    simp only [step] at h
    split at h
    · cases h
    · rename_i k todo hk
      split at h
      · cases h
      · rename_i urls hg
        cases h
        exact .lookup k todo urls hk hg

/-- The result for a URL adds up the quantities of the keywords with which it was found: those that
had a row for it at first, and some of those that have one at last. -/
def Between (db₀ db : Database) (ks : List Str) (u : Str) (result : Option Int) : Prop :=
  ∃ found : List Str, found.Sublist ks ∧ (∀ k ∈ ks, (∃ q, Stored db₀ k u q) → k ∈ found) ∧
    (∀ k ∈ found, ∃ q, Stored db k u q) ∧
    result = if found = [] then none else some (wrapInt ((found.map fun k => quantity db k u).sum))

theorem Between.extends {db₀ db db' : Database} {ks : List Str} {u : Str} {result : Option Int}
    (h : Between db₀ db ks u result) (he : Extends db db') : Between db₀ db' ks u result := by
  obtain ⟨found, hsub, hall, hin, hr⟩ := h
  have hsame : (found.map fun k => quantity db k u) = found.map fun k => quantity db' k u := by
    refine List.map_congr_left fun k hk => ?_
    obtain ⟨q, hq⟩ := hin k hk
    rw [quantity_of_stored hq, quantity_of_stored (he.stored hq)]
  refine ⟨found, hsub, hall, fun k hk => ?_, by rw [hr, hsame]⟩
  obtain ⟨q, hq⟩ := hin k hk
  exact ⟨q, he.stored hq⟩

theorem Between.lookup {db₀ db : Database} {ks : List Str} {k u : Str} {acc m : StdMap Int}
    (h : Between db₀ db ks u acc[u]?) (he : Extends db₀ db)
    (hm : ∀ (u : Str) (q : Int), m[u]? = some q ↔ Stored db k u q) :
    Between db₀ db (ks ++ [k]) u (addUrls m.toList acc)[u]? := by
  obtain ⟨found, hsub, hall, hin, hr⟩ := h
  have hn : (m.toList.map Prod.fst).Nodup := by
    rw [Std.ExtTreeMap.map_fst_toList_eq_keys]
    exact Std.ExtTreeMap.nodup_keys
  by_cases hs : ∃ q, Stored db k u q
  · obtain ⟨q, hq⟩ := hs
    have hmem : (u, q) ∈ m.toList :=
      Std.ExtTreeMap.mem_toList_iff_getElem?_eq_some.mpr ((hm u q).mpr hq)
    refine ⟨found ++ [k], hsub.append (List.Sublist.refl _), ?_, ?_, ?_⟩
    · intro j hj hstored
      obtain hj | hj := List.mem_append.mp hj
      · exact List.mem_append_left _ (hall j hj hstored)
      · exact List.mem_append_right _ hj
    · intro j hj
      obtain hj | hj := List.mem_append.mp hj
      · exact hin j hj
      · rw [List.mem_singleton.mp hj]
        exact ⟨q, hq⟩
    · have hacc : acc[u]?.getD 0 = wrapInt ((found.map fun k => quantity db k u).sum) := by
        rw [hr]
        split_ifs with hnil
        · rw [hnil]
          rfl
        · rfl
      rw [addUrls_of_mem acc hn hmem, hacc, wrapInt_add, if_neg (by simp), List.map_append,
        List.sum_append, List.map_singleton, List.sum_singleton, quantity_of_stored hq]
  · have hout : u ∉ m.toList.map Prod.fst := by
      intro hu
      obtain ⟨⟨u', q⟩, hin', rfl⟩ := List.mem_map.mp hu
      exact hs ⟨q, (hm u' q).mp (Std.ExtTreeMap.mem_toList_iff_getElem?_eq_some.mp hin')⟩
    refine ⟨found, hsub.trans (List.sublist_append_left ks [k]), ?_, hin, ?_⟩
    · intro j hj hstored
      obtain hj | hj := List.mem_append.mp hj
      · exact hall j hj hstored
      · obtain ⟨q, hq⟩ := hstored
        rw [List.mem_singleton.mp hj] at hq
        exact absurd ⟨q, he.stored hq⟩ hs
    · rw [addUrls_of_notMem acc hout, hr]

/-- What the server has found so far. -/
structure Found (server : Server) (db₀ : Database) (ks : List Str) (s : Live) : Prop where
  tables : Extends db₀ (s.tables server)
  result : ∃ done, done ++ s.todo = ks ∧ ∀ u, Between db₀ (s.tables server) done u s.db_result[u]?

theorem found_step {db₀ : Database} {ks : List Str} {s t : Live} {e : Event}
    (hs : Found server db₀ ks s) (h : step server s e = some t) : Found server db₀ ks t := by
  obtain ⟨done, hdone, hb⟩ := hs.result
  cases step_cases h with
  | write t ht hr he =>
    refine ⟨hs.tables.trans he, done, by rw [ht]; exact hdone, fun u => ?_⟩
    rw [hr]
    exact (hb u).extends he
  | lookup k todo urls hk hg =>
    obtain ⟨m, hm, hspec⟩ := getUrl_spec (s.tables server) k
    obtain rfl := Except.ok.inj (hm.symm.trans hg)
    rw [hk] at hdone
    refine ⟨hs.tables, done ++ [k], ?_, fun u => (hb u).lookup hs.tables hspec⟩
    rw [List.append_assoc]
    exact hdone

/-- Where no row was added for a URL, it is found with all the keywords it has a row for. -/
theorem Between.settled {db₀ db : Database} {ks : List Str} {u : Str} {result : Option Int}
    (h : Between db₀ db ks u result) (hn : ks.Nodup)
    (hsame : ∀ k ∈ ks, ∀ q, Stored db k u q → Stored db₀ k u q) (v : Int) :
    result = some v ↔ Candidate db₀ ks u ∧ v = score db₀ ks u := by
  obtain ⟨found, hsub, hall, hin, hr⟩ := h
  have hstored : ∀ k ∈ found, ∃ q, Stored db k u q ∧ Stored db₀ k u q := by
    intro k hk
    obtain ⟨q, hq⟩ := hin k hk
    exact ⟨q, hq, hsame k (hsub.subset hk) q hq⟩
  have hcand : Candidate db₀ ks u ↔ found ≠ [] := by
    apply Iff.intro
    · rintro ⟨k, hk, hq⟩
      exact List.ne_nil_of_mem (hall k hk hq)
    · intro hne
      obtain ⟨k, hk⟩ := List.exists_mem_of_ne_nil found hne
      obtain ⟨q, -, hq⟩ := hstored k hk
      exact ⟨k, hsub.subset hk, q, hq⟩
  have hsum : (found.map fun k => quantity db k u).sum = total db₀ ks u := by
    rw [total, ← List.sum_toFinset _ (hn.sublist hsub)]
    refine (Finset.sum_congr rfl fun k hk => ?_).trans
      (Finset.sum_subset (fun k hk => ?_) fun k hk hkf => ?_)
    · obtain ⟨q, hq, hq₀⟩ := hstored k (List.mem_toFinset.mp hk)
      rw [quantity_of_stored hq, quantity_of_stored hq₀]
    · exact List.mem_toFinset.mpr (hsub.subset (List.mem_toFinset.mp hk))
    · exact quantity_of_notStored fun q hq =>
        hkf (List.mem_toFinset.mpr (hall k (List.mem_toFinset.mp hk) ⟨q, hq⟩))
  rw [hr, hcand, hsum, score]
  split_ifs with hnil
  · simp [hnil]
  · simp [hnil, eq_comm]

/-- A search that runs while pages are indexed lists every URL that it would have listed at its
beginning and none that it would not list at its end. A URL for which no row was added meanwhile has
the total it would have had alone. -/
theorem live_search (server : Server) (s₀ s : Live) (h₀ : s₀.db_result = ∅) (hn : s₀.todo.Nodup)
    (es : List Event) (h : run (step server) s₀ es = some s) (hs : s.todo = []) (u : Str) :
    Between (s₀.tables server) (s.tables server) s₀.todo u s.db_result[u]? ∧
      ((∀ k ∈ s₀.todo, ∀ q, Stored (s.tables server) k u q → Stored (s₀.tables server) k u q) →
        ∀ v, s.db_result[u]? = some v ↔
          Candidate (s₀.tables server) s₀.todo u ∧ v = score (s₀.tables server) s₀.todo u) := by
  have hzero : Found server (s₀.tables server) s₀.todo s₀ := by
    refine ⟨Extends.refl _, [], rfl, fun u => ⟨[], List.Sublist.refl _, nofun, nofun, ?_⟩⟩
    rw [h₀, if_pos rfl]
    exact Std.ExtTreeMap.getElem?_empty
  obtain ⟨-, done, hdone, hb⟩ := run_invariant (fun _ _ _ => found_step) hzero h
  rw [hs, List.append_nil] at hdone
  rw [← hdone]
  refine ⟨hb u, (hb u).settled ?_⟩
  rw [hdone]
  exact hn

def spiderSearch : Live := ⟨.empty, none, [str "spider", str "robot"], ∅⟩

/-- The page with both words is being stored: `spider` is looked up before its row is written and
`robot` after. -/
def spiderEvents : List Event :=
  .enter twoWords (str "http://a.b/") :: (List.replicate 9 .statement ++
    .lookup :: (List.replicate 4 .statement ++ [.lookup]))

theorem spider_run : (run (step strict) spiderSearch spiderEvents).map (fun s => (s.todo,
    s.db_result[str "http://a.b/"]?, (s.tables strict).keywordUrsQty.map QtyRow.quantity)) =
      some ([], some 3, [3, 2]) := by decide +kernel

theorem spider_live : ∃ s, run (step strict) spiderSearch spiderEvents = some s ∧
    s.db_result[str "http://a.b/"]? = some 3 ∧
    (s.tables strict).keywordUrsQty.map QtyRow.quantity = [3, 2] ∧
    Between .empty (s.tables strict) [str "spider", str "robot"] (str "http://a.b/")
      s.db_result[str "http://a.b/"]? := by
  obtain ⟨s, hr, hs⟩ := Option.map_eq_some_iff.mp spider_run
  rw [Prod.mk.injEq, Prod.mk.injEq] at hs
  have hn : [str "spider", str "robot"].Nodup := by decide
  exact ⟨s, hr, hs.2.1, hs.2.2, (live_search strict spiderSearch s rfl hn spiderEvents hr hs.1 _).1⟩

end SpiderSearch.LiveSearch
