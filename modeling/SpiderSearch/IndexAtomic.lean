import SpiderSearch.AddLink

namespace SpiderSearch.IndexAtomic

open CppTypes Tables StoredRows Triples DbSession DbClient AddLink SqlText

/-- The tables contain the URL together with a row for every word of the map. -/
def Complete (db : Database) (words : StdMap Nat) (link : Str) : Prop :=
  link ∈ db.urlTexts ∧ ∀ k v, words[k]? = some v → ∃ q, Stored db k link q

/-- Cut off after `cut` statements, the call has done nothing or all of its work, and the same
call made again ends where an uninterrupted one does. -/
def AtomicAt (server : Server) (words : StdMap Nat) (link : Str) (db : Database)
    (cut : Option Nat) : Prop :=
  (tablesAfter (addLink server words link) db cut = db ∨
      Complete (tablesAfter (addLink server words link) db cut) words link) ∧
    tablesAfter (addLink server words link)
        (tablesAfter (addLink server words link) db cut) none =
      tablesAfter (addLink server words link) db none

theorem exec_addWords_stopped (server : Server) (link : Str) (words : List (Str × Nat))
    (c : Database) :
    (exec (addWords server link words >>= fun _ => commit) ⟨c, none, some 0⟩).2.committed = c := by
  cases words with
  | nil => simp [addWords, commit, exec_bind, exec_statement_zero]
  | cons word words => simp [addWords, addWord, query, exec_bind, exec_statement_zero]

/-- The URL is committed before the first word is looked at. -/
theorem tablesAfter_first_commit {server : Server} {words : StdMap Nat} {link : Str}
    {db db' : Database} (hf : findUrl server link db = .ok false) (hi : insertUrl link db = .ok db') :
    tablesAfter (addLink server words link) db (some 4) = db' := by
  have h := exec_addWords_stopped server link words.toList db'
  simpa [tablesAfter, addLink, query, beginWork, execParams, commit, exec_bind, exec_statement_succ,
    hf, hi] using h

theorem exec_addWords_nil (server : Server) (link : Str) (c : Database) (cut : Option Nat) :
    (exec (addWords server link [] >>= fun _ => commit) ⟨c, none, cut⟩).2.committed = c := by
  cases cut with
  | none => simp [addWords, commit, exec_bind, exec_statement_none]
  | some k =>
    cases k with
    | zero => simp [addWords, commit, exec_bind, exec_statement_zero]
    | succ k => simp [addWords, commit, exec_bind, exec_statement_succ]

theorem tablesAfter_no_words_full {server : Server} {words : StdMap Nat} {link : Str}
    {db db' : Database} (hw : words.toList = []) (hf : findUrl server link db = .ok false)
    (hi : insertUrl link db = .ok db') :
    tablesAfter (addLink server words link) db none = db' := by
  have h := exec_addWords_nil server link db' none
  simpa [tablesAfter, addLink, query, beginWork, execParams, commit, exec_bind,
    exec_statement_none, hf, hi, hw] using h

theorem tablesAfter_no_words {server : Server} {words : StdMap Nat} {link : Str}
    {db db' : Database} (hw : words.toList = []) (hf : findUrl server link db = .ok false)
    (hi : insertUrl link db = .ok db') (cut : Option Nat) :
    tablesAfter (addLink server words link) db cut = db ∨
      tablesAfter (addLink server words link) db cut = db' := by
  match cut with
  | none => exact .inr (tablesAfter_no_words_full hw hf hi)
  | some 0 | some 1 | some 2 | some 3 =>
    left
    simp [tablesAfter, addLink, query, beginWork, execParams, commit, exec_bind,
      exec_statement_succ, exec_statement_zero, hf, hi]
  | some (k + 4) =>
    right
    have h := exec_addWords_nil server link db' (some k)
    simpa [tablesAfter, addLink, query, beginWork, execParams, commit, exec_bind,
      exec_statement_succ, hf, hi, hw] using h

theorem tablesAfter_not_asked {server : Server} {words : StdMap Nat} {link : Str} {db : Database}
    (hf : findUrl server link db ≠ .ok false) (cut : Option Nat) :
    tablesAfter (addLink server words link) db cut = db := by
  have hstop : ∀ c (w : Option Database), c = db ∧ w = none → c = db := fun c w h => h.1
  have ht : Triple (Holds fun c w => c = db ∧ w = none) (addLink server words link)
      (fun _ s => s.committed = db) (Holds fun c _ => c = db) := by
    refine Triple.bind (query_triple hstop) fun found => ?_
    cases found with
    | true => exact Triple.pure fun s h => h.1.1
    | false =>
      rintro s ⟨hs, hq⟩
      exact absurd (hs.1 ▸ hq) hf
  exact tablesAfter_of_triple ht (fun _ _ h => h) ⟨rfl, rfl⟩ cut

theorem atomic_of_unchanged {server : Server} {words : StdMap Nat} {link : Str} {db : Database}
    {cut : Option Nat} (h : tablesAfter (addLink server words link) db cut = db) :
    AtomicAt server words link db cut := ⟨.inl h, by rw [h]⟩

theorem mem_after_insertUrl {url : Str} {db db' : Database} (h : insertUrl url db = .ok db') :
    url ∈ db'.urlTexts := by
  rw [urlTexts_insertUrl h]
  exact List.mem_append_right _ (List.mem_singleton_self url)

/-- Between the commit of the URL and the last word the work is half done. -/
theorem not_atomic_of_words {server : Server} {words : StdMap Nat} {link : Str} {db : Database}
    (hl : link ∉ db.urlTexts) (hw : words.toList ≠ []) (hf : findUrl server link db = .ok false) :
    ¬ AtomicAt server words link db (some 4) := by
  obtain ⟨db', hi⟩ := insertUrl_of_notMem hl
  rintro ⟨h, -⟩
  rw [tablesAfter_first_commit hf hi] at h
  obtain rfl | ⟨-, hrows⟩ := h
  · exact hl (mem_after_insertUrl hi)
  · obtain ⟨⟨k, v⟩, hkv⟩ := List.exists_mem_of_ne_nil _ hw
    obtain ⟨q, hs⟩ := hrows k v (Std.ExtTreeMap.mem_toList_iff_getElem?_eq_some.mp hkv)
    exact hl ((stored_insertUrl hi k link q).mp hs).url_mem

theorem atomic_of_no_words {server : Server} {words : StdMap Nat} {link : Str} {db : Database}
    (hw : words.toList = []) (cut : Option Nat) : AtomicAt server words link db cut := by
  by_cases hf : findUrl server link db = .ok false
  · by_cases hl : link ∈ db.urlTexts
    · exact atomic_of_unchanged (tablesAfter_of_mem hl cut)
    · obtain ⟨db', hi⟩ := insertUrl_of_notMem hl
      have hmem := mem_after_insertUrl hi
      obtain h | h := tablesAfter_no_words hw hf hi cut
      · exact atomic_of_unchanged h
      · refine ⟨.inr ⟨by rw [h]; exact hmem, fun k v hkv => ?_⟩, ?_⟩
        · have hin := Std.ExtTreeMap.mem_toList_iff_getElem?_eq_some.mpr hkv
          simp [hw] at hin
        · rw [h, tablesAfter_of_mem hmem, tablesAfter_no_words_full hw hf hi]
  · exact atomic_of_unchanged (tablesAfter_not_asked hf cut)

theorem addLink_atomic_iff (server : Server) (words : StdMap Nat) (link : Str) (db : Database) :
    (∀ cut, AtomicAt server words link db cut) ↔
      link ∈ db.urlTexts ∨ words = ∅ ∨ findUrl server link db ≠ .ok false := by
  apply Iff.intro
  · intro h
    by_contra hn
    push Not at hn
    obtain ⟨hl, hw, hf⟩ := hn
    exact not_atomic_of_words hl (mt Std.ExtTreeMap.toList_eq_nil_iff.mp hw) hf (h (some 4))
  · rintro (hl | hw | hf) cut
    · exact atomic_of_unchanged (tablesAfter_of_mem hl cut)
    · exact atomic_of_no_words (Std.ExtTreeMap.toList_eq_nil_iff.mpr hw) cut
    · exact atomic_of_unchanged (tablesAfter_not_asked hf cut)

theorem oneWord_toList : oneWord.toList ≠ [] := by decide

theorem half_indexed : ¬ ∀ (server : Server) (words : StdMap Nat) (link : Str) (db : Database)
    (cut : Option Nat), AtomicAt server words link db cut := by
  intro h
  have hq : quote ∉ str "http://a.b/" := by decide
  have hl : str "http://a.b/" ∉ Database.empty.urlTexts := by decide
  have hf : findUrl strict (str "http://a.b/") .empty = .ok false := by
    rw [findUrl_plain strict hq, decide_eq_false hl]
  exact not_atomic_of_words hl oneWord_toList hf (h strict oneWord _ _ _)

end SpiderSearch.IndexAtomic
