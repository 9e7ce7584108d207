import SpiderSearch.AddLink

namespace SpiderSearch.IndexTruth

open CppTypes Tables StoredRows Triples DbSession DbClient AddLink SqlText

variable {server : Server}

/-- A call of `addLink`, cut off after `cut` statements. -/
structure Call where
  words : StdMap Nat
  link : Str
  cut : Option Nat

structure Call.Valid (c : Call) : Prop where
  link : quote ∉ c.link
  words : ∀ (k : Str) (v : Nat), c.words[k]? = some v → k.all isAlpha = true ∧ (v : Int) ≤ intMax

def Call.run (server : Server) (db : Database) (c : Call) : Database :=
  tablesAfter (addLink server c.words c.link) db c.cut

def runCalls (server : Server) (calls : List Call) : Database :=
  calls.foldl (Call.run server) .empty

/-- After the calls of `before`, the call `c` is the one that inserts its URL. -/
def Inserts (server : Server) (before : List Call) (c : Call) : Prop :=
  c.link ∉ (runCalls server before).urlTexts ∧ c.link ∈ (runCalls server (before ++ [c])).urlTexts

def Uncut (server : Server) (before : List Call) (c : Call) : Prop :=
  c.cut = none ∨ completes (addLink server c.words c.link) (runCalls server before) c.cut = true

structure Truthful (server : Server) (calls : List Call) (db : Database) : Prop where
  keywords : db.keywordTexts.Nodup
  urls : db.urlTexts.Nodup
  refs : ∀ r ∈ db.keywordUrsQty, (∃ k ∈ db.keywords, k.id = r.idKeyword) ∧ ∃ u ∈ db.urls, u.id = r.idUrl
  inserted : ∀ u ∈ db.urlTexts, ∃ before c after, calls = before ++ c :: after ∧
    Inserts server before c ∧ c.link = u
  counts : ∀ before c after, calls = before ++ c :: after → Inserts server before c →
    ∀ k m q, getUrl db k = .ok m → m[c.link]? = some q → ∃ v, c.words[k]? = some v ∧ q = v
  complete : ∀ before c after, calls = before ++ c :: after → Inserts server before c →
    Uncut server before c → ∀ (k : Str) (v : Nat), c.words[k]? = some v →
      ∃ m, getUrl db k = .ok m ∧ m[c.link]? = some (v : Int)
  repeated : ∀ before c after, calls = before ++ c :: after →
    c.link ∈ (runCalls server before).urlTexts →
      runCalls server (before ++ [c]) = runCalls server before

theorem quote_notMem_of_letters {k : Str} (h : k.all isAlpha = true) : quote ∉ k := by
  intro hq
  have hn : isAlpha quote = false := by decide
  rw [List.all_eq_true.mp h quote hq] at hn
  cases hn

theorem runCalls_concat (before : List Call) (c : Call) :
    runCalls server (before ++ [c]) = c.run server (runCalls server before) := by
  simp [runCalls]

theorem runCalls_append_cons (before after : List Call) (c : Call) :
    runCalls server (before ++ c :: after) =
      after.foldl (Call.run server) (runCalls server (before ++ [c])) := by
  simp [runCalls]

theorem run_partly (server : Server) (db : Database) (c : Call) :
    Partly db c.link c.words.toList (c.run server db) :=
  tablesAfter_partly server c.words c.link db c.cut

/-- What is stored for a URL does not change once the URL is there. -/
theorem run_frame (server : Server) {db : Database} {u : Str} (h : u ∈ db.urlTexts) (c : Call) :
    u ∈ (c.run server db).urlTexts ∧
      ∀ k q, Stored (c.run server db) k u q ↔ Stored db k u q := by
  by_cases hc : c.link ∈ db.urlTexts
  · rw [show c.run server db = db from tablesAfter_of_mem hc c.cut]
    exact ⟨h, fun _ _ => Iff.rfl⟩
  · obtain he | ⟨done, -, hf⟩ := run_partly server db c
    · rw [he]
      exact ⟨h, fun _ _ => Iff.rfl⟩
    · refine ⟨by rw [hf.urls]; exact List.mem_append_left _ h, fun k q => ?_⟩
      have hne : u ≠ c.link := fun he => hc (he ▸ h)
      rw [hf.stored]
      simp [hne]

theorem foldl_frame {db : Database} {u : Str} (h : u ∈ db.urlTexts) (calls : List Call) :
    u ∈ (calls.foldl (Call.run server) db).urlTexts ∧
      ∀ k q, Stored (calls.foldl (Call.run server) db) k u q ↔ Stored db k u q := by
  induction calls generalizing db with
  | nil => exact ⟨h, fun _ _ => Iff.rfl⟩
  | cons c calls ih =>
    obtain ⟨hu, hs⟩ := run_frame server h c
    obtain ⟨hu', hs'⟩ := ih hu
    exact ⟨hu', fun k q => (hs' k q).trans (hs k q)⟩

theorem Inserts.filled {before : List Call} {c : Call} (h : Inserts server before c) :
    ∃ done, done <+: c.words.toList ∧
      Filled (runCalls server before) c.link done (runCalls server (before ++ [c])) := by
  rw [runCalls_concat]
  obtain he | hf := run_partly server (runCalls server before) c
  · have hin := h.2
    rw [runCalls_concat, he] at hin
    exact absurd hin h.1
  · exact hf

theorem Inserts.stored_iff {calls before after : List Call} {c : Call} (h : Inserts server before c)
    (hc : calls = before ++ c :: after) (k : Str) (q : Int) :
    Stored (runCalls server calls) k c.link q ↔
      Stored (runCalls server (before ++ [c])) k c.link q := by
  rw [hc, runCalls_append_cons]
  exact (foldl_frame h.2 after).2 k q

theorem stored_of_inserts {before : List Call} {c : Call} (h : Inserts server before c) {k : Str}
    {q : Int} (hs : Stored (runCalls server (before ++ [c])) k c.link q) :
    ∃ v, c.words[k]? = some v ∧ q = v := by
  obtain ⟨done, hd, hf⟩ := h.filled
  obtain hs | ⟨-, v, hv, hq⟩ := (hf.stored k c.link q).mp hs
  · exact absurd hs.url_mem h.1
  · exact ⟨v, Std.ExtTreeMap.mem_toList_iff_getElem?_eq_some.mp (hd.subset hv), hq⟩

theorem addWord_uncut (server : Server) {link key : Str} {value : Nat} {db : Database} (hk : quote ∉ key)
    (hu : link ∈ db.urlTexts) (hv : (value : Int) ≤ intMax) (hs : ∀ q, ¬ Stored db key link q) :
    ∃ db', exec (addWord server link key value) ⟨db, none, none⟩ = (.ok (), ⟨db', none, none⟩) ∧
      link ∈ db'.urlTexts ∧
      ∀ k u q, Stored db' k u q ↔ Stored db k u q ∨ (k = key ∧ u = link ∧ q = value) := by
  have hf := exec_query_uncut (findKeyword_plain server hk db) none
  by_cases hm : key ∈ db.keywordTexts
  · obtain ⟨db', hp⟩ := insertPair_of_notStored hm hu hv hs
    refine ⟨db', ?_, by rw [urlTexts_insertPair hp]; exact hu, stored_insertPair hp⟩
    simp [addWord, exec_bind, hf, hm, exec_execParams_uncut hp]
  · obtain ⟨db₁, hi⟩ := insertKeyword_of_notMem hm
    have hm₁ : key ∈ db₁.keywordTexts := by simp [keywordTexts_insertKeyword hi]
    have hu₁ : link ∈ db₁.urlTexts := by rwa [urlTexts_insertKeyword hi]
    have hs₁ : ∀ q, ¬ Stored db₁ key link q := fun q h => hs q ((stored_insertKeyword hi _ _ q).mp h)
    obtain ⟨db', hp⟩ := insertPair_of_notStored hm₁ hu₁ hv hs₁
    refine ⟨db', ?_, by rw [urlTexts_insertPair hp]; exact hu₁, fun k u q => ?_⟩
    · simp [addWord, exec_bind, hf, hm, exec_execParams_uncut hi, exec_commit_uncut,
        exec_execParams_uncut hp]
    · rw [stored_insertPair hp, stored_insertKeyword hi]

theorem addWords_uncut (server : Server) {link : Str} {words : List (Str × Nat)} {db : Database}
    (hw : ∀ w ∈ words, quote ∉ w.1 ∧ (w.2 : Int) ≤ intMax) (hn : (words.map Prod.fst).Nodup)
    (hu : link ∈ db.urlTexts) (hs : ∀ w ∈ words, ∀ q, ¬ Stored db w.1 link q) :
    ∃ db', exec (addWords server link words) ⟨db, none, none⟩ = (.ok (), ⟨db', none, none⟩) := by
  induction words generalizing db with
  | nil => exact ⟨db, rfl⟩
  | cons w words ih =>
    obtain ⟨key, value⟩ := w
    rw [List.map_cons, List.nodup_cons] at hn
    obtain ⟨hk, hv⟩ := hw _ List.mem_cons_self
    obtain ⟨db₁, hx, hu₁, hs₁⟩ :=
      addWord_uncut server hk hu hv (hs _ List.mem_cons_self)
    have hrest : ∀ w ∈ words, ∀ q, ¬ Stored db₁ w.1 link q := by
      intro w hwm q hq
      obtain hq | ⟨he, -⟩ := (hs₁ w.1 link q).mp hq
      · exact hs w (List.mem_cons_of_mem _ hwm) q hq
      · exact hn.1 (List.mem_map.mpr ⟨w, hwm, he⟩)
    obtain ⟨db', hx'⟩ := ih (fun w hwm => hw w (List.mem_cons_of_mem _ hwm)) hn.2 hu₁ hrest
    exact ⟨db', by simp [addWords, exec_bind, hx, hx']⟩

theorem completes_uncut (server : Server) {c : Call} (h : c.Valid) (db : Database) :
    completes (addLink server c.words c.link) db none = true := by
  have hf := exec_query_uncut (findUrl_plain server h.link db) none
  by_cases hm : c.link ∈ db.urlTexts
  · simp [completes, addLink, exec_bind, hf, hm]
  · obtain ⟨db₁, hi⟩ := insertUrl_of_notMem hm
    have hu : c.link ∈ db₁.urlTexts := by simp [urlTexts_insertUrl hi]
    have hs : ∀ w ∈ c.words.toList, ∀ q, ¬ Stored db₁ w.1 c.link q := fun w _ q hq =>
      hm ((stored_insertUrl hi _ _ q).mp hq).url_mem
    have hw : ∀ w ∈ c.words.toList, quote ∉ w.1 ∧ (w.2 : Int) ≤ intMax := by
      intro w hw
      obtain ⟨hl, hv⟩ := h.words w.1 w.2 (Std.ExtTreeMap.mem_toList_iff_getElem?_eq_some.mp hw)
      exact ⟨quote_notMem_of_letters hl, hv⟩
    have hn : (c.words.toList.map Prod.fst).Nodup := by
      rw [Std.ExtTreeMap.map_fst_toList_eq_keys]
      exact Std.ExtTreeMap.nodup_keys
    obtain ⟨db', hx⟩ := addWords_uncut server hw hn hu hs
    simp [completes, addLink, beginWork, execParams, commit, exec_bind, hf, hm, hi, hx]

theorem Uncut.stored {before : List Call} {c : Call} (hv : c.Valid) (h : Inserts server before c)
    (hc : Uncut server before c) {k : Str} {v : Nat} (hk : c.words[k]? = some v) :
    Stored (runCalls server (before ++ [c])) k c.link v := by
  have hdone : completes (addLink server c.words c.link) (runCalls server before) c.cut = true := by
    obtain hc | hc := hc
    · rw [hc]
      exact completes_uncut server hv _
    · exact hc
  rw [runCalls_concat]
  obtain ⟨hf, -⟩ | hf := tablesAfter_complete hdone
  · rw [findUrl_plain server hv.link] at hf
    exact absurd (of_decide_eq_true (Except.ok.inj hf)) h.1
  · exact (hf.stored k c.link v).mpr
      (.inr ⟨rfl, v, Std.ExtTreeMap.mem_toList_iff_getElem?_eq_some.mpr hk, rfl⟩)

theorem inserted_by (calls : List Call) {u : Str} (h : u ∈ (runCalls server calls).urlTexts) :
    ∃ before c after, calls = before ++ c :: after ∧ Inserts server before c ∧ c.link = u := by
  induction calls using List.reverseRecOn with
  | nil => cases h
  | append_singleton calls c ih =>
    by_cases hold : u ∈ (runCalls server calls).urlTexts
    · obtain ⟨before, c', after, rfl, hi⟩ := ih hold
      exact ⟨before, c', after ++ [c], by simp, hi⟩
    · have hu : c.link = u := by
        have hnew := h
        rw [runCalls_concat] at hnew
        obtain he | ⟨done, -, hf⟩ := run_partly server (runCalls server calls) c
        · rw [he] at hnew
          exact absurd hnew hold
        · rw [hf.urls] at hnew
          obtain hnew | hnew := List.mem_append.mp hnew
          · exact absurd hnew hold
          · exact (List.mem_singleton.mp hnew).symm
      subst hu
      exact ⟨calls, c, [], rfl, ⟨hold, h⟩, rfl⟩

theorem Call.Valid.insert {words : StdMap Nat} {link : Str} {cut : Option Nat}
    (h : Call.Valid ⟨words, link, cut⟩) {key : Str} {value : Nat} (hk : key.all isAlpha = true)
    (hv : (value : Int) ≤ intMax) : Call.Valid ⟨words.insert key value, link, cut⟩ := by
  refine ⟨h.link, fun k v hw => ?_⟩
  have hw' : (words.insert key value)[k]? = some v := hw
  rw [Std.ExtTreeMap.getElem?_insert] at hw'
  split at hw'
  next he =>
    obtain rfl := Std.compare_eq_iff_eq.mp he
    cases hw'
    exact ⟨hk, hv⟩
  · exact h.words k v hw'

theorem oneWord_valid {link : Str} (hl : quote ∉ link) (cut : Option Nat) :
    Call.Valid ⟨oneWord, link, cut⟩ := by
  have hempty : Call.Valid ⟨∅, link, cut⟩ := ⟨hl, fun k v h => by simp at h⟩
  exact hempty.insert (by decide) (by decide)

def twoWords : StdMap Nat := oneWord.insert (str "robot") 3

theorem twoWords_valid {link : Str} (hl : quote ∉ link) (cut : Option Nat) :
    Call.Valid ⟨twoWords, link, cut⟩ :=
  (oneWord_valid hl cut).insert (by decide) (by decide)

/-- The word of this call is not stored. -/
def cutCall : Call := ⟨oneWord, str "http://a.b/", some 5⟩

def uncutCall : Call := ⟨twoWords, str "http://a.b/c", none⟩

/-- The URL of `uncutCall` with another map. -/
def lateCall : Call := ⟨oneWord, str "http://a.b/c", none⟩

theorem index_never_lies (server : Server) (calls : List Call) (hv : ∀ c ∈ calls, c.Valid) :
    Truthful server calls (runCalls server calls) where
  keywords := (runCalls server calls).keywordUnique
  urls := (runCalls server calls).urlUnique
  refs r hr := ⟨List.mem_map.mp ((runCalls server calls).idKeywordRefs r hr),
    List.mem_map.mp ((runCalls server calls).idUrlRefs r hr)⟩
  inserted _ hu := inserted_by calls hu
  counts before c after hc hi k m q hm hq := by
    obtain ⟨m', hm', hspec⟩ := getUrl_spec (runCalls server calls) k
    obtain rfl := Except.ok.inj (hm.symm.trans hm')
    exact stored_of_inserts hi ((hi.stored_iff hc k q).mp ((hspec c.link q).mp hq))
  complete before c after hc hi hu k v hk := by
    obtain ⟨m, hm, hspec⟩ := getUrl_spec (runCalls server calls) k
    have hcv := hv c (by simp [hc])
    exact ⟨m, hm, (hspec c.link v).mpr ((hi.stored_iff hc k v).mpr (hu.stored hcv hi hk))⟩
  repeated before c after hc hm := by
    rw [runCalls_concat]
    exact tablesAfter_of_mem hm c.cut

theorem threeCalls_truthful :
    (∀ c ∈ [cutCall, uncutCall, lateCall], c.Valid) ∧
    Truthful strict [cutCall, uncutCall, lateCall] (runCalls strict [cutCall, uncutCall, lateCall]) ∧
    (runCalls strict [cutCall, uncutCall, lateCall]).urlTexts = [cutCall.link, uncutCall.link] ∧
    (∃ m, getUrl (runCalls strict [cutCall, uncutCall, lateCall]) (str "robot") = .ok m ∧
      m[cutCall.link]? = none ∧ m[uncutCall.link]? = some 3) ∧
    runCalls strict [cutCall, uncutCall, lateCall] = runCalls strict [cutCall, uncutCall] := by
  have hq : quote ∉ str "http://a.b/" := by decide
  have hqc : quote ∉ str "http://a.b/c" := by decide
  have hv : ∀ c ∈ [cutCall, uncutCall, lateCall], c.Valid := by
    simp [cutCall, uncutCall, lateCall, oneWord_valid hq, oneWord_valid hqc, twoWords_valid hqc]
  have ht := index_never_lies strict [cutCall, uncutCall, lateCall] hv
  have hcut : Inserts strict [] cutCall := ⟨by decide +kernel, by decide +kernel⟩
  have huncut : Inserts strict [cutCall] uncutCall := ⟨by decide +kernel, by decide +kernel⟩
  have hrobot : twoWords[str "robot"]? = some 3 := by decide
  have hnone : oneWord[str "robot"]? = none := by decide
  obtain ⟨m, hm, hc⟩ := ht.complete [cutCall] uncutCall [lateCall] rfl huncut (.inl rfl)
    (str "robot") 3 hrobot
  refine ⟨hv, ht, by decide +kernel, ⟨m, hm, ?_, hc⟩, ?_⟩
  · by_contra hn
    obtain ⟨q, hq⟩ := Option.ne_none_iff_exists'.mp hn
    obtain ⟨v, hv, -⟩ := ht.counts [] cutCall [uncutCall, lateCall] rfl hcut (str "robot") m q hm hq
    cases hnone.symm.trans hv
  · exact ht.repeated [cutCall, uncutCall] lateCall [] rfl (by decide +kernel)
end SpiderSearch.IndexTruth
