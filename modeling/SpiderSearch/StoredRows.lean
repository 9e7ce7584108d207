import SpiderSearch.Tables

namespace SpiderSearch.StoredRows

open CppTypes Tables

/-- The tables hold quantity `q` for the pair of keyword `k` and URL `u`. -/
def Stored (db : Database) (k u : Str) (q : Int) : Prop :=
  ∃ kr ∈ db.keywords, ∃ ur ∈ db.urls, ∃ r ∈ db.keywordUrsQty,
    kr.keyword = k ∧ ur.url = u ∧ r.idKeyword = kr.id ∧ r.idUrl = ur.id ∧ r.quantity = q

section Find

variable {α κ : Type} [DecidableEq κ] {f : α → κ} {rows : List α} {k : κ}

theorem find_row {r : α} (h : rows.find? (fun r => f r = k) = some r) : r ∈ rows ∧ f r = k :=
  ⟨List.mem_of_find?_eq_some h, by simpa using List.find?_some h⟩

theorem exists_row (h : k ∈ rows.map f) : ∃ r, rows.find? (fun r => f r = k) = some r := by
  obtain ⟨r, hr, rfl⟩ := List.mem_map.mp h
  exact Option.isSome_iff_exists.mp (List.find?_isSome.mpr ⟨r, hr, decide_eq_true rfl⟩)

end Find

theorem insertUrl_ok {url : Str} {db db' : Database} (h : insertUrl url db = .ok db') :
    url ∉ db.urlTexts ∧ db'.keywords = db.keywords ∧ db'.keywordUrsQty = db.keywordUrsQty ∧
      db'.urls = db.urls ++ [⟨nextId (db.urls.map UrlRow.id), url⟩] := by
  rw [insertUrl] at h
  split at h
  · cases h
  · cases h
    exact ⟨‹_›, rfl, rfl, rfl⟩

theorem insertKeyword_ok {keyword : Str} {db db' : Database}
    (h : insertKeyword keyword db = .ok db') :
    keyword ∉ db.keywordTexts ∧ db'.urls = db.urls ∧ db'.keywordUrsQty = db.keywordUrsQty ∧
      db'.keywords = db.keywords ++ [⟨nextId (db.keywords.map KeywordRow.id), keyword⟩] := by
  rw [insertKeyword] at h
  split at h
  · cases h
  · cases h
    exact ⟨‹_›, rfl, rfl, rfl⟩

theorem insertPair_ok {keyword link : Str} {value : Nat} {db db' : Database}
    (h : insertPair keyword link value db = .ok db') :
    db'.keywords = db.keywords ∧ db'.urls = db.urls ∧
      ∃ k ∈ db.keywords, ∃ u ∈ db.urls, k.keyword = keyword ∧ u.url = link ∧
        db'.keywordUrsQty = db.keywordUrsQty ++ [⟨k.id, u.id, value⟩] := by
  rw [insertPair] at h
  split at h
  next k u hk hu =>
    split at h
    · split at h
      · cases h
      · cases h
        obtain ⟨hkm, hke⟩ := find_row hk
        obtain ⟨hum, hue⟩ := find_row hu
        exact ⟨rfl, rfl, k, hkm, u, hum, hke, hue, rfl⟩
    · cases h
  · cases h

theorem keyword_row_eq (db : Database) {a b : KeywordRow} (ha : a ∈ db.keywords)
    (hb : b ∈ db.keywords) (h : a.id = b.id ∨ a.keyword = b.keyword) : a = b := by
  obtain h | h := h
  · exact List.inj_on_of_nodup_map db.keywordIds ha hb h
  · exact List.inj_on_of_nodup_map db.keywordUnique ha hb h

theorem url_row_eq (db : Database) {a b : UrlRow} (ha : a ∈ db.urls) (hb : b ∈ db.urls)
    (h : a.id = b.id ∨ a.url = b.url) : a = b := by
  obtain h | h := h
  · exact List.inj_on_of_nodup_map db.urlIds ha hb h
  · exact List.inj_on_of_nodup_map db.urlUnique ha hb h

/-- The constraints leave at most one quantity for a keyword and a URL. -/
theorem Stored.unique {db : Database} {k u : Str} {q q' : Int} (h : Stored db k u q)
    (h' : Stored db k u q') : q = q' := by
  obtain ⟨kr, hk, ur, hu, r, hr, rfl, rfl, h1, h2, rfl⟩ := h
  obtain ⟨kr', hk', ur', hu', r', hr', hke, hue, h1', h2', rfl⟩ := h'
  obtain rfl := keyword_row_eq db hk' hk (.inr hke)
  obtain rfl := url_row_eq db hu' hu (.inr hue)
  have hpair : r.pair = r'.pair := by simp [QtyRow.pair, h1, h2, h1', h2']
  rw [List.inj_on_of_nodup_map db.k_u hr hr' hpair]

theorem Stored.keyword_mem {db : Database} {k u : Str} {q : Int} (h : Stored db k u q) :
    k ∈ db.keywordTexts := by
  obtain ⟨kr, hk, ur, hu, r, hr, rfl, rfl, -⟩ := h
  exact List.mem_map_of_mem hk

theorem Stored.url_mem {db : Database} {k u : Str} {q : Int} (h : Stored db k u q) :
    u ∈ db.urlTexts := by
  obtain ⟨kr, hk, ur, hu, r, hr, rfl, rfl, -⟩ := h
  exact List.mem_map_of_mem hu

/-- A new URL comes without quantities: no row can refer to its fresh id. -/
theorem stored_insertUrl {url : Str} {db db' : Database} (h : insertUrl url db = .ok db')
    (k u : Str) (q : Int) : Stored db' k u q ↔ Stored db k u q := by
  obtain ⟨-, hk, hq, hu⟩ := insertUrl_ok h
  rw [Stored]
  rw [hk, hq, hu]
  apply Iff.intro
  · rintro ⟨kr, hkr, ur, hur, r, hr, hrest⟩
    obtain hur | hur := List.mem_append.mp hur
    · exact ⟨kr, hkr, ur, hur, r, hr, hrest⟩
    · obtain rfl := List.mem_singleton.mp hur
      have hid : r.idUrl = nextId (db.urls.map UrlRow.id) := hrest.2.2.2.1
      exact absurd (hid ▸ db.idUrlRefs r hr) (nextId_notMem _)
  · rintro ⟨kr, hkr, ur, hur, r, hr, hrest⟩
    exact ⟨kr, hkr, ur, List.mem_append_left _ hur, r, hr, hrest⟩

theorem stored_insertKeyword {keyword : Str} {db db' : Database}
    (h : insertKeyword keyword db = .ok db') (k u : Str) (q : Int) :
    Stored db' k u q ↔ Stored db k u q := by
  obtain ⟨-, hu, hq, hk⟩ := insertKeyword_ok h
  rw [Stored]
  rw [hk, hq, hu]
  apply Iff.intro
  · rintro ⟨kr, hkr, ur, hur, r, hr, hrest⟩
    obtain hkr | hkr := List.mem_append.mp hkr
    · exact ⟨kr, hkr, ur, hur, r, hr, hrest⟩
    · obtain rfl := List.mem_singleton.mp hkr
      have hid : r.idKeyword = nextId (db.keywords.map KeywordRow.id) := hrest.2.2.1
      exact absurd (hid ▸ db.idKeywordRefs r hr) (nextId_notMem _)
  · rintro ⟨kr, hkr, ur, hur, r, hr, hrest⟩
    exact ⟨kr, List.mem_append_left _ hkr, ur, hur, r, hr, hrest⟩

theorem stored_insertPair {keyword link : Str} {value : Nat} {db db' : Database}
    (h : insertPair keyword link value db = .ok db') (k u : Str) (q : Int) :
    Stored db' k u q ↔ Stored db k u q ∨ (k = keyword ∧ u = link ∧ q = value) := by
  obtain ⟨hk, hu, kn, hkn, un, hun, rfl, rfl, hq⟩ := insertPair_ok h
  rw [Stored]
  rw [hk, hu, hq]
  apply Iff.intro
  · rintro ⟨kr, hkr, ur, hur, r, hr, hk', hu', hik, hiu, hrq⟩
    obtain hr | hr := List.mem_append.mp hr
    · exact .inl ⟨kr, hkr, ur, hur, r, hr, hk', hu', hik, hiu, hrq⟩
    · obtain rfl := List.mem_singleton.mp hr
      obtain rfl := keyword_row_eq db hkn hkr (.inl hik)
      obtain rfl := url_row_eq db hun hur (.inl hiu)
      exact .inr ⟨hk'.symm, hu'.symm, hrq.symm⟩
  · rintro (⟨kr, hkr, ur, hur, r, hr, hrest⟩ | ⟨rfl, rfl, rfl⟩)
    · exact ⟨kr, hkr, ur, hur, r, List.mem_append_left _ hr, hrest⟩
    · exact ⟨kn, hkn, un, hun, _, List.mem_append_right _ (List.mem_singleton_self _),
        rfl, rfl, rfl, rfl, rfl⟩

theorem insertUrl_of_notMem {url : Str} {db : Database} (h : url ∉ db.urlTexts) :
    ∃ db', insertUrl url db = .ok db' := by
  rw [insertUrl]
  rw [dif_neg h]
  exact ⟨_, rfl⟩

theorem insertKeyword_of_notMem {keyword : Str} {db : Database} (h : keyword ∉ db.keywordTexts) :
    ∃ db', insertKeyword keyword db = .ok db' := by
  rw [insertKeyword]
  rw [dif_neg h]
  exact ⟨_, rfl⟩

theorem keywordRow_some {db : Database} {k : Str} {kr : KeywordRow} (h : keywordRow db k = some kr) :
    kr ∈ db.keywords ∧ kr.keyword = k := find_row h

theorem urlRow_some {db : Database} {u : Str} {ur : UrlRow} (h : urlRow db u = some ur) :
    ur ∈ db.urls ∧ ur.url = u := find_row h

/-- Between a stored keyword and a stored URL a quantity is accepted once. -/
theorem insertPair_of_notStored {keyword link : Str} {value : Nat} {db : Database}
    (hk : keyword ∈ db.keywordTexts) (hu : link ∈ db.urlTexts) (hv : (value : Int) ≤ intMax)
    (hs : ∀ q, ¬ Stored db keyword link q) : ∃ db', insertPair keyword link value db = .ok db' := by
  obtain ⟨k, hkr⟩ : ∃ k, keywordRow db keyword = some k := exists_row hk
  obtain ⟨u, hur⟩ : ∃ u, urlRow db link = some u := exists_row hu
  obtain ⟨hkm, hke⟩ := keywordRow_some hkr
  obtain ⟨hum, hue⟩ := urlRow_some hur
  have hp : QtyRow.pair ⟨k.id, u.id, value⟩ ∉ db.keywordUrsQty.map QtyRow.pair := by
    intro hp
    obtain ⟨r, hr, he⟩ := List.mem_map.mp hp
    have hids : r.idKeyword = k.id ∧ r.idUrl = u.id := by simpa [QtyRow.pair] using he
    exact hs r.quantity ⟨k, hkm, u, hum, r, hr, hke, hue, hids.1, hids.2, rfl⟩
  rw [insertPair]
  split
  next k' u' hk' hu' =>
    obtain rfl := Option.some.inj (hk'.symm.trans hkr)
    obtain rfl := Option.some.inj (hu'.symm.trans hur)
    rw [dif_pos hv, dif_neg hp]
    exact ⟨_, rfl⟩
  next h => exact absurd hur (h k u hkr)

theorem urlTexts_insertUrl {url : Str} {db db' : Database} (h : insertUrl url db = .ok db') :
    db'.urlTexts = db.urlTexts ++ [url] := by
  obtain ⟨-, -, -, hu⟩ := insertUrl_ok h
  simp [Database.urlTexts, hu]

theorem keywordTexts_insertKeyword {keyword : Str} {db db' : Database}
    (h : insertKeyword keyword db = .ok db') : db'.keywordTexts = db.keywordTexts ++ [keyword] := by
  obtain ⟨-, -, -, hk⟩ := insertKeyword_ok h
  simp [Database.keywordTexts, hk]

theorem urlTexts_insertKeyword {keyword : Str} {db db' : Database}
    (h : insertKeyword keyword db = .ok db') : db'.urlTexts = db.urlTexts := by
  rw [Database.urlTexts, (insertKeyword_ok h).2.1, Database.urlTexts]

theorem urlTexts_insertPair {keyword link : Str} {value : Nat} {db db' : Database}
    (h : insertPair keyword link value db = .ok db') : db'.urlTexts = db.urlTexts := by
  rw [Database.urlTexts, (insertPair_ok h).2.1, Database.urlTexts]

end SpiderSearch.StoredRows
