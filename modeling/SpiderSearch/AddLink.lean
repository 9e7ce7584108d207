import SpiderSearch.DbClient

namespace SpiderSearch.AddLink

open CppTypes Tables StoredRows Triples DbSession DbClient

variable {server : Server}

/-- `db` is `db₀` with the URL `link` and the words of `done` on it. -/
structure Filled (db₀ : Database) (link : Str) (done : List (Str × Nat)) (db : Database) : Prop where
  urls : db.urlTexts = db₀.urlTexts ++ [link]
  stored : ∀ k u q, Stored db k u q ↔ Stored db₀ k u q ∨ u = link ∧ ∃ v : Nat, (k, v) ∈ done ∧ q = v

theorem filled_insertUrl {db₀ db : Database} {link : Str} (h : insertUrl link db₀ = .ok db) :
    Filled db₀ link [] db :=
  ⟨urlTexts_insertUrl h, fun k u q => by simpa using stored_insertUrl h k u q⟩

theorem Filled.insertKeyword {db₀ db db' : Database} {link key : Str} {done : List (Str × Nat)}
    (hf : Filled db₀ link done db) (h : insertKeyword key db = .ok db') :
    Filled db₀ link done db' :=
  ⟨(urlTexts_insertKeyword h).trans hf.urls,
    fun k u q => (stored_insertKeyword h k u q).trans (hf.stored k u q)⟩

theorem Filled.insertPair {db₀ db db' : Database} {link key : Str} {value : Nat}
    {done : List (Str × Nat)} (hf : Filled db₀ link done db)
    (h : insertPair key link value db = .ok db') :
    Filled db₀ link (done ++ [(key, value)]) db' := by
  refine ⟨(urlTexts_insertPair h).trans hf.urls, fun k u q => ?_⟩
  rw [stored_insertPair h, hf.stored, or_assoc]
  refine or_congr_right ?_
  apply Iff.intro
  · rintro (⟨hu, v, hv, hq⟩ | ⟨hk, hu, hq⟩)
    · exact ⟨hu, v, List.mem_append_left _ hv, hq⟩
    · exact ⟨hu, value, by simp [hk], hq⟩
  · rintro ⟨hu, v, hv, hq⟩
    obtain hv | hv := List.mem_append.mp hv
    · exact .inl ⟨hu, v, hv, hq⟩
    · cases List.mem_singleton.mp hv
      exact .inr ⟨rfl, hu, hq⟩

/-- What a call leaves behind wherever it is cut off: nothing, or the URL and some first part
of the words. -/
def Partly (db₀ : Database) (link : Str) (words : List (Str × Nat)) (db : Database) : Prop :=
  db = db₀ ∨ ∃ done, done <+: words ∧ Filled db₀ link done db

theorem addWord_triple {db₀ : Database} {link key : Str} {value : Nat}
    {done words : List (Str × Nat)} (hd : done <+: words) :
    Triple (Holds fun c w => w = none ∧ Filled db₀ link done c) (addWord server link key value)
      (fun _ => Holds fun c w => w = none ∧ Filled db₀ link (done ++ [(key, value)]) c)
      (Holds fun c _ => Partly db₀ link words c) := by
  have hstop : ∀ c (w : Option Database), w = none ∧ Filled db₀ link done c →
      Partly db₀ link words c := fun c w h => .inr ⟨done, hd, h.2⟩
  have hpair : Triple (Holds fun c w => w = none ∧ Filled db₀ link done c)
      (execParams (insertPair key link value))
      (fun _ => Holds fun c w => w = none ∧ Filled db₀ link (done ++ [(key, value)]) c)
      (Holds fun c _ => Partly db₀ link words c) :=
    execParams_triple hstop (fun c w db h => by cases h.1) (fun c db h hi => ⟨rfl, h.2.insertPair hi⟩)
  refine Triple.bind (Q := fun _ => Holds fun c w => w = none ∧ Filled db₀ link done c)
    ((query_triple hstop).consequence (fun _ h => h) (fun _ _ h => h.1) fun _ h => h) fun found => ?_
  cases found with
  | true => exact hpair
  | false =>
    have hkey := execParams_triple (f := insertKeyword key)
      (Q := fun c w => w = none ∧ Filled db₀ link done c) hstop (fun c w db h => by cases h.1)
      (fun c db h hi => ⟨rfl, h.2.insertKeyword hi⟩)
    have hcommit := commit_triple (Q := fun c w => w = none ∧ Filled db₀ link done c) hstop
      (fun c w h => by cases h.1; exact ⟨rfl, h.2⟩)
    exact Triple.bind hkey fun _ => Triple.bind hcommit fun _ => hpair

theorem addWords_triple {db₀ : Database} {link : Str} {done rest words : List (Str × Nat)}
    (hd : done ++ rest = words) :
    Triple (Holds fun c w => w = none ∧ Filled db₀ link done c) (addWords server link rest)
      (fun _ => Holds fun c w => w = none ∧ Filled db₀ link words c)
      (Holds fun c _ => Partly db₀ link words c) := by
  induction rest generalizing done with
  | nil =>
    rw [List.append_nil] at hd
    subst hd
    exact Triple.pure fun _ h => h
  | cons word rest ih =>
    obtain ⟨key, value⟩ := word
    have hd' : done ++ [(key, value)] ++ rest = words := by simpa using hd
    exact Triple.bind (addWord_triple ⟨_, hd⟩) fun _ => ih hd'

theorem addLink_triple (words : StdMap Nat) (link : Str) (db : Database) :
    Triple (Holds fun c w => c = db ∧ w = none) (addLink server words link)
      (fun _ s => (findUrl server link db = .ok true ∧ s.committed = db) ∨
        Filled db link words.toList s.committed)
      (Holds fun c _ => Partly db link words.toList c) := by
  have hstop : ∀ c (w : Option Database), c = db ∧ w = none → Partly db link words.toList c :=
    fun c w h => .inl h.1
  refine Triple.bind (query_triple hstop) fun found => ?_
  cases found with
  | true => exact Triple.pure fun s ⟨hs, hq⟩ => .inl ⟨by rw [← hs.1]; exact hq, hs.1⟩
  | false =>
    have hbegin := beginWork_triple (P := fun c w => c = db ∧ w = none) hstop
      (Q := fun c w => c = db ∧ w = some db) (fun c w h => by simp [h.1])
    have hinsert := execParams_triple (P := fun c w => c = db ∧ w = some db)
      (f := insertUrl link) (E := fun c _ => Partly db link words.toList c)
      (Q := fun c w => c = db ∧ ∃ db', w = some db' ∧ insertUrl link db = .ok db')
      (fun c w h => .inl h.1) (fun c w db' h hi => ⟨h.1, db', rfl, by cases h.2; exact hi⟩)
      (fun c db' h => by cases h.2)
    have hcommit := commit_triple
      (P := fun c w => c = db ∧ ∃ db', w = some db' ∧ insertUrl link db = .ok db')
      (E := fun c _ => Partly db link words.toList c)
      (Q := fun c w => w = none ∧ Filled db link [] c) (fun c w h => .inl h.1)
      (fun c w h => by
        obtain ⟨-, db', rfl, hi⟩ := h
        exact ⟨rfl, filled_insertUrl hi⟩)
    have hlast := commit_triple (P := fun c w => w = none ∧ Filled db link words.toList c)
      (E := fun c _ => Partly db link words.toList c)
      (Q := fun c _ => Filled db link words.toList c)
      (fun c w h => .inr ⟨_, List.prefix_rfl, h.2⟩)
      (fun c w h => by cases h.1; exact h.2)
    have hwords : Triple (Holds fun c w => w = none ∧ Filled db link [] c)
        (addWords server link words.toList)
        (fun _ => Holds fun c w => w = none ∧ Filled db link words.toList c)
        (Holds fun c _ => Partly db link words.toList c) :=
      addWords_triple (List.nil_append words.toList)
    have hall := Triple.bind hbegin fun _ => Triple.bind hinsert fun _ => Triple.bind hcommit
      fun _ => Triple.bind hwords fun _ => hlast
    exact hall.consequence (fun _ h => h.1) (fun _ _ h => .inr h) fun _ h => h

/-- Wherever a call is cut off it leaves the tables as they were, or the URL with some first
part of the words. -/
theorem tablesAfter_partly (server : Server) (words : StdMap Nat) (link : Str) (db : Database)
    (cut : Option Nat) : Partly db link words.toList (tablesAfter (addLink server words link) db cut) := by
  refine tablesAfter_of_triple (addLink_triple words link db) (fun _ s h => ?_) ⟨rfl, rfl⟩ cut
  obtain ⟨-, h⟩ | h := h
  · exact .inl h
  · exact .inr ⟨_, List.prefix_rfl, h⟩

theorem tablesAfter_complete {words : StdMap Nat} {link : Str} {db : Database} {cut : Option Nat}
    (h : completes (addLink server words link) db cut = true) :
    (findUrl server link db = .ok true ∧ tablesAfter (addLink server words link) db cut = db) ∨
      Filled db link words.toList (tablesAfter (addLink server words link) db cut) :=
  tablesAfter_of_completes
    (R := fun t => (findUrl server link db = .ok true ∧ t = db) ∨ Filled db link words.toList t)
    (addLink_triple words link db) (fun _ _ h => h) ⟨rfl, rfl⟩ h

theorem tablesAfter_of_mem {words : StdMap Nat} {link : Str} {db : Database}
    (h : link ∈ db.urlTexts) (cut : Option Nat) :
    tablesAfter (addLink server words link) db cut = db := by
  obtain he | ⟨done, -, hf⟩ := tablesAfter_partly server words link db cut
  · exact he
  · have hn := (tablesAfter (addLink server words link) db cut).urlUnique
    rw [← Database.urlTexts, hf.urls, List.nodup_append] at hn
    exact absurd rfl (hn.2.2 link h link (List.mem_singleton_self link))

def oneWord : StdMap Nat := (∅ : StdMap Nat).insert (str "spider") 2

end SpiderSearch.AddLink
