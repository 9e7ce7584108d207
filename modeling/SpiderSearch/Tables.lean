import Mathlib.Data.List.Nodup
import SpiderSearch.CppTypes

namespace SpiderSearch.Tables

open CppTypes

structure KeywordRow where
  id : Nat
  keyword : Str
  deriving DecidableEq

structure UrlRow where
  id : Nat
  url : Str
  deriving DecidableEq

structure QtyRow where
  idKeyword : Nat
  idUrl : Nat
  quantity : Int
  deriving DecidableEq

def QtyRow.pair (r : QtyRow) : Nat × Nat := (r.idKeyword, r.idUrl)

inductive SqlError where
  | syntaxError
  | uniqueViolation
  | notNullViolation
  | outOfRange
  | stopped
  deriving DecidableEq

/-- The three tables with the constraints of their `CREATE TABLE` statements. -/
structure Database where
  keywords : List KeywordRow
  urls : List UrlRow
  keywordUrsQty : List QtyRow
  keywordIds : (keywords.map KeywordRow.id).Nodup
  keywordUnique : (keywords.map KeywordRow.keyword).Nodup
  urlIds : (urls.map UrlRow.id).Nodup
  urlUnique : (urls.map UrlRow.url).Nodup
  k_u : (keywordUrsQty.map QtyRow.pair).Nodup
  idKeywordRefs : ∀ r ∈ keywordUrsQty, r.idKeyword ∈ keywords.map KeywordRow.id
  idUrlRefs : ∀ r ∈ keywordUrsQty, r.idUrl ∈ urls.map UrlRow.id
  quantityRange : ∀ r ∈ keywordUrsQty, intMin ≤ r.quantity ∧ r.quantity ≤ intMax
  deriving DecidableEq

def Database.empty : Database where
  keywords := []
  urls := []
  keywordUrsQty := []
  keywordIds := List.nodup_nil
  keywordUnique := List.nodup_nil
  urlIds := List.nodup_nil
  urlUnique := List.nodup_nil
  k_u := List.nodup_nil
  idKeywordRefs := nofun
  idUrlRefs := nofun
  quantityRange := nofun

def Database.keywordTexts (db : Database) : List Str := db.keywords.map KeywordRow.keyword

def Database.urlTexts (db : Database) : List Str := db.urls.map UrlRow.url

/-- `SERIAL` hands out an id above those in use. -/
def nextId (ids : List Nat) : Nat := ids.foldr max 0 + 1

theorem le_foldr_max {ids : List Nat} {i : Nat} (h : i ∈ ids) : i ≤ ids.foldr max 0 := by
  induction ids with
  | nil => cases h
  | cons j ids ih =>
    obtain rfl | h := List.mem_cons.mp h
    · exact Nat.le_max_left _ _
    · exact Nat.le_trans (ih h) (Nat.le_max_right _ _)

theorem nextId_notMem (ids : List Nat) : nextId ids ∉ ids :=
  fun h => absurd (le_foldr_max h) (Nat.not_succ_le_self _)

theorem nodup_map_concat {α β : Type} {f : α → β} {l : List α} {x : α} (h : (l.map f).Nodup)
    (hx : f x ∉ l.map f) : ((l ++ [x]).map f).Nodup := by
  rw [List.map_append, List.map_singleton, List.nodup_append]
  refine ⟨h, List.nodup_singleton _, ?_⟩
  intro a ha b hb hab
  rw [List.mem_singleton.mp hb] at hab
  exact hx (hab ▸ ha)

theorem mem_map_concat {α β : Type} {f : α → β} {l : List α} {x : α} {b : β} (h : b ∈ l.map f) :
    b ∈ (l ++ [x]).map f := by
  rw [List.map_append]
  exact List.mem_append_left _ h

/-- `INSERT INTO urls (url) VALUES ( $1 )`. -/
def insertUrl (url : Str) (db : Database) : Except SqlError Database :=
  if h : url ∈ db.urlTexts then .error .uniqueViolation
  else .ok
    { db with
      urls := db.urls ++ [⟨nextId (db.urls.map UrlRow.id), url⟩]
      urlIds := nodup_map_concat db.urlIds (nextId_notMem _)
      urlUnique := nodup_map_concat db.urlUnique h
      idUrlRefs := fun r hr => mem_map_concat (db.idUrlRefs r hr) }

/-- `INSERT INTO keywords (keyword) VALUES ( $1 )`. -/
def insertKeyword (keyword : Str) (db : Database) : Except SqlError Database :=
  if h : keyword ∈ db.keywordTexts then .error .uniqueViolation
  else .ok
    { db with
      keywords := db.keywords ++ [⟨nextId (db.keywords.map KeywordRow.id), keyword⟩]
      keywordIds := nodup_map_concat db.keywordIds (nextId_notMem _)
      keywordUnique := nodup_map_concat db.keywordUnique h
      idKeywordRefs := fun r hr => mem_map_concat (db.idKeywordRefs r hr) }

/-- `SELECT id FROM keywords WHERE keyword = $1`. -/
def keywordRow (db : Database) (keyword : Str) : Option KeywordRow :=
  db.keywords.find? fun r => r.keyword = keyword

/-- `SELECT id FROM urls WHERE url = $2`. -/
def urlRow (db : Database) (url : Str) : Option UrlRow :=
  db.urls.find? fun r => r.url = url

/-- The insertion of a quantity behind its two sub-selects; the quantity arrives as text and
has to fit an `INTEGER`. -/
def insertPair (keyword link : Str) (value : Nat) (db : Database) : Except SqlError Database :=
  match hk : keywordRow db keyword, hu : urlRow db link with
  | some k, some u =>
    if hr : (value : Int) ≤ intMax then
      if hp : QtyRow.pair ⟨k.id, u.id, value⟩ ∈ db.keywordUrsQty.map QtyRow.pair then .error .uniqueViolation
      else .ok
        { db with
          keywordUrsQty := db.keywordUrsQty ++ [⟨k.id, u.id, value⟩]
          k_u := nodup_map_concat db.k_u hp
          idKeywordRefs := by
            intro r hr'
            obtain hr' | hr' := List.mem_append.mp hr'
            · exact db.idKeywordRefs r hr'
            · rw [List.mem_singleton.mp hr']
              exact List.mem_map_of_mem (List.mem_of_find?_eq_some hk)
          idUrlRefs := by
            intro r hr'
            obtain hr' | hr' := List.mem_append.mp hr'
            · exact db.idUrlRefs r hr'
            · rw [List.mem_singleton.mp hr']
              exact List.mem_map_of_mem (List.mem_of_find?_eq_some hu)
          quantityRange := by
            intro r hr'
            obtain hr' | hr' := List.mem_append.mp hr'
            · exact db.quantityRange r hr'
            · rw [List.mem_singleton.mp hr']
              exact ⟨by unfold intMin; simp only; omega, hr⟩ }
    else .error .outOfRange
  | _, _ => .error .notNullViolation

end SpiderSearch.Tables
