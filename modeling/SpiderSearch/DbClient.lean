import Mathlib
import SpiderSearch.DbSession
import SpiderSearch.SqlText

namespace SpiderSearch.DbClient

open CppTypes Tables DbSession SqlText StoredRows

/-- `std::map<std::string, β>`: its iteration is by the bytes of the keys. -/
abbrev StdMap (β : Type) := Std.ExtTreeMap Str β

/-- What PostgreSQL answers to a text that is not the statement the program meant to send. -/
abbrev Server := Str → Database → Except SqlError Bool

/-- A server that refuses whatever it was not meant to be sent. -/
def strict : Server := fun _ _ => .error .syntaxError

/-- The text of the one string literal between `head` and `tail`. -/
def literalOf (head tail sql : Str) : Option Str :=
  if head.isPrefixOf sql then
    match readLiteral (sql.drop head.length) with
    | some (lit, rest) => if rest = tail then some lit else none
    | none => none
  else none

def existsHead (table column : String) : Str :=
  str "SELECT EXISTS(SELECT id FROM " ++ str table ++ str " WHERE " ++ str column ++ str " = '"

def existsTail : Str := str ");"

/-- `SELECT EXISTS(SELECT id FROM table WHERE column = '` + text + `');`, built by concatenation. -/
def existsSql (table column : String) (text : Str) : Str :=
  existsHead table column ++ text ++ quote :: existsTail

def queryExists (server : Server) (table column : String) (texts : Database → List Str) (text : Str)
    (db : Database) : Except SqlError Bool :=
  (literalOf (existsHead table column) existsTail (existsSql table column text)).elim
    (server (existsSql table column text) db) fun lit => .ok (decide (lit ∈ texts db))

def findKeyword (server : Server) (keyword : Str) (db : Database) : Except SqlError Bool :=
  queryExists server "keywords" "keyword" Database.keywordTexts keyword db

def findUrl (server : Server) (url : Str) (db : Database) : Except SqlError Bool :=
  queryExists server "urls" "url" Database.urlTexts url db

/-- One turn of the loop over the words map. -/
def addWord (server : Server) (link key : Str) (value : Nat) : DbM Unit := do
  if ← query (findKeyword server key) then
    pure ()
  else
    execParams (insertKeyword key)
    commit
  execParams (insertPair key link value)

def addWords (server : Server) (link : Str) : List (Str × Nat) → DbM Unit
  | [] => pure ()
  | (key, value) :: words => do
    addWord server link key value
    addWords server link words

def addLink (server : Server) (words : StdMap Nat) (link : Str) : DbM Unit := do
  if ← query (findUrl server link) then
    pure ()
  else
    beginWork
    execParams (insertUrl link)
    commit
    addWords server link words.toList
    commit

/-- The rows of the join over the three tables for one keyword. -/
def joinRows (db : Database) (keyword : Str) : List (Str × Int) :=
  db.urls.flatMap fun u => db.keywordUrsQty.flatMap fun kuq => db.keywords.flatMap fun k =>
    if u.id = kuq.idUrl ∧ kuq.idKeyword = k.id ∧ k.keyword = keyword then [(u.url, kuq.quantity)]
    else []

/-- `result[url] = qty` for every row of a query. -/
def assignRows {β : Type} (rows : List (Str × β)) (m : StdMap β) : StdMap β :=
  rows.foldl (fun result (k, v) => result.insert k v) m

def getUrlHead : Str :=
  str "SELECT u.url, kuq.quantity FROM urls u JOIN keyword_urs_qty kuq ON u.id = kuq.id_url JOIN keywords k ON kuq.id_keyword = k.id WHERE k.keyword = '"

def getUrlTail : Str := str " "

def getUrl (db : Database) (keyword : Str) : Except SqlError (StdMap Int) :=
  (literalOf getUrlHead getUrlTail (getUrlHead ++ esc keyword ++ quote :: getUrlTail)).elim
    (.error .syntaxError) fun lit => .ok (assignRows (joinRows db lit) ∅)

theorem existsTail_head : existsTail.head? ≠ some quote := by decide

theorem getUrlTail_head : getUrlTail.head? ≠ some quote := by decide

theorem literalOf_append (head tail rest : Str) :
    literalOf head tail (head ++ rest) =
      match readLiteral rest with
      | some (lit, rest) => if rest = tail then some lit else none
      | none => none := by
  have hp : head.isPrefixOf (head ++ rest) = true :=
    List.isPrefixOf_iff_prefix.mpr (List.prefix_append head rest)
  rw [literalOf, if_pos hp, List.drop_left]

theorem literalOf_plain {head tail text : Str} (h : quote ∉ text) (ht : tail.head? ≠ some quote) :
    literalOf head tail (head ++ text ++ quote :: tail) = some text := by
  rw [List.append_assoc, literalOf_append, readLiteral_plain h ht]
  exact if_pos rfl

theorem literalOf_esc (head : Str) {tail : Str} (text : Str) (ht : tail.head? ≠ some quote) :
    literalOf head tail (head ++ esc text ++ quote :: tail) = some text := by
  rw [List.append_assoc, literalOf_append, readLiteral_esc text ht]
  exact if_pos rfl

/-- Without an apostrophe the concatenated text asks for exactly the given string. -/
theorem queryExists_plain (server : Server) (table column : String)
    (texts : Database → List Str) {text : Str} (h : quote ∉ text) (db : Database) :
    queryExists server table column texts text db = .ok (decide (text ∈ texts db)) := by
  have hl : literalOf (existsHead table column) existsTail
      (existsHead table column ++ text ++ quote :: existsTail) = some text :=
    literalOf_plain h existsTail_head
  rw [queryExists, existsSql]
  rw [hl, Option.elim_some]

theorem findUrl_plain (server : Server) {url : Str} (h : quote ∉ url) (db : Database) :
    findUrl server url db = .ok (decide (url ∈ db.urlTexts)) :=
  queryExists_plain server _ _ _ h db

theorem findKeyword_plain (server : Server) {keyword : Str} (h : quote ∉ keyword) (db : Database) :
    findKeyword server keyword db = .ok (decide (keyword ∈ db.keywordTexts)) :=
  queryExists_plain server _ _ _ h db

theorem mem_joinRows {db : Database} {k u : Str} {q : Int} :
    (u, q) ∈ joinRows db k ↔ Stored db k u q := by
  simp only [joinRows, List.mem_flatMap, Stored]
  apply Iff.intro
  · rintro ⟨ur, hu, r, hr, kr, hk, hm⟩
    split at hm
    next h =>
      obtain ⟨h1, h2, h3⟩ := h
      simp only [List.mem_singleton, Prod.mk.injEq] at hm
      exact ⟨kr, hk, ur, hu, r, hr, h3, hm.1.symm, h2, h1.symm, hm.2.symm⟩
    · simp at hm
  · rintro ⟨kr, hk, ur, hu, r, hr, h1, h2, h3, h4, h5⟩
    refine ⟨ur, hu, r, hr, kr, hk, ?_⟩
    simp [h1, h2, h3, h4, h5]

theorem mem_of_assignRows {β : Type} {rows : List (Str × β)} {m : StdMap β} {u : Str} {q : β}
    (h : (assignRows rows m)[u]? = some q) : (u, q) ∈ rows ∨ m[u]? = some q := by
  induction rows generalizing m with
  | nil => exact .inr h
  | cons row rows ih =>
    obtain ⟨k, v⟩ := row
    obtain hin | hm := ih h
    · exact .inl (List.mem_cons_of_mem _ hin)
    · rw [Std.ExtTreeMap.getElem?_insert] at hm
      split at hm
      next he =>
        cases hm
        obtain rfl : k = u := Std.compare_eq_iff_eq.mp he
        exact .inl List.mem_cons_self
      · exact .inr hm

theorem assignRows_of_mem {β : Type} {rows : List (Str × β)} {m : StdMap β} {u : Str} {q : β}
    (hin : (u, q) ∈ rows ∨ m[u]? = some q) (hfun : ∀ q', (u, q') ∈ rows → q' = q) :
    (assignRows rows m)[u]? = some q := by
  induction rows generalizing m with
  | nil => exact hin.resolve_left (List.not_mem_nil)
  | cons row rows ih =>
    obtain ⟨k, v⟩ := row
    refine ih ?_ fun q' hq' => hfun q' (List.mem_cons_of_mem _ hq')
    rw [Std.ExtTreeMap.getElem?_insert]
    by_cases hk : k = u
    · subst hk
      right
      rw [if_pos Std.ReflCmp.compare_self, hfun v List.mem_cons_self]
    · rw [if_neg (mt Std.compare_eq_iff_eq.mp hk)]
      obtain hin | hm := hin
      · obtain he | hin := List.mem_cons.mp hin
        · cases he
          exact absurd rfl hk
        · exact .inl hin
      · exact .inr hm

theorem getUrl_eq (db : Database) (k : Str) :
    getUrl db k = .ok (assignRows (joinRows db k) ∅) := by
  have hl : literalOf getUrlHead getUrlTail (getUrlHead ++ esc k ++ quote :: getUrlTail) = some k :=
    literalOf_esc getUrlHead k getUrlTail_head
  rw [getUrl]
  rw [hl, Option.elim_some]

/-- `getUrl` returns exactly the quantities stored for its keyword. -/
theorem getUrl_spec (db : Database) (k : Str) :
    ∃ m, getUrl db k = .ok m ∧ ∀ u q, m[u]? = some q ↔ Stored db k u q := by
  refine ⟨_, getUrl_eq db k, fun u q => ?_⟩
  apply Iff.intro
  · intro h
    obtain hin | hm := mem_of_assignRows h
    · exact mem_joinRows.mp hin
    · simp at hm
  · intro hs
    exact assignRows_of_mem (.inl (mem_joinRows.mpr hs)) fun q' hq' =>
      (mem_joinRows.mp hq').unique hs

end SpiderSearch.DbClient
