import SpiderSearch.Parse

namespace SpiderSearch.FindUrl

open CppTypes SqlText DbClient Links

/-- A URL that `extractLink` can return for a page. -/
def SubLink (html : Str) (link : Link) (u : Str) : Prop :=
  ∃ links, extractLink html link = some links ∧ u ∈ links

/-- `findUrl` sends one `SELECT` for its URL and answers whether the URL is stored. -/
structure Asked (u : Str) : Prop where
  statement : SelectsBy (existsSql "urls" "url" u) u
  answer : ∀ server db, findUrl server u db = .ok (decide (u ∈ db.urlTexts))

def selectHead : Str := str "SELECT EXISTS(SELECT id FROM urls WHERE url = "

theorem existsSql_eq (u : Str) :
    existsSql "urls" "url" u = selectHead ++ quote :: (u ++ quote :: (str ")" ++ [ch ';'])) := by
  have hh : existsHead "urls" "url" = selectHead ++ [quote] := by decide +kernel
  have ht : existsTail = str ")" ++ [ch ';'] := by decide
  rw [existsSql, hh, ht, List.append_assoc, List.append_assoc]
  rfl

theorem selectHead_plain : quote ∉ selectHead := by decide +kernel

theorem asked_of_plain {u : Str} (h : quote ∉ u) : Asked u := by
  refine ⟨?_, fun server db => findUrl_plain server h db⟩
  rw [existsSql_eq]
  have hselect : str "SELECT " <+: selectHead :=
    ⟨str "EXISTS(SELECT id FROM urls WHERE url = ", by decide +kernel⟩
  exact selectsBy_plain selectHead_plain (by decide +kernel) hselect h (by decide) (by decide)

theorem plain_of_asked {u : Str} (h : Asked u) : quote ∉ u := by
  have hs := h.statement
  rw [existsSql_eq] at hs
  exact plain_of_selectsBy selectHead_plain (by decide) hs

/-- `findUrl` asks what it means to ask exactly about texts without an apostrophe. -/
theorem asked_iff (u : Str) : Asked u ↔ quote ∉ u := ⟨plain_of_asked, asked_of_plain⟩

theorem question_asked_iff (html : Str) (link : Link) (u : Str) :
    SubLink html link u → (Asked u ↔ quote ∉ u) := fun _ => asked_iff u

def site : Link := ⟨.HTTP, str "a.b", str "/"⟩

theorem about_asked : SubLink (str "<a href=\"/about\">") site (str "http://a.b/about") ∧
    Asked (str "http://a.b/about") := by
  have h : SubLink (str "<a href=\"/about\">") site (str "http://a.b/about") :=
    ⟨[str "http://a.b/about"], by decide +kernel, List.mem_singleton_self _⟩
  exact ⟨h, (question_asked_iff _ _ _ h).mpr (by decide)⟩

/-- An apostrophe in an `href` reaches the text of the query. -/
theorem apostrophe_asked :
    ¬ ∀ (html : Str) (link : Link) (u : Str), SubLink html link u → Asked u := by
  intro h
  have hs : SubLink (str "<a href=\"/it's\">") site (str "http://a.b/it's") :=
    ⟨[str "http://a.b/it's"], by decide +kernel, List.mem_singleton_self _⟩
  exact absurd (plain_of_asked (h _ _ _ hs)) (by decide)

end SpiderSearch.FindUrl
