import SpiderSearch.Links

namespace SpiderSearch.Hrefs

open CppTypes Regex Links

section FirstOccurrences

variable {α : Type} [DecidableEq α]

/-- The elements of `l`, each one once, in the order in which they first occur. -/
structure FirstOccurrences (l m : List α) : Prop where
  nodup : m.Nodup
  mem : ∀ x, x ∈ m ↔ x ∈ l
  order : m.Pairwise fun x y => l.idxOf x < l.idxOf y

variable {l m : List α} {x : α}

theorem FirstOccurrences.seen (h : FirstOccurrences l m) (hx : x ∈ m) :
    FirstOccurrences (l ++ [x]) m := by
  have hl := (h.mem x).mp hx
  refine ⟨h.nodup, fun y => ?_, h.order.imp_of_mem fun {y z} hy hz hlt => ?_⟩
  · rw [h.mem y, List.mem_append, List.mem_singleton]
    exact ⟨.inl, fun hy => hy.elim id fun he => he ▸ hl⟩
  · rwa [List.idxOf_append_of_mem ((h.mem y).mp hy), List.idxOf_append_of_mem ((h.mem z).mp hz)]

theorem FirstOccurrences.new (h : FirstOccurrences l m) (hx : x ∉ m) :
    FirstOccurrences (l ++ [x]) (m ++ [x]) := by
  have hl : x ∉ l := fun hm => hx ((h.mem x).mpr hm)
  refine ⟨?_, fun y => ?_, ?_⟩
  · rw [List.nodup_append]
    refine ⟨h.nodup, List.pairwise_singleton _ x, ?_⟩
    rintro y hy z hz rfl
    exact hx (List.mem_singleton.mp hz ▸ hy)
  · rw [List.mem_append, List.mem_append, h.mem y]
  · rw [List.pairwise_append]
    refine ⟨h.order.imp_of_mem fun {y z} hy hz hlt => ?_, List.pairwise_singleton _ x, ?_⟩
    · rwa [List.idxOf_append_of_mem ((h.mem y).mp hy), List.idxOf_append_of_mem ((h.mem z).mp hz)]
    · intro y hy z hz
      have hy := (h.mem y).mp hy
      rw [List.mem_singleton.mp hz, List.idxOf_append_of_mem hy, List.idxOf_append_of_notMem hl]
      exact Nat.lt_add_right _ (List.idxOf_lt_length_of_mem hy)

end FirstOccurrences

/-- What an `href` can be made of. -/
def inHref (c : UInt8) : Bool := dot c && c != ch '"'

/-- An `href` at the start of a text, with what stands behind its closing quote. -/
def hrefAt (s : Str) : Option (Str × Str) :=
  if (str "<a href=\"").isPrefixOf s then
    let body := s.drop (str "<a href=\"").length
    if (body.dropWhile inHref).head? = some (ch '"') then
      some (body.takeWhile inHref, (body.dropWhile inHref).drop 1)
    else none
  else none

def nextHref : Str → Option (Str × Str)
  | [] => none
  | c :: s => (hrefAt (c :: s)).or (nextHref s)

def hrefsFrom : Nat → Str → List Str
  | 0, _ => []
  | k + 1, s =>
    match nextHref s with
    | none => []
    | some (href, rest) => href :: hrefsFrom k rest

/-- The `href`s of a page, one behind the other. -/
def hrefs (html : Str) : List Str := hrefsFrom (html.length + 1) html

theorem quote_isPrefixOf (t : Str) : (str "\"").isPrefixOf t = true ↔ t.head? = some (ch '"') := by
  have hq : str "\"" = [ch '"'] := by decide
  rw [hq]
  cases t with
  | nil => simp
  | cons c t =>
    rw [List.head?_cons, Option.some.injEq]
    simpa using eq_comm

theorem searchAt_htmlLink (s : Str) :
    (searchAt htmlLink s).map (fun m => (m.groups 1, m.rest)) = hrefAt s := by
  rw [searchAt, htmlLink, matchAt, matchAt_lit, hrefAt]
  by_cases hp : (str "<a href=\"").isPrefixOf s = true
  · rw [if_pos hp, if_pos hp]
    generalize s.drop (str "<a href=\"").length = body
    dsimp only
    rw [matchAt, matchAt, matchAt]
    simp only [matchAt_lit, quote_isPrefixOf]
    rw [starAt_until (q := ch '"') (fun t => by split_ifs with h <;> simp [h])]
    have ht := taken_append (body.takeWhile inHref) (body.dropWhile inHref)
    rw [List.takeWhile_append_dropWhile] at ht
    change Option.map _ (if (body.dropWhile inHref).head? = some (ch '"') then _ else none) = _
    by_cases hq : (body.dropWhile inHref).head? = some (ch '"')
    · rw [if_pos hq, if_pos hq, Option.map_some]
      dsimp only
      rw [Function.update_self]
      change some (taken body (body.dropWhile inHref), _) = _
      rw [ht]
      rfl
    · rw [if_neg hq, if_neg hq]
      rfl
  · rw [if_neg hp, if_neg hp]
    rfl

theorem search_htmlLink (s : Str) :
    (search htmlLink s).map (fun m => (m.groups 1, m.rest)) = nextHref s := by
  induction s with
  | nil => exact searchAt_htmlLink []
  | cons c s ih => rw [search, Option.map_or, searchAt_htmlLink, ih, nextHref]

/-- The iterator over the matches runs through the `href`s. -/
theorem iterator_htmlLink (html : Str) :
    (iterator htmlLink html).map (·.groups 1) = hrefs html := by
  have hall : ∀ k s, (searchAll htmlLink k s).map (·.groups 1) = hrefsFrom k s := by
    intro k
    induction k with
    | zero => exact fun _ => rfl
    | succ k ih =>
      intro s
      have hs := search_htmlLink s
      rw [searchAll, hrefsFrom, ← hs]
      cases search htmlLink s with
      | none => rfl
      | some m =>
        rw [Option.map_some]
        dsimp only
        rw [List.map_cons, ih]
  exact hall _ html

/-- What the list of sub-links is made of. -/
def candidates (link : Link) (hs : List Str) : List Str :=
  (hs.filter fun h => h.head? ≠ some (ch '#')).map fun h => linkToURL (urlToLinkFrom h link)

theorem extractLinkLoop_some {link : Link} {ms : List (Match UInt8)}
    (hne : [] ∉ ms.map (·.groups 1)) {before arrayLinks : List Str}
    (h : FirstOccurrences before arrayLinks) :
    ∃ links, extractLinkLoop link ms arrayLinks = some links ∧
      FirstOccurrences (before ++ candidates link (ms.map (·.groups 1))) links := by
  induction ms generalizing before arrayLinks with
  | nil => exact ⟨arrayLinks, rfl, by simpa [candidates] using h⟩
  | cons m ms ih =>
    rw [List.map_cons, List.mem_cons, not_or] at hne
    rw [extractLinkLoop, List.map_cons]
    cases hm : m.groups 1 with
    | nil => exact absurd hm.symm hne.1
    | cons c href =>
      dsimp only
      by_cases hc : c = ch '#'
      · have hskip : candidates link ((c :: href) :: ms.map (·.groups 1)) =
            candidates link (ms.map (·.groups 1)) := by
          rw [candidates, List.filter_cons_of_neg (by simp [hc]), candidates]
        rw [if_pos hc, hskip]
        exact ih hne.2 h
      have hadd : candidates link ((c :: href) :: ms.map (·.groups 1)) =
          linkToURL (urlToLinkFrom (c :: href) link) ::
            candidates link (ms.map (·.groups 1)) := by
        rw [candidates, List.filter_cons_of_pos (by simp [hc]), List.map_cons, candidates]
      rw [if_neg hc, hadd, List.append_cons before]
      split_ifs with hin
      · exact ih hne.2 (h.seen hin)
      · exact ih hne.2 (h.new hin)

theorem extractLinkLoop_none {link : Link} {ms : List (Match UInt8)}
    (he : [] ∈ ms.map (·.groups 1)) (arrayLinks : List Str) :
    extractLinkLoop link ms arrayLinks = none := by
  induction ms generalizing arrayLinks with
  | nil => cases he
  | cons m ms ih =>
    rw [extractLinkLoop]
    cases hm : m.groups 1 with
    | nil => rfl
    | cons c href =>
      rw [List.map_cons, hm, List.mem_cons] at he
      have he := he.resolve_left (List.cons_ne_nil c href).symm
      dsimp only
      rw [ih he, ih he, ite_self, ite_self]

theorem extractLink_some {html : Str} (hne : [] ∉ hrefs html) (link : Link) :
    ∃ links, extractLink html link = some links ∧
      FirstOccurrences (candidates link (hrefs html)) links := by
  rw [← iterator_htmlLink] at hne ⊢
  exact extractLinkLoop_some hne ⟨.nil, fun x => Iff.rfl, .nil⟩

theorem extractLink_eq_none {html : Str} (he : [] ∈ hrefs html) (link : Link) :
    extractLink html link = none := by
  rw [← iterator_htmlLink] at he
  exact extractLinkLoop_none he []

/-- The sub-links are the candidates, each one once, exactly when no `href` is empty; an empty one
makes the extraction throw. -/
theorem extractLink_iff (html : Str) (link : Link) :
    (∃ links, extractLink html link = some links ∧
      FirstOccurrences (candidates link (hrefs html)) links) ↔ [] ∉ hrefs html := by
  rw [← iterator_htmlLink, extractLink]
  apply Iff.intro
  · rintro ⟨links, hl, -⟩ he
    rw [extractLinkLoop_none he] at hl
    cases hl
  · intro hne
    exact extractLinkLoop_some hne ⟨.nil, fun x => Iff.rfl, .nil⟩

theorem empty_href_throws : ¬ ∀ html link, ∃ links, extractLink html link = some links ∧
    FirstOccurrences (candidates link (hrefs html)) links := by
  intro h
  obtain ⟨links, hl, -⟩ := h (str "<a href=\"\">") ⟨.HTTP, str "a.b", str "/"⟩
  have he : [] ∈ hrefs (str "<a href=\"\">") := by decide
  rw [← iterator_htmlLink] at he
  rw [extractLink, extractLinkLoop_none he] at hl
  cases hl

end SpiderSearch.Hrefs
