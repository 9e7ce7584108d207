import SpiderSearch.LinkDepth
import SpiderSearch.UrlKey
import SpiderSearch.Words

namespace SpiderSearch.Parse

open CppTypes DbClient WebCrawl Layers Regex Links Words

/-- `HTML_Parser parser(db, url)` and `parser.parse()` up to their calls of the database, on a
fixed web: `getContent` is what `getContent(link)` returns. -/
def page (getContent : Link → Str) (url : Str) : Page :=
  match HtmlParser.new url with
  | .error _ => .badUrl
  | .ok parser =>
    let htmlContent := getContent parser.link
    if htmlContent.length = 0 then .rejected
    else
      match extractWords htmlContent with
      -- the scanner ends on every text
      | none => .badUrl
      | some wordCount =>
        if wordCount.size = 0 then .rejected
        else
          match extractLink htmlContent parser.link with
          | none => .badLink parser.getURL wordCount
          | some subLinks => .parsed parser.getURL wordCount subLinks

theorem urlToLink_of_new {u : Str} {parser : HtmlParser} (h : HtmlParser.new u = .ok parser) :
    urlToLink u = .ok parser.link := by
  rw [HtmlParser.new] at h
  cases hu : urlToLink u with
  | error e => simp [hu, Except.map] at h
  | ok link =>
    rw [hu] at h
    cases h
    rfl

theorem page_parsed {getContent : Link → Str} {u : Str} {parser : HtmlParser}
    {words : StdMap Nat} {links : List Str} (hp : HtmlParser.new u = .ok parser)
    (hc : (getContent parser.link).length ≠ 0)
    (hw : extractWords (getContent parser.link) = some words) (hs : words.size ≠ 0)
    (hx : extractLink (getContent parser.link) parser.link = some links) :
    page getContent u = .parsed parser.getURL words links := by
  rw [page, hp]
  dsimp only
  rw [if_neg hc, hw]
  dsimp only
  rw [if_neg hs, hx]

theorem page_indexes {getContent : Link → Str} {u url : Str}
    (h : LinkDepth.Indexes (page getContent) u url) :
    ∃ parser, HtmlParser.new u = .ok parser ∧ parser.getURL = url := by
  obtain ⟨words, h⟩ := h
  rw [page] at h
  cases hp : HtmlParser.new u with
  | error e => simp [hp] at h
  | ok parser =>
    rw [hp] at h
    refine ⟨parser, rfl, ?_⟩
    dsimp only at h
    split_ifs at h with hl
    · simp at h
    · split at h
      · simp at h
      · split_ifs at h with hw
        · simp at h
        · split at h <;> simp_all

theorem page_subLinks {getContent : Link → Str} {u v : Str}
    (h : LinkDepth.Links (page getContent) u v) :
    ∃ parser links, HtmlParser.new u = .ok parser ∧
      extractLink (getContent parser.link) parser.link = some links ∧ v ∈ links := by
  rw [LinkDepth.Links, LinkDepth.subLinks, page] at h
  cases hp : HtmlParser.new u with
  | error e => simp [hp] at h
  | ok parser =>
    rw [hp] at h
    dsimp only at h
    split_ifs at h with hl
    · simp at h
    · cases hw : extractWords (getContent parser.link) with
      | none => simp [hw] at h
      | some words =>
        rw [hw] at h
        dsimp only at h
        split_ifs at h with hs
        · simp at h
        · cases hx : extractLink (getContent parser.link) parser.link with
          | none => simp [hx] at h
          | some links =>
            rw [hx] at h
            exact ⟨parser, links, rfl, hx, h⟩

theorem dot_of_htmlLink {html : Str} {fuel : Nat} {m : Match UInt8}
    (h : m ∈ searchAll htmlLink fuel html) :
    ∀ b ∈ m.groups 1, b ∈ html ∧ dot b = true := by
  induction fuel generalizing html with
  | zero => cases h
  | succ fuel ih =>
    rw [searchAll] at h
    cases hs : search htmlLink html with
    | none => simp [hs] at h
    | some m' =>
      obtain ⟨before, he, u, e, hl, v, f, ⟨w, f', hu, ⟨w', hw, hd, rfl⟩, rfl⟩, hq⟩ := search_sound hs
      rw [hs] at h
      obtain rfl | h := List.mem_cons.mp h
      · intro b hb
        rw [parses_frame hq (by simp), Function.update_self] at hb
        have hww : w = w' := List.append_cancel_right (hu.symm.trans hw)
        refine ⟨?_, hd b (hww ▸ hb)⟩
        rw [he, (parses_lit.mp hl).1, hu]
        simp [hb]
      · intro b hb
        obtain ⟨hm, hdb⟩ := ih h b hb
        refine ⟨?_, hdb⟩
        rw [he]
        simp [hm]

theorem mem_extractLinkLoop {link : Link} {ms : List (Match UInt8)} {arrayLinks links : List Str}
    {v : Str} (h : extractLinkLoop link ms arrayLinks = some links) (hv : v ∈ links) :
    v ∈ arrayLinks ∨ ∃ m ∈ ms, v = linkToURL (urlToLinkFrom (m.groups 1) link) := by
  induction ms generalizing arrayLinks with
  | nil =>
    cases h
    exact .inl hv
  | cons m ms ih =>
    have further : ∀ {arr}, extractLinkLoop link ms arr = some links →
        v ∈ arr ∨ ∃ m' ∈ m :: ms, v = linkToURL (urlToLinkFrom (m'.groups 1) link) := by
      intro arr hl
      exact (ih hl).imp_right fun ⟨m', hm, he⟩ => ⟨m', List.mem_cons_of_mem m hm, he⟩
    rw [extractLinkLoop] at h
    cases hm : m.groups 1 with
    | nil => simp [hm] at h
    | cons c href =>
      rw [hm] at h
      dsimp only at h
      split_ifs at h with hc ha
      · exact further h
      · exact further h
      · obtain hin | hex := further h
        · obtain hin | hin := List.mem_append.mp hin
          · exact .inl hin
          · refine .inr ⟨m, List.mem_cons_self, ?_⟩
            rw [List.mem_singleton.mp hin, hm]
        · exact .inr hex

/-- Every sub-link comes from an `href` of the page, which has no line terminator. -/
theorem href_of_extractLink {html : Str} {link : Link} {links : List Str} {v : Str}
    (h : extractLink html link = some links) (hv : v ∈ links) :
    ∃ href, v = linkToURL (urlToLinkFrom href link) ∧ ∀ b ∈ href, b ∈ html ∧ dot b = true := by
  obtain hm | ⟨m, hm, he⟩ := mem_extractLinkLoop h hv
  · cases hm
  · exact ⟨m.groups 1, he, dot_of_htmlLink hm⟩

/-- The page of a sub-link is stored under the URL it was queued with. -/
theorem page_sameUrl {getContent : Link → Str} {u v url : Str}
    (hl : LinkDepth.Links (page getContent) u v) (hi : LinkDepth.Indexes (page getContent) v url) :
    url = v := by
  obtain ⟨parser, links, hp, hx, hv⟩ := page_subLinks hl
  obtain ⟨href, rfl, hd⟩ := href_of_extractLink hx hv
  have hparent := UrlKey.resolved_of_urlToLink (urlToLink_of_new hp)
  obtain ⟨parser', hn, hu⟩ :=
    UrlKey.new_linkToURL (UrlKey.resolved_of_urlToLinkFrom hparent fun b hb => (hd b hb).2)
  obtain ⟨parser'', hn', rfl⟩ := page_indexes hi
  obtain rfl := Except.ok.inj (hn.symm.trans hn')
  exact hu

end SpiderSearch.Parse
