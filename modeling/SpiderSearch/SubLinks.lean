import SpiderSearch.Hrefs
import SpiderSearch.LinkClosure
import SpiderSearch.SearchEngine

namespace SpiderSearch.SubLinks

open CppTypes DbClient DoWork WebCrawl LinkDepth LinkClosure Regex Links UrlKey Hrefs SearchEngine

variable {server : Server} {getContent : Link → Str}

theorem nil_notMem_hrefs {html : Str} {link : Link} {links : List Str}
    (h : extractLink html link = some links) : [] ∉ hrefs html := by
  intro he
  rw [extractLink_eq_none he] at h
  cases h

/-- The sub-links of a page are those of its `href`s that are no fragments. -/
theorem mem_extractLink {html : Str} {link : Link} {links : List Str}
    (h : extractLink html link = some links) {v : Str} :
    v ∈ links ↔ ∃ href ∈ hrefs html, href.head? ≠ some (ch '#') ∧
      linkToURL (urlToLinkFrom href link) = v := by
  obtain ⟨links', hl, hf⟩ := extractLink_some (nil_notMem_hrefs h) link
  obtain rfl := Option.some.inj (h.symm.trans hl)
  rw [hf.mem, candidates, List.mem_map]
  simp [and_assoc]

theorem dot_of_mem_hrefs {html href : Str} (h : href ∈ hrefs html) : ∀ b ∈ href, dot b = true := by
  rw [← iterator_htmlLink, List.mem_map] at h
  obtain ⟨m, hm, rfl⟩ := h
  exact fun b hb => (Parse.dot_of_htmlLink hm b hb).2

/-- Where a visit gets its links from. -/
theorem links_of_visit {w w' : Tables.Database} {u : Str} {links : List Str}
    (h : (webEnv server (Parse.page getContent)).visit w u = .parsed w' links) :
    ∃ parser, HtmlParser.new u = .ok parser ∧
      extractLink (getContent parser.link) parser.link = some links := by
  obtain ⟨url, words, hp, -, -⟩ := visit_parsed h
  cases hn : HtmlParser.new u with
  | error e => simp [Parse.page, hn] at hp
  | ok parser =>
    obtain ⟨-, hp'⟩ | ⟨words', -, -, ⟨-, hp'⟩ | ⟨links', hx, hp'⟩⟩ := page_words getContent hn
    · cases hp.symm.trans hp'
    · cases hp.symm.trans hp'
    · cases hp.symm.trans hp'
      exact ⟨parser, rfl, hx⟩

/-- The query of a link is part of the text it was read from. -/
theorem urlToLink_query {html : Str} {link : Link} (h : urlToLink html = .ok link) :
    ∀ b ∈ link.query, b ∈ html := by
  rw [urlToLink, groupsOf] at h
  cases hs : search firstUrl html with
  | none => simp [hs] at h
  | some m =>
    obtain ⟨before, u, t, c, e, rfl, -, ho, hq⟩ := url_groups hs
    obtain ⟨ht, tail, h4, -⟩ := firstQuery_group hq
    have hu : ∀ b ∈ t, b ∈ u := by
      obtain ho | ⟨rfl, -⟩ := ho
      · obtain ⟨rfl, -, -⟩ := host_group rfl ho
        exact fun b hb => List.mem_append_right _ hb
      · exact fun b hb => hb
    have hquery : ∀ b ∈ m.groups 4, b ∈ before ++ u := fun b hb =>
      List.mem_append_right _ (hu b (by rw [ht]; exact List.mem_append_left _ hb))
    simp only [hs] at h
    split_ifs at h with h1 h3 h4'
    · cases h
      exact hquery
    · rw [h4] at h4'
      exact absurd (Nat.succ_ne_zero _) h4'

theorem mem_scheme {protocol : TProtocol} {b : UInt8} (h : b ∈ scheme protocol ++ str "://") :
    b ∈ str "https://" := by
  revert b
  cases protocol <;> decide +kernel

/-- The bytes of the URL that a page is stored under come from the scheme and the URL it was asked
for with. -/
theorem forall_getURL {p : UInt8 → Prop} {u : Str} {parser : HtmlParser}
    (hn : HtmlParser.new u = .ok parser) (hs : ∀ b ∈ str "https://", p b) (hu : ∀ b ∈ u, p b) :
    ∀ b ∈ parser.getURL, p b := by
  have hl := Parse.urlToLink_of_new hn
  intro b hb
  rw [show parser.getURL = linkToURL parser.link from rfl, linkToURL_eq, ← List.append_assoc] at hb
  obtain hb | hb := List.mem_append.mp hb
  · exact hs b (mem_scheme hb)
  · obtain hb | hb := List.mem_append.mp hb
    · exact hu b (urlToLink_host hl b hb)
    · exact hu b (urlToLink_query hl b hb)

end SpiderSearch.SubLinks
