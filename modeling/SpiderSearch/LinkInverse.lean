import SpiderSearch.UrlGroups

namespace SpiderSearch.LinkInverse

open CppTypes Regex Links UrlKey UrlGroups

/-- A host with a dot in it and a query on one line. -/
structure WellFormed (link : Link) : Prop where
  host : ∃ name rest, link.host = name ++ ch '.' :: rest ∧ name ≠ [] ∧
    (∀ b ∈ name, wordChar b = true) ∧ rest ≠ [] ∧
    ∀ b ∈ rest, notSlash b = true ∧ dot b = true
  query : ∃ tail, link.query = ch '/' :: tail ∧ ∀ b ∈ tail, dot b = true

theorem takes_noProtocol {s : Str} (h : s.head? = some (ch '/')) : Takes protocolPattern [] s id := by
  apply takes_skip
  rintro t c d ⟨w, e, -, ⟨u, e', hl, -⟩, -⟩
  rw [(parses_lit.mp hl).1] at h
  exact absurd (Option.some.inj h) (by decide)

theorem takes_noSlashes {s : Str} (h : s.head? = some (ch '/')) (hn : ¬ str "//" <+: s) :
    Takes slashesPattern [] s id := by
  apply takes_skip
  rintro t c d ⟨w, e, -, ⟨u, e', ho, hl⟩, -⟩
  obtain ho | ⟨rfl, rfl⟩ := ho
  · rw [(parses_lit.mp ho).1] at h
    exact absurd (Option.some.inj h) (by decide)
  · exact hn ⟨t, (parses_lit.mp hl).1.symm⟩

theorem takes_twoSlashes (s : Str) :
    Takes slashesPattern (str "//") s fun c => Function.update c 2 (str "//") := by
  have hn : ∀ t c d, ¬ Parses (lit (str ":")) (str "//" ++ s) c t d := by
    intro t c d h
    exact absurd (parses_lit.mp h).1 (by simp [str, String.utf8EncodeChar])
  exact takes_opt (takes_group 2 (takes_seq (takes_skip hn) (takes_lit (str "//") s)))

theorem takes_noHost {r : Pattern UInt8} {s : Str} (h : s.head? = some (ch '/')) :
    Takes (.opt (hostPattern r)) [] s id := by
  apply takes_skip
  rintro t c d ⟨w, e, -, ⟨u, e', hp, -⟩, -⟩
  obtain ⟨x, name, rfl, hname, -⟩ := parses_plus.mp hp
  have hx := hname x List.mem_cons_self
  rw [Option.some.inj h] at hx
  exact absurd hx (by decide)

theorem takes_host {r : Pattern UInt8} {name rest s : Str} {d : UInt8} (hne : name ≠ [])
    (hname : ∀ b ∈ name, wordChar b = true) (hd : dot d = true) (hdw : wordChar d = false)
    (hr : Takes r rest s id) :
    Takes (hostPattern r) (name ++ d :: rest) s
      fun c => Function.update c 3 (name ++ d :: rest) :=
  takes_group 3 (takes_seq (takes_plus hne hname (by simp [hdw]))
    (takes_seq (takes_sym hd (rest ++ s)) hr))

/-- The greedy run takes the line to its end, so the fragment group never finds its `#`. -/
theorem takes_subQuery {tail : Str} (s : Str) (h : ∀ b ∈ tail, dot b = true)
    (hs : ∀ b ∈ s.head?, dot b = false) :
    Takes subQuery (ch '/' :: tail) s fun c => Function.update c 4 (ch '/' :: tail) := by
  have hn : ∀ t c d, ¬ Parses (.group 5 (.seq (lit (str "#")) (.seq (plus true notSlash) .atEnd)))
      s c t d := by
    rintro t c d ⟨w, e, hw, ⟨u, e', hl, -⟩, -⟩
    rw [(parses_lit.mp hl).1] at hs
    exact absurd (hs (ch '#') rfl) (by decide)
  have hq := takes_seq (takes_star (w := tail) (s := [] ++ s) h hs) (takes_skip hn)
  rw [List.append_nil] at hq
  exact takes_group 4 (takes_seq (takes_lit (str "/") (tail ++ s)) hq)

theorem groupsOf_of_takes {r : Pattern UInt8} {w : Str} {f : Groups UInt8 → Groups UInt8}
    (h : Takes r w [] f) : groupsOf r w = f fun _ => [] := by
  have hs := search_of_takes h
  rw [List.append_nil] at hs
  rw [groupsOf, hs]

theorem protocolOf_scheme (p : TProtocol) : protocolOf (scheme p) = p := by
  cases p with
  | HTTP => decide
  | HTTPS => decide

theorem scheme_ne_nil (p : TProtocol) : scheme p ≠ [] := by
  cases p with
  | HTTP => decide
  | HTTPS => decide

theorem wordChar_scheme {p : TProtocol} : ∀ b ∈ scheme p, wordChar b = true := by
  cases p with
  | HTTP => decide +kernel
  | HTTPS => decide +kernel

theorem WellFormed.takes_subHost {link : Link} (h : WellFormed link) :
    Takes (.opt subHost) link.host link.query fun c => Function.update c 3 link.host := by
  obtain ⟨name, rest, hhost, hne, hname, hrest, hline⟩ := h.host
  obtain ⟨tail, hquery, -⟩ := h.query
  rw [hhost, hquery]
  exact takes_opt (takes_host hne hname (by decide) (by decide)
    (takes_plus hrest (fun b hb => (hline b hb).1) (by simp; decide)))

theorem WellFormed.takes_lineHost {link : Link} (h : WellFormed link) :
    Takes (.opt (hostPattern (.star true fun b => dot b && notSlash b))) link.host
      link.query fun c => Function.update c 3 link.host := by
  obtain ⟨name, rest, hhost, hne, hname, hrest, hline⟩ := h.host
  obtain ⟨tail, hquery, -⟩ := h.query
  rw [hhost, hquery]
  exact takes_opt (takes_host hne hname (by decide) (by decide)
    (takes_star (fun b hb => by simp [hline b hb]) (by simp; decide)))

theorem WellFormed.takes_query {link : Link} (h : WellFormed link) :
    Takes subQuery link.query [] (fun c => Function.update c 4 link.query) ∧
      Takes firstQuery link.query [] fun c => Function.update c 4 link.query := by
  obtain ⟨tail, hquery, hline⟩ := h.query
  rw [hquery]
  exact ⟨takes_subQuery [] hline (by simp), takes_firstQuery [] hline (by simp)⟩

theorem takes_url {r q : Pattern UInt8} {p w v u : Str}
    {f₁ f₂ f₃ f₄ : Groups UInt8 → Groups UInt8} (hp : Takes protocolPattern p (w ++ (v ++ u)) f₁)
    (hw : Takes slashesPattern w (v ++ u) f₂) (hv : Takes (.opt (hostPattern r)) v u f₃)
    (hu : Takes q u [] f₄) :
    Takes (urlPattern r q) (p ++ (w ++ (v ++ u))) [] fun c => f₄ (f₃ (f₂ (f₁ c))) := by
  rw [← List.append_nil (v ++ u)] at hw
  rw [← List.append_nil (w ++ (v ++ u))] at hp
  rw [← List.append_nil u] at hv
  have hhost := takes_seq hv hu
  have hslashes := takes_seq hw hhost
  have hall := takes_seq hp hslashes
  exact hall

/-- The link that is made of the groups; the parent fills in for groups that took no part. -/
theorem urlToLinkFrom_of_takes {html : Str} {f : Groups UInt8 → Groups UInt8}
    (h : Takes subUrl html [] f) {p host query : Str} (h1 : f (fun _ => []) 1 = p)
    (h3 : f (fun _ => []) 3 = host) (h4 : f (fun _ => []) 4 = query)
    (h5 : f (fun _ => []) 5 = []) (hq : query ≠ []) (parent : Link) :
    urlToLinkFrom html parent =
      ⟨if p ≠ [] then protocolOf p else parent.protocol, if host ≠ [] then host else parent.host,
        query⟩ := by
  have hlen : query.length ≠ 0 := by simpa using hq
  rw [urlToLinkFrom, groupsOf_of_takes h, h1, h3, h4, h5]
  simp only [hlen, ne_eq, List.length_eq_zero_iff, not_false_eq_true, if_true]

/-- Both parsers read back what `LinkToURL` writes, and a reference without a protocol or without
a host takes these from the page it stands on. -/
theorem parsers_invert (parent link : Link) (h : WellFormed link) :
    urlToLinkFrom (linkToURL link) parent = link ∧ urlToLink (linkToURL link) = .ok link ∧
      urlToLinkFrom (str "//" ++ link.host ++ link.query) parent =
        ⟨parent.protocol, link.host, link.query⟩ ∧
      (¬ str "//" <+: link.query →
        urlToLinkFrom link.query parent = ⟨parent.protocol, parent.host, link.query⟩) := by
  obtain ⟨tail, hquery, -⟩ := h.query
  have hne : link.query ≠ [] := by rw [hquery]; exact List.cons_ne_nil _ _
  have hhost : link.host ≠ [] := by
    obtain ⟨name, rest, hhost, -⟩ := h.host
    rw [hhost]
    simp
  refine ⟨?_, ?_, ?_, ?_⟩
  · have ht := takes_url (takes_protocol link.protocol _) (takes_slashes _) h.takes_subHost
      h.takes_query.1
    rw [← linkToURL_eq] at ht
    rw [urlToLinkFrom_of_takes ht rfl rfl rfl rfl hne]
    simp [hhost, scheme_ne_nil, protocolOf_scheme]
  · have ht := takes_url (takes_protocol link.protocol _) (takes_slashes _) h.takes_lineHost
      h.takes_query.2
    rw [← linkToURL_eq] at ht
    rw [urlToLink, groupsOf_firstUrl, lineUrl, groupsOf_of_takes ht]
    simp [hhost, hne, scheme_ne_nil, protocolOf_scheme]
  · have ht : Takes subUrl (str "//" ++ (link.host ++ link.query)) [] fun c =>
        Function.update (Function.update (Function.update c 2 (str "//")) 3 link.host)
          4 link.query :=
      takes_url (p := []) (takes_noProtocol rfl) (takes_twoSlashes _) h.takes_subHost
        h.takes_query.1
    rw [List.append_assoc, urlToLinkFrom_of_takes ht rfl rfl rfl rfl hne]
    simp [hhost]
  · intro hslashes
    have hhead : link.query.head? = some (ch '/') := by rw [hquery]; rfl
    have ht : Takes subUrl link.query [] fun c => Function.update c 4 link.query :=
      takes_url (p := []) (w := []) (v := []) (takes_noProtocol hhead)
        (takes_noSlashes hhead hslashes) (takes_noHost hhead) h.takes_query.1
    rw [urlToLinkFrom_of_takes ht rfl rfl rfl rfl hne]
    simp

def page : Link := ⟨.HTTPS, str "a.org", str "/x"⟩

def site : Link := ⟨.HTTP, str "b.org:80", str "/y/z"⟩

theorem site_inverted :
    urlToLinkFrom (linkToURL site) page = site ∧ urlToLink (linkToURL site) = .ok site ∧
      urlToLinkFrom (str "//" ++ site.host ++ site.query) page =
        ⟨page.protocol, site.host, site.query⟩ ∧
      urlToLinkFrom site.query page = ⟨page.protocol, page.host, site.query⟩ := by
  have hsite : WellFormed site :=
    ⟨⟨str "b", str "org:80", by decide, by decide, by decide +kernel, by decide,
      by decide +kernel⟩, str "y/z", by decide, by decide +kernel⟩
  obtain ⟨hfrom, hto, hslashes, hquery⟩ := parsers_invert page site hsite
  exact ⟨hfrom, hto, hslashes, hquery (by decide)⟩

end SpiderSearch.LinkInverse
