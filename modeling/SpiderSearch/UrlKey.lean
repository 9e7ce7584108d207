import Mathlib.Data.FinEnum
import Mathlib.Data.List.TakeWhile
import SpiderSearch.Links

namespace SpiderSearch.UrlKey

open CppTypes Regex Links

/-- What every link has that was read from a text without line terminators. -/
structure Resolved (link : Link) : Prop where
  host : ∃ x y tail, link.host = x :: y :: tail ∧ wordChar x = true
  query : ∃ tail, link.query = ch '/' :: tail
  line : ∀ b ∈ link.host ++ link.query, dot b = true

/-- The host group of both patterns: what follows the first two characters differs. -/
theorem host_group {r : Pattern UInt8} (hr : indices r = []) {s t : Str} {c d : Groups UInt8}
    (h : Parses (.group 3 (.seq (plus true wordChar) (.seq (.sym dot) r))) s c t d) :
    s = d 3 ++ t ∧ (∃ x y tail, d 3 = x :: y :: tail ∧ wordChar x = true) ∧
      ∀ i, i ≠ 3 → d i = c i := by
  have frame : ∀ i, i ≠ 3 → d i = c i :=
    fun i hi => parses_frame h (by simpa [indices, hr] using hi)
  obtain ⟨w, e, rfl, ⟨u, e', hp, v, e'', ⟨y, rfl, -, -⟩, hr'⟩, rfl⟩ := h
  obtain ⟨z, rfl⟩ := parses_append hr'
  obtain ⟨x, tail, hw, hx, -⟩ := parses_plus.mp hp
  refine ⟨by rw [Function.update_self], ?_, frame⟩
  have hw' : w ++ t = (x :: (tail ++ (y :: z))) ++ t := by simpa using hw
  rw [Function.update_self, List.append_cancel_right hw']
  cases tail with
  | nil => exact ⟨x, y, z, rfl, hx x List.mem_cons_self⟩
  | cons b tail => exact ⟨x, b, tail ++ y :: z, rfl, hx x List.mem_cons_self⟩

theorem dot_of_wordChar {c : UInt8} (h : wordChar c = true) : dot c = true := by
  have hn : wordChar (ch '\n') = false := by decide
  have hr : wordChar (ch '\r') = false := by decide
  rw [dot, Bool.and_eq_true, bne_iff_ne, bne_iff_ne]
  apply And.intro
  · rintro rfl
    exact absurd h (by rw [hn]; decide)
  · rintro rfl
    exact absurd h (by rw [hr]; decide)

theorem firstHost_dots {s t : Str} {c d : Groups UInt8} (h : Parses firstHost s c t d) :
    ∀ b ∈ d 3, dot b = true := by
  obtain ⟨w, e, rfl, ⟨u, e', hp, v, e'', ⟨y, rfl, hy, -⟩, z, rfl, hz, -⟩, rfl⟩ := h
  obtain ⟨x, tail, hw, hx, -⟩ := parses_plus.mp hp
  have hw' : w ++ t = (x :: tail ++ y :: z) ++ t := by simpa using hw
  rw [Function.update_self, List.append_cancel_right hw']
  intro b hb
  obtain hb | hb := List.mem_append.mp hb
  · exact dot_of_wordChar (hx b hb)
  · obtain rfl | hb := List.mem_cons.mp hb
    · exact hy
    · exact hz b hb

theorem firstQuery_group {s t : Str} {c d : Groups UInt8} (h : Parses firstQuery s c t d) :
    s = d 4 ++ t ∧ ∃ tail, d 4 = ch '/' :: tail ∧ ∀ b ∈ tail, dot b = true := by
  obtain ⟨w, e, rfl, ⟨u, e', hl, v, rfl, hv, -⟩, rfl⟩ := h
  obtain ⟨hw, -⟩ := parses_lit.mp hl
  rw [← List.append_assoc] at hw
  rw [Function.update_self, List.append_cancel_right hw]
  exact ⟨rfl, v, rfl, hv⟩

/-- The last group of the sub-link pattern ends the one it stands in. -/
theorem subQuery_group {s t : Str} {c d : Groups UInt8} (h : Parses subQuery s c t d)
    (hc : c 5 = []) : s = d 4 ++ t ∧ ∃ tail, d 4 = ch '/' :: tail ++ d 5 := by
  obtain ⟨w, e, rfl, ⟨u, e', hl, v, e'', ⟨x, rfl, -, rfl⟩, ho⟩, rfl⟩ := h
  obtain ⟨hw, rfl⟩ := parses_lit.mp hl
  refine ⟨by rw [Function.update_self], x, ?_⟩
  rw [Function.update_self, Function.update_of_ne (by decide)]
  obtain ⟨y, f, rfl, -, rfl⟩ | ⟨rfl, rfl⟩ := ho
  · rw [← List.append_assoc, ← List.append_assoc] at hw
    rw [Function.update_self, List.append_cancel_right hw]
    rfl
  · rw [← List.append_assoc] at hw
    rw [hc, List.append_nil, List.append_cancel_right hw]
    rfl

theorem url_groups {hostPart queryPart : Pattern UInt8} {s : Str} {m : Match UInt8}
    (h : search (.seq protocolPattern (.seq slashesPattern (.seq (.opt hostPart) queryPart))) s =
      some m) :
    ∃ before u t c e, s = before ++ u ∧ (∀ i, i ≠ 1 → i ≠ 2 → c i = []) ∧
      Parses (.opt hostPart) u c t e ∧ Parses queryPart t e m.rest m.groups := by
  obtain ⟨before, he, u₁, c₁, h₁, u₂, c₂, h₂, t, e, h₃, h₄⟩ := search_sound h
  obtain ⟨w₁, hw₁⟩ := parses_append h₁
  obtain ⟨w₂, hw₂⟩ := parses_append h₂
  refine ⟨before ++ w₁ ++ w₂, u₂, t, c₂, e, ?_, ?_, h₃, h₄⟩
  · rw [he, hw₁, hw₂]
    simp
  · intro i hi hi'
    rw [parses_frame h₂ (by simpa [slashesPattern, indices] using hi'),
      parses_frame h₁ (by simpa [protocolPattern, indices] using hi)]

/-- A text is cut by the host and query groups of either pattern, the host being optional. -/
theorem hostQuery_groups {r queryPart : Pattern UInt8} (hr : indices r = [])
    {s : Str} {m : Match UInt8}
    (h : search (.seq protocolPattern (.seq slashesPattern (.seq (.opt (.group 3
      (.seq (plus true wordChar) (.seq (.sym dot) r)))) queryPart))) s = some m)
    (h3 : 3 ∉ indices queryPart) :
    ∃ before t e, s = before ++ (m.groups 3 ++ t) ∧
      (m.groups 3 = [] ∨ ∃ x y tail, m.groups 3 = x :: y :: tail ∧ wordChar x = true) ∧ e 5 = [] ∧
      Parses queryPart t e m.rest m.groups := by
  obtain ⟨before, u, t, c, e, rfl, hc, ho, hq⟩ := url_groups h
  have h3' : m.groups 3 = e 3 := parses_frame hq h3
  obtain ho | ⟨rfl, rfl⟩ := ho
  · obtain ⟨rfl, hx, hf⟩ := host_group hr ho
    refine ⟨before, t, e, by rw [h3'], .inr (by rwa [h3']), ?_, hq⟩
    rw [hf 5 (by decide), hc 5 (by decide) (by decide)]
  · refine ⟨before, t, e, ?_, .inl ?_, hc 5 (by decide) (by decide), hq⟩
    · rw [h3', hc 3 (by decide) (by decide), List.nil_append]
    · rw [h3', hc 3 (by decide) (by decide)]

/-- The constructor's pattern takes no line terminator into the host or the query. -/
theorem resolved_of_urlToLink {html : Str} {link : Link} (h : urlToLink html = .ok link) :
    Resolved link := by
  rw [urlToLink, groupsOf] at h
  cases hs : search firstUrl html with
  | none => simp [hs] at h
  | some m =>
    obtain ⟨before, u, t, c, e, -, hc, ho, hq⟩ := url_groups hs
    obtain ⟨-, tail, h4, htail⟩ := firstQuery_group hq
    have h3 : m.groups 3 = e 3 := parses_frame hq (by decide)
    simp only [hs] at h
    split_ifs at h with h1 h3' h4'
    · cases h
      obtain ho | ⟨-, rfl⟩ := ho
      · obtain ⟨-, hhost, -⟩ := host_group rfl ho
        refine ⟨by rwa [h3], ⟨tail, h4⟩, fun b hb => ?_⟩
        rw [h4, h3] at hb
        obtain hb | hb := List.mem_append.mp hb
        · exact firstHost_dots ho b hb
        · obtain rfl | hb := List.mem_cons.mp hb
          · rfl
          · exact htail b hb
      · rw [h3, hc 3 (by decide) (by decide)] at h3'
        exact absurd rfl h3'
    · rw [h4] at h4'
      exact absurd (Nat.succ_ne_zero _) h4'

theorem urlToLinkFrom_host (href : Str) (parent : Link) :
    (urlToLinkFrom href parent).host = parent.host ∨
      (∃ x y tail, (urlToLinkFrom href parent).host = x :: y :: tail ∧ wordChar x = true) ∧
        ∀ b ∈ (urlToLinkFrom href parent).host, b ∈ href := by
  rw [urlToLinkFrom, groupsOf]
  cases hs : search subUrl href with
  | none => exact .inl rfl
  | some m =>
    obtain ⟨before, t, e, he, h3, -, -⟩ := hostQuery_groups rfl hs (by decide)
    dsimp only
    split_ifs with h
    · refine .inr ⟨h3.resolve_left fun h3' => h (by rw [h3']; rfl), fun b hb => ?_⟩
      rw [he]
      exact List.mem_append_right _ (List.mem_append_left _ hb)
    · exact .inl rfl

theorem urlToLinkFrom_query (href : Str) (parent : Link) :
    ∃ tail, (urlToLinkFrom href parent).query = ch '/' :: tail ∧ ∀ b ∈ tail, b ∈ href := by
  rw [urlToLinkFrom, groupsOf]
  cases hs : search subUrl href with
  | none => exact ⟨[], rfl, nofun⟩
  | some m =>
    obtain ⟨before, t, e, he, -, h5, hq⟩ := hostQuery_groups rfl hs (by decide)
    obtain ⟨rfl, tail, h4⟩ := subQuery_group hq h5
    refine ⟨tail, ?_, fun b hb => ?_⟩
    · have hlen : (m.groups 4).length - (m.groups 5).length = (ch '/' :: tail).length := by
        rw [h4, List.length_append, Nat.add_sub_cancel]
      dsimp only
      rw [if_pos (by simp [h4]), hlen]
      split_ifs with h
      · rw [h4, List.length_eq_zero_iff.mp h, List.append_nil]
      · rw [h4, List.take_left]
    · rw [he, h4]
      simp [hb]

theorem resolved_of_urlToLinkFrom {href : Str} {parent : Link} (hp : Resolved parent)
    (hl : ∀ b ∈ href, dot b = true) : Resolved (urlToLinkFrom href parent) := by
  obtain ⟨tail, hq, hqb⟩ := urlToLinkFrom_query href parent
  have query : ∀ b ∈ (urlToLinkFrom href parent).query, dot b = true := by
    intro b hb
    rw [hq] at hb
    obtain rfl | hb := List.mem_cons.mp hb
    · rfl
    · exact hl b (hqb b hb)
  obtain hh | ⟨hh, hhb⟩ := urlToLinkFrom_host href parent
  · refine ⟨by rw [hh]; exact hp.host, ⟨tail, hq⟩, fun b hb => ?_⟩
    rw [hh] at hb
    obtain hb | hb := List.mem_append.mp hb
    · exact hp.line b (List.mem_append_left _ hb)
    · exact query b hb
  · refine ⟨hh, ⟨tail, hq⟩, fun b hb => ?_⟩
    obtain hb | hb := List.mem_append.mp hb
    · exact hl b (hhb b hb)
    · exact query b hb

/-- The host of a link is part of the text it was read from. -/
theorem urlToLink_host {html : Str} {link : Link} (h : urlToLink html = .ok link) :
    ∀ b ∈ link.host, b ∈ html := by
  rw [urlToLink, groupsOf] at h
  cases hs : search firstUrl html with
  | none => simp [hs] at h
  | some m =>
    obtain ⟨before, u, t, c, e, rfl, hc, ho, hq⟩ := url_groups hs
    have h3 : m.groups 3 = e 3 := parses_frame hq (by decide)
    have hhost : ∀ b ∈ m.groups 3, b ∈ before ++ u := by
      intro b hb
      rw [h3] at hb
      obtain ho | ⟨-, rfl⟩ := ho
      · obtain ⟨rfl, -, -⟩ := host_group rfl ho
        exact List.mem_append_right _ (List.mem_append_left _ hb)
      · rw [hc 3 (by decide) (by decide)] at hb
        cases hb
    simp only [hs] at h
    split_ifs at h
    · cases h
      exact hhost
    · cases h
      exact hhost

def scheme : TProtocol → Str
  | .HTTP => str "http"
  | .HTTPS => str "https"

theorem linkToURL_eq (link : Link) :
    linkToURL link = scheme link.protocol ++ (str "://" ++ (link.host ++ link.query)) := by
  have hh : str "http://" = str "http" ++ str "://" := by decide
  have hs : str "https://" = str "https" ++ str "://" := by decide
  cases hp : link.protocol with
  | HTTP => rw [linkToURL, if_pos hp, hh, scheme, List.append_assoc, List.append_assoc]
  | HTTPS =>
    rw [linkToURL, if_neg (by rw [hp]; decide), hs, scheme, List.append_assoc, List.append_assoc]

/-- The bytes of a sub-link come from the scheme, the host of its page and the `href`. -/
theorem forall_subLink {p : UInt8 → Prop} {href : Str} {parent : Link}
    (hs : ∀ b ∈ str "https://", p b) (hp : ∀ b ∈ parent.host, p b) (hr : ∀ b ∈ href, p b) :
    ∀ b ∈ linkToURL (urlToLinkFrom href parent), p b := by
  have hscheme : ∀ protocol, ∀ b ∈ scheme protocol ++ str "://", b ∈ str "https://" := by
    intro protocol
    cases protocol <;> decide +kernel
  intro b hb
  rw [linkToURL_eq, ← List.append_assoc] at hb
  obtain hb | hb := List.mem_append.mp hb
  · exact hs b (hscheme _ b hb)
  · obtain hb | hb := List.mem_append.mp hb
    · obtain hh | ⟨-, hh⟩ := urlToLinkFrom_host href parent
      · exact hp b (hh ▸ hb)
      · exact hr b (hh b hb)
    · obtain ⟨tail, hq, hqb⟩ := urlToLinkFrom_query href parent
      rw [hq] at hb
      obtain rfl | hb := List.mem_cons.mp hb
      · exact hs _ (by decide)
      · exact hr b (hqb b hb)

theorem takes_slashes (s : Str) :
    Takes slashesPattern (str "://") s fun c => Function.update c 2 (str "://") := by
  have hc : str "://" = str ":" ++ str "//" := by decide
  have h := takes_seq (takes_opt (takes_lit (str ":") (str "//" ++ s))) (takes_lit (str "//") s)
  rw [← hc] at h
  exact takes_opt (takes_group 2 h)

theorem takes_protocol (p : TProtocol) (s : Str) :
    Takes protocolPattern (scheme p) (str "://" ++ s) fun c => Function.update c 1 (scheme p) := by
  refine takes_opt (takes_group 1 ?_)
  cases p with
  | HTTP =>
    have hn : ∀ t c d, ¬ Parses (lit (str "s")) (str "://" ++ s) c t d := by
      intro t c d h
      exact absurd (parses_lit.mp h).1 (by simp [str, String.utf8EncodeChar])
    have h := takes_seq (takes_lit (str "http") ([] ++ (str "://" ++ s))) (takes_skip hn)
    rwa [List.append_nil] at h
  | HTTPS =>
    have hc : str "https" = str "http" ++ str "s" := by decide
    have h := takes_seq (takes_lit (str "http") (str "s" ++ (str "://" ++ s)))
      (takes_opt (takes_lit (str "s") (str "://" ++ s)))
    rwa [← hc] at h

theorem takes_firstQuery {tail : Str} (rest : Str) (h : ∀ b ∈ tail, dot b = true)
    (hr : ∀ b ∈ rest.head?, dot b = false) :
    Takes firstQuery (ch '/' :: tail) rest fun c => Function.update c 4 (ch '/' :: tail) :=
  takes_group 4 (takes_seq (takes_lit (str "/") (tail ++ rest)) (takes_star h hr))

/-- The constructor finds some host and query in what follows the scheme, and nothing is lost
between the two. -/
theorem matchAt_hostQuery {link : Link} (hl : Resolved link) (c : Groups UInt8)
    (k : Str → Groups UInt8 → Match UInt8) :
    ∃ d : Groups UInt8, d 3 ≠ [] ∧ d 4 ≠ [] ∧ d 3 ++ d 4 = link.host ++ link.query ∧ d 1 = c 1 ∧
      matchAt (.seq (.opt firstHost) firstQuery) (link.host ++ link.query) c
        (fun t e => some (k t e)) = some (k [] d) := by
  obtain ⟨x, y, tail, hhost, hx⟩ := hl.host
  obtain ⟨z, hquery⟩ := hl.query
  have hline : ∀ b ∈ x :: y :: tail ++ ch '/' :: z, dot b = true := by
    rw [← hhost, ← hquery]
    exact hl.line
  have hz : ∀ b ∈ z, dot b = true := fun b hb => hline b (by simp [hb])
  have hsome : (matchAt firstHost (link.host ++ link.query) c fun t e =>
      matchAt firstQuery t e fun t e => some (k t e)).isSome := by
    rw [hhost, hquery]
    -- one way to split the text is enough: the shortest host
    have hp : Parses firstHost (x :: y :: tail ++ ch '/' :: z) c (ch '/' :: z)
        (Function.update c 3 (x :: y :: tail)) := by
      refine ⟨x :: y :: tail, c, rfl, ⟨y :: tail ++ ch '/' :: z, c, ?_, tail ++ ch '/' :: z, c, ?_, ?_⟩, rfl⟩
      · exact parses_plus.mpr ⟨x, [], rfl, by simpa using hx, rfl⟩
      · exact ⟨y, rfl, hline y (by simp), rfl⟩
      · exact ⟨tail, rfl, fun b hb => hline b (by simp [hb]), rfl⟩
    refine matchAt_complete hp ?_
    have hq := takes_firstQuery [] hz nofun (Match UInt8) (Function.update c 3 (x :: y :: tail))
      (fun t e => some (k t e)) rfl
    rw [List.append_nil] at hq
    rw [hq]
    rfl
  obtain ⟨m, hm⟩ := Option.isSome_iff_exists.mp hsome
  obtain ⟨t, d, hd, ht⟩ := matchAt_sound hm
  obtain ⟨he, ⟨x', y', tail', hd3, -⟩, hframe⟩ := host_group rfl hd
  obtain ⟨t', e, hq, -⟩ := matchAt_sound ht
  obtain ⟨w, hw⟩ : ∃ w, t = ch '/' :: w := by
    obtain ⟨htw, w, hw, -⟩ := firstQuery_group hq
    exact ⟨w ++ t', by rw [htw, hw]; rfl⟩
  have hwl : ∀ b ∈ w, dot b = true := by
    intro b hb
    refine hl.line b ?_
    rw [he, hw]
    simp [hb]
  have hq' := takes_firstQuery [] hwl nofun (Match UInt8) d (fun t e => some (k t e)) rfl
  rw [List.append_nil, ← hw, ht] at hq'
  refine ⟨Function.update d 4 t, ?_, ?_, ?_, ?_, ?_⟩
  · rw [Function.update_of_ne (by decide), hd3]
    simp
  · rw [Function.update_self, hw]
    simp
  · rw [Function.update_of_ne (by decide), Function.update_self, he]
  · rw [Function.update_of_ne (by decide), hframe 1 (by decide)]
  · rw [matchAt, matchAt_opt hsome, hm, hq']

/-- What the constructor reads in the URL of a link, down to the search behind the scheme. -/
theorem read_linkToURL {link : Link} (hl : Resolved link) :
    ∃ (c d : Groups UInt8) (k : Str → Groups UInt8 → Match UInt8),
      c 3 = [] ∧ c 4 = [] ∧ (∀ t e, (k t e).groups = e) ∧
      matchAt (.seq (.opt firstHost) firstQuery) (link.host ++ link.query) c
        (fun t e => some (k t e)) = some (k [] d) ∧
      d 3 ++ d 4 = link.host ++ link.query ∧
      urlToLink (linkToURL link) = .ok ⟨link.protocol, d 3, d 4⟩ := by
  obtain ⟨d, h3, h4, hd, h1, hm⟩ := matchAt_hostQuery hl
    (Function.update (Function.update (fun _ => []) 1 (scheme link.protocol)) 2 (str "://"))
    (fun t e => ⟨taken (linkToURL link) t, e, t⟩)
  have h1' : d 1 = scheme link.protocol := by
    rw [h1, Function.update_of_ne (by decide), Function.update_self]
  have hslash := takes_slashes (link.host ++ link.query) (Match UInt8)
    (Function.update (fun _ => []) 1 (scheme link.protocol))
    (fun t e => matchAt (.seq (.opt firstHost) firstQuery) t e
      fun t e => some ⟨taken (linkToURL link) t, e, t⟩) (by rw [hm]; rfl)
  have hproto := takes_protocol link.protocol (link.host ++ link.query) (Match UInt8) (fun _ => [])
    (fun t e => matchAt (.seq slashesPattern (.seq (.opt firstHost) firstQuery)) t e
      fun t e => some ⟨taken (linkToURL link) t, e, t⟩) (by rw [matchAt, hslash, hm]; rfl)
  have hs : searchAt firstUrl (linkToURL link) =
      some ⟨taken (linkToURL link) [], d, []⟩ := by
    rw [searchAt, firstUrl, matchAt]
    conv_lhs => arg 2; rw [linkToURL_eq]
    rw [hproto, matchAt, hslash, hm]
  have hg : groupsOf firstUrl (linkToURL link) = d := by
    rw [groupsOf, search_of_searchAt hs]
  have hp : protocolOf (scheme link.protocol) = link.protocol := by
    cases link.protocol <;> decide
  have hne : (scheme link.protocol).length ≠ 0 := by
    cases link.protocol <;> decide
  refine ⟨_, d, _, rfl, rfl, fun t e => rfl, hm, hd, ?_⟩
  rw [urlToLink, hg, h1', if_pos hne, hp, if_pos (by simpa using h3), if_pos (by simpa using h4)]

/-- Reading back the URL of a link gives a link with the same URL, though not always with the
same host. -/
theorem urlToLink_linkToURL {link : Link} (hl : Resolved link) :
    ∃ link', urlToLink (linkToURL link) = .ok link' ∧ linkToURL link' = linkToURL link := by
  obtain ⟨c, d, k, -, -, -, -, hd, hu⟩ := read_linkToURL hl
  exact ⟨_, hu, by rw [linkToURL_eq, linkToURL_eq, hd]⟩

theorem blocks_hostQuery {z : Str} (hz : ∀ b ∈ z.head?, dot b = false) :
    Blocks z (.seq (.opt firstHost) firstQuery) := by
  have hword : ∀ b ∈ z.head?, wordChar b = false := by
    intro b hb
    cases hw : wordChar b with
    | false => rfl
    | true => exact absurd (dot_of_wordChar hw) (by simp [hz b hb])
  have hslash : Blocks z (lit (str "/")) := by
    refine blocks_lit fun b hb hm => ?_
    have hd : ∀ c ∈ str "/", dot c = true := by decide +kernel
    exact absurd (hd b hm) (by simp [hz b hb])
  exact ⟨⟨⟨hword, hword⟩, hz, hz⟩, hslash, hz⟩

/-- What the constructor's pattern takes from a text, with the part of the text that it takes. -/
theorem search_firstUrl {html : Str} {m : Match UInt8} (h : search firstUrl html = some m) :
    ∃ (u z : Str) (c : Groups UInt8) (k : Str → Groups UInt8 → Match UInt8),
      (∀ i, i ≠ 1 → i ≠ 2 → c i = []) ∧ (∀ b ∈ z.head?, dot b = false) ∧
      (∀ t e, (k t e).groups = e) ∧ m.groups 4 ≠ [] ∧ (m.groups 3 = [] ∨ u = m.groups 3 ++ m.groups 4) ∧
      matchAt (.seq (.opt firstHost) firstQuery) (u ++ z) c (fun t e => some (k t e)) = some m := by
  obtain ⟨t, ht⟩ := searchAt_of_search h
  rw [searchAt, firstUrl, matchAt] at ht
  obtain ⟨u₁, c₁, hp₁, ht⟩ := matchAt_sound (r := protocolPattern) ht
  rw [matchAt] at ht
  obtain ⟨u, c₂, hp₂, ht⟩ := matchAt_sound (r := slashesPattern) ht
  have hc : ∀ i, i ≠ 1 → i ≠ 2 → c₂ i = [] := by
    intro i hi hi'
    rw [parses_frame hp₂ (by simpa [slashesPattern, indices] using hi'),
      parses_frame hp₁ (by simpa [protocolPattern, indices] using hi)]
  have hwhole := ht
  rw [matchAt] at ht
  obtain ⟨v, e, hv, hq⟩ := matchAt_sound (r := .opt firstHost) ht
  obtain ⟨t', e', hq', -⟩ := matchAt_sound hq
  obtain ⟨hvt, w', hw', -⟩ := firstQuery_group hq'
  -- the query runs to the end of the line
  have hsplit : v = ch '/' :: (w' ++ t').takeWhile dot ++ (w' ++ t').dropWhile dot := by
    rw [hvt, hw', List.cons_append, List.cons_append, List.takeWhile_append_dropWhile]
  have hstop : ∀ b ∈ ((w' ++ t').dropWhile dot).head?, dot b = false := by
    intro b hb
    have hnot := List.head?_dropWhile_not dot (w' ++ t')
    rw [Option.mem_def.mp hb] at hnot
    simpa using hnot
  have hline : ∀ b ∈ (w' ++ t').takeWhile dot, dot b = true := fun b hb => List.mem_takeWhile_imp hb
  have hfirst := takes_firstQuery _ hline hstop (Match UInt8) e
    (fun t₃ e₃ => some ⟨taken t t₃, e₃, t₃⟩) rfl
  rw [← hsplit, hq] at hfirst
  have hm := Option.some.inj hfirst
  have hg3 : m.groups 3 = e 3 := by
    rw [hm]
    dsimp only
    rw [Function.update_of_ne (by decide)]
  have hg4 : m.groups 4 = ch '/' :: (w' ++ t').takeWhile dot := by
    rw [hm]
    dsimp only
    rw [Function.update_self]
  obtain hv | ⟨rfl, rfl⟩ := hv
  · obtain ⟨hu, -, -⟩ := host_group rfl hv
    rw [hsplit, ← hg3, ← hg4, ← List.append_assoc] at hu
    rw [hu] at hwhole
    exact ⟨_, _, c₂, _, hc, hstop, fun _ _ => rfl, by simp [hg4], .inr rfl, hwhole⟩
  · rw [hsplit] at hwhole
    exact ⟨_, _, e, _, hc, hstop, fun _ _ => rfl, by simp [hg4],
      .inl (by rw [hg3, hc 3 (by decide) (by decide)]), hwhole⟩

/-- The host and the query do not depend on what stands behind the line. -/
theorem groups_blocked {z : Str} (hz : ∀ b ∈ z.head?, dot b = false)
    {k k' : Str → Groups UInt8 → Match UInt8} (hk : ∀ t e, (k t e).groups = e)
    (hk' : ∀ t e, (k' t e).groups = e) {c c' : Groups UInt8} (h3 : c 3 = c' 3) (h4 : c 4 = c' 4)
    (u : Str) :
    (matchAt (.seq (.opt firstHost) firstQuery) (u ++ z) c fun t e => some (k t e)).map
        (fun m => (m.groups 3, m.groups 4)) =
      (matchAt (.seq (.opt firstHost) firstQuery) u c' fun t e => some (k' t e)).map
        (fun m => (m.groups 3, m.groups 4)) := by
  refine matchAt_blocked (blocks_hostQuery hz) (R := fun a b => a 3 = b 3 ∧ a 4 = b 4)
    (fun a b i w hab => ?_) (fun t a b hab => ?_) ⟨h3, h4⟩
  · constructor
    · simp only [Function.update_apply, hab.1]
    · simp only [Function.update_apply, hab.2]
  · rw [Option.map_some, Option.map_some, hk, hk', hab.1, hab.2]

/-- A link that the constructor has read is what it reads in the URL of the link. -/
theorem urlToLink_idem {html : Str} {link : Link} (h : urlToLink html = .ok link) :
    urlToLink (linkToURL link) = .ok link := by
  obtain ⟨c, d, k, hc3, hc4, hk, hm, hd, hu⟩ := read_linkToURL (resolved_of_urlToLink h)
  rw [urlToLink, groupsOf] at h
  cases hs : search firstUrl html with
  | none => simp [hs] at h
  | some m =>
    obtain ⟨u, z, c', k', hc', hz, hk', hquery, hcut, hm'⟩ := search_firstUrl hs
    simp only [hs] at h
    split_ifs at h with h1 h3 h4
    · cases h
      obtain rfl := hcut.resolve_left fun he => h3 (by rw [he]; rfl)
      have hrel := groups_blocked hz hk' hk
        ((hc' 3 (by decide) (by decide)).trans hc3.symm) ((hc' 4 (by decide) (by decide)).trans hc4.symm)
        (m.groups 3 ++ m.groups 4)
      rw [hm', hm, Option.map_some, Option.map_some, hk] at hrel
      obtain ⟨hd3, hd4⟩ := Prod.mk.inj (Option.some.inj hrel)
      rw [hu, hd3, hd4]
    · exact absurd (fun he => hquery (List.length_eq_zero_iff.mp he)) h4

theorem new_linkToURL {link : Link} (hl : Resolved link) :
    ∃ parser, HtmlParser.new (linkToURL link) = .ok parser ∧ parser.getURL = linkToURL link := by
  obtain ⟨link', h, hu⟩ := urlToLink_linkToURL hl
  exact ⟨⟨_, link'⟩, by rw [HtmlParser.new, h]; rfl, hu⟩

/-- The URL of a sub-link is the key under which its page is stored. -/
theorem getURL_of_subLink (first href : Str) (parent : Link) (hp : urlToLink first = .ok parent)
    (hl : ∀ b ∈ href, dot b = true) :
    ∃ parser, HtmlParser.new (linkToURL (urlToLinkFrom href parent)) = .ok parser ∧
      parser.getURL = linkToURL (urlToLinkFrom href parent) :=
  new_linkToURL (resolved_of_urlToLinkFrom (resolved_of_urlToLink hp) hl)

theorem getURL_of_relative :
    urlToLink (str "http://a.b/x") = .ok ⟨.HTTP, str "a.b", str "/x"⟩ ∧
    linkToURL (urlToLinkFrom (str "/c") ⟨.HTTP, str "a.b", str "/x"⟩) = str "http://a.b/c" ∧
    ∃ parser,
      HtmlParser.new (linkToURL (urlToLinkFrom (str "/c") ⟨.HTTP, str "a.b", str "/x"⟩)) = .ok parser ∧
      parser.getURL = linkToURL (urlToLinkFrom (str "/c") ⟨.HTTP, str "a.b", str "/x"⟩) := by
  have hp : urlToLink (str "http://a.b/x") = .ok ⟨.HTTP, str "a.b", str "/x"⟩ := by decide +kernel
  exact ⟨hp, by decide +kernel,
    getURL_of_subLink (str "http://a.b/x") (str "/c") _ hp (by decide +kernel)⟩

end SpiderSearch.UrlKey
