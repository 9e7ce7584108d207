import SpiderSearch.Hrefs
import SpiderSearch.Parse
import SpiderSearch.UrlCut

namespace SpiderSearch.Redirects

open CppTypes Links UrlGroups RelativeLinks UrlCut Hrefs Parse

/-- What the client keeps of a response: the names of the fields are as the server spelled them. -/
structure Response where
  result_int : Nat
  base : List (Str × Str)
  body : Str

/-- The answers of the servers; `none` where connecting, sending or reading throws. -/
abbrev Http := Link → Option Response

def isText (b : Str) : Bool := b.all (· ≠ 0)

/-- The body that is kept. -/
def textOf (res : Response) : Str := if isText res.body then res.body else []

def getContent_Redirect (http : Http) (url : Link) : Str :=
  match http url with
  | none => []
  | some res => textOf res

/-- The loop over the fields, up to its `break`. -/
def findLocation : List (Str × Str) → Option Str
  | [] => none
  | (name_string, value) :: h =>
    if name_string = str "location" then some value else findLocation h

/-- `redirectLink`, `none` where it stays as it was declared. -/
def redirectLink (url : Link) (res : Response) : Option Link :=
  if res.result_int = 301 ∨ res.result_int = 307 then
    (findLocation res.base).map fun Redirect_URL => urlToLinkFrom Redirect_URL url
  else none

/-- Both branches of `getContent`, which treat the response alike. -/
def getContent (http : Http) (url : Link) : Str :=
  match http url with
  | none => []
  | some res =>
    match redirectLink url res with
    | none => textOf res
    | some link => if link.host ≠ [] then getContent_Redirect http link else textOf res

/-- The link whose body is returned for the response of the first link. -/
def followed (url : Link) (res : Response) : Link :=
  match redirectLink url res with
  | none => url
  | some link => if link.host ≠ [] then link else url

def servedFrom (http : Http) (url : Link) : Link :=
  match http url with
  | none => url
  | some res => followed url res

theorem getContent_of_response {http : Http} {url : Link} {res : Response}
    (h : http url = some res) : getContent http url = getContent_Redirect http (followed url res) := by
  have hself : getContent_Redirect http url = textOf res := by rw [getContent_Redirect, h]
  rw [getContent, h, followed]
  dsimp only
  cases redirectLink url res with
  | none => exact hself.symm
  | some link =>
    dsimp only
    split_ifs
    · rfl
    · exact hself.symm

theorem getContent_eq (http : Http) (url : Link) :
    getContent http url = getContent_Redirect http (servedFrom http url) := by
  cases h : http url with
  | none => rw [getContent, servedFrom, h, getContent_Redirect, h]
  | some res => rw [getContent_of_response h, servedFrom, h]

/-- A web that tells three links apart by what they answer. -/
def threeBodies (url target : Link) (res : Response) : Http := fun link =>
  if link = url then some res
  else if link = target then some ⟨200, [], textOf res ++ str "a"⟩
  else some ⟨200, [], textOf res ++ str "aa"⟩

theorem isText_textOf (res : Response) : isText (textOf res) = true := by
  rw [textOf]
  split_ifs with h
  · exact h
  · rfl

theorem content_threeBodies (url target : Link) (res : Response) (link : Link) :
    getContent_Redirect (threeBodies url target res) link =
      if link = url then textOf res
      else if link = target then textOf res ++ str "a" else textOf res ++ str "aa" := by
  have htext : ∀ w, isText w = true →
      textOf ⟨200, [], textOf res ++ w⟩ = textOf res ++ w := by
    intro w hw
    apply if_pos
    rw [isText, List.all_append, Bool.and_eq_true]
    exact ⟨isText_textOf res, hw⟩
  rw [getContent_Redirect, threeBodies]
  by_cases h1 : link = url
  · rw [if_pos h1, if_pos h1]
  rw [if_neg h1, if_neg h1]
  by_cases h2 : link = target
  · rw [if_pos h2, if_pos h2]
    exact htext (str "a") (by decide)
  · rw [if_neg h2, if_neg h2]
    exact htext (str "aa") (by decide)

/-- Whatever the servers answer, the content is that of `target` only where `target` is followed. -/
theorem content_iff (url target : Link) (res : Response) :
    (∀ http : Http, http url = some res → getContent http url = getContent_Redirect http target) ↔
      followed url res = target := by
  apply Iff.intro
  · intro h
    by_contra hne
    have hc := h (threeBodies url target res) (if_pos rfl)
    rw [getContent_of_response (if_pos rfl), content_threeBodies, content_threeBodies] at hc
    by_cases ht : target = url
    · rw [ht] at hne hc
      rw [if_neg hne, if_neg hne, if_pos rfl] at hc
      exact absurd (List.append_right_eq_self.mp hc) (by decide)
    rw [if_neg ht, if_pos rfl] at hc
    by_cases hf : followed url res = url
    · rw [if_pos hf] at hc
      exact absurd (List.append_right_eq_self.mp hc.symm) (by decide)
    · rw [if_neg hf, if_neg hne] at hc
      exact absurd (List.append_cancel_left hc) (by decide)
  · rintro rfl http hhttp
    exact getContent_of_response hhttp

/-- The value of the first field that is a `Location` in any spelling. -/
def locationOf (base : List (Str × Str)) : Option Str :=
  (base.find? fun h => toLower h.1 = str "location").map Prod.snd

theorem followed_of_location {url : Link} {res : Response}
    (hstatus : res.result_int = 301 ∨ res.result_int = 307) {v : Str}
    (hv : findLocation res.base = some v) :
    followed url res = if (urlToLinkFrom v url).host ≠ [] then urlToLinkFrom v url else url := by
  rw [followed, redirectLink, if_pos hstatus, hv]
  rfl

theorem followed_of_noLocation {url : Link} {res : Response} (hv : findLocation res.base = none) :
    followed url res = url := by
  rw [followed, redirectLink, hv, Option.map_none, ite_self]

/-- A redirect is followed exactly when a field spelled `location` in small letters leads where the
first `Location` does, or no such field leads anywhere and the first `Location` is the page itself. -/
theorem redirect_iff (url : Link) (res : Response) (value : Str)
    (hstatus : res.result_int = 301 ∨ res.result_int = 307) :
    locationOf res.base = some value →
      ((∀ http : Http, http url = some res →
        getContent http url = getContent_Redirect http (urlToLinkFrom value url)) ↔
        (∃ v, findLocation res.base = some v ∧ (urlToLinkFrom v url).host ≠ [] ∧
          urlToLinkFrom v url = urlToLinkFrom value url) ∨
        (∀ v, findLocation res.base = some v → (urlToLinkFrom v url).host = []) ∧
          urlToLinkFrom value url = url) := by
  intro _
  rw [content_iff]
  cases hv : findLocation res.base with
  | none =>
    rw [followed_of_noLocation hv]
    apply Iff.intro
    · exact fun h => .inr ⟨nofun, h.symm⟩
    · rintro (⟨v, h, -⟩ | ⟨-, h⟩)
      · cases h
      · exact h.symm
  | some v =>
    rw [followed_of_location hstatus hv]
    by_cases hh : (urlToLinkFrom v url).host = []
    · rw [if_neg (not_not.mpr hh)]
      apply Iff.intro
      · intro h
        exact .inr ⟨fun w hw => Option.some.inj hw ▸ hh, h.symm⟩
      · rintro (⟨w, hw, hne, -⟩ | ⟨-, h⟩)
        · exact absurd (Option.some.inj hw ▸ hh) hne
        · exact h.symm
    · rw [if_pos hh]
      apply Iff.intro
      · exact fun h => .inl ⟨v, rfl, hh, h⟩
      · rintro (⟨w, hw, -, h⟩ | ⟨hall, -⟩)
        · rw [Option.some.inj hw, h]
        · exact absurd (hall v rfl) hh

/-- A page that has moved, as most servers spell it. -/
def moved : Response := ⟨301, [(str "Location", str "http://b.org/")], []⟩

def site : Link := ⟨.HTTP, str "a.org", str "/"⟩

theorem moved_location : locationOf moved.base = some (str "http://b.org/") := by decide +kernel

theorem moved_iff :
    (∀ http : Http, http site = some moved →
      getContent http site = getContent_Redirect http (urlToLinkFrom (str "http://b.org/") site)) ↔
      (∃ v, findLocation moved.base = some v ∧ (urlToLinkFrom v site).host ≠ [] ∧
        urlToLinkFrom v site = urlToLinkFrom (str "http://b.org/") site) ∨
      (∀ v, findLocation moved.base = some v → (urlToLinkFrom v site).host = []) ∧
        urlToLinkFrom (str "http://b.org/") site = site :=
  redirect_iff site moved (str "http://b.org/") (.inl rfl) moved_location

/-- The field names are compared as the server spelled them. -/
theorem capital_missed : ¬ ∀ (url : Link) (res : Response) (value : Str),
    res.result_int = 301 ∨ res.result_int = 307 → locationOf res.base = some value →
      ∀ http : Http, http url = some res →
        getContent http url = getContent_Redirect http (urlToLinkFrom value url) := by
  intro h
  have hsite := (content_iff site _ moved).mp (h site moved _ (.inl rfl) moved_location)
  rw [followed_of_noLocation (by decide +kernel)] at hsite
  exact absurd (congrArg Link.host hsite) (by decide +kernel)

/-- A reference that starts with a single slash. -/
def Rooted (href : Str) : Prop := href.head? = some (ch '/') ∧ ¬ str "//" <+: href

def SameSite (link link' : Link) : Prop := link.protocol = link'.protocol ∧ link.host = link'.host

theorem cut_of_rooted {href p w host rest : Str} (h : Rooted href)
    (hc : Cut SubTail href p w host rest) : p = [] ∧ rest = href := by
  obtain ⟨hhead, hslashes⟩ := h
  obtain ⟨he, hp, hw, hh, -⟩ := hc
  have hstart : ∀ {v t : Str} {c : UInt8}, v.head? = some c → href = v ++ t → c = ch '/' := by
    rintro v t c hv rfl
    rw [List.head?_append, hv] at hhead
    exact Option.some.inj hhead
  obtain rfl | rfl | rfl := hp
  · obtain rfl | rfl | rfl := hw
    · obtain rfl | hh := hh
      · exact ⟨rfl, he.symm⟩
      · obtain ⟨x, t, rfl, hx⟩ := head_hostText hh
        rw [hstart (v := x :: t) rfl he] at hx
        exact absurd hx (by decide)
    · exact absurd ⟨_, he.symm⟩ hslashes
    · exact absurd (hstart (v := str "://") rfl he) (by decide)
  · exact absurd (hstart rfl he) (by decide)
  · exact absurd (hstart rfl he) (by decide)

theorem firstCut_rooted {href : Str} (h : Rooted href) : FirstCut href [] [] [] [] href := by
  refine ⟨rfl, cut_of_slash h.1, fun _ _ => Nat.zero_le _, ?_, ?_⟩
  · intro p w host r hc
    rw [(cut_of_rooted h hc).1]
  · intro w host r hc
    rw [(cut_of_rooted h hc).2]

/-- A rooted reference stays on the site of the link it is resolved against. -/
theorem urlToLinkFrom_rooted {href : Str} (h : Rooted href) (parent : Link) :
    SameSite (urlToLinkFrom href parent) parent := by
  rw [(firstCut_rooted h).urlToLinkFrom_eq]
  exact ⟨rfl, rfl⟩

/-- The sub-links of a page are those of its `href`s. -/
theorem mem_subLinks {html href : Str} {link : Link} {links : List Str}
    (hl : extractLink html link = some links) (hm : href ∈ hrefs html)
    (hh : href.head? ≠ some (ch '#')) : linkToURL (urlToLinkFrom href link) ∈ links := by
  have hne : [] ∉ hrefs html := by
    intro he
    rw [extractLink_eq_none he] at hl
    cases hl
  obtain ⟨links', hl', hf⟩ := extractLink_some hne link
  obtain rfl := Option.some.inj (hl.symm.trans hl')
  apply (hf.mem _).mpr
  exact List.mem_map_of_mem (List.mem_filter.mpr ⟨hm, decide_eq_true hh⟩)

theorem servedFrom_of_redirect {http : Http} {url target : Link} {res : Response}
    (hres : http url = some res) (htarget : redirectLink url res = some target)
    (hhost : target.host ≠ []) : servedFrom http url = target := by
  rw [servedFrom, hres]
  dsimp only
  rw [followed, htarget]
  exact if_pos hhost

theorem servedFrom_cases (http : Http) (url : Link) : servedFrom http url = url ∨
    ∃ res target, http url = some res ∧ redirectLink url res = some target ∧ target.host ≠ [] := by
  rw [servedFrom]
  cases hres : http url with
  | none => exact .inl rfl
  | some res =>
    dsimp only
    rw [followed]
    cases htarget : redirectLink url res with
    | none => exact .inl rfl
    | some target =>
      by_cases hhost : target.host = []
      · exact .inl (if_neg (not_not.mpr hhost))
      · exact .inr ⟨res, target, rfl, htarget, hhost⟩

theorem noRooted_iff (http : Http) (target : Link) :
    (∀ page, http target = some page → ∀ href ∈ hrefs (textOf page), ¬ Rooted href) ↔
      ∀ href ∈ hrefs (getContent_Redirect http target), ¬ Rooted href := by
  have hnil : hrefs [] = [] := by decide
  rw [getContent_Redirect]
  cases http target with
  | none =>
    dsimp only
    rw [hnil]
    exact iff_of_true nofun (List.forall_mem_nil _)
  | some page => simp only [Option.some.injEq, forall_eq']

/-- The rooted references are resolved where the content is from if it is from the same site, or
if there are none. -/
theorem resolved_iff (http : Http) (url : Link) :
    (∀ href ∈ hrefs (getContent http url), Rooted href →
      SameSite (urlToLinkFrom href url) (servedFrom http url)) ↔
    SameSite url (servedFrom http url) ∨ ∀ href ∈ hrefs (getContent http url), ¬ Rooted href := by
  apply Iff.intro
  · intro h
    by_cases hsite : SameSite url (servedFrom http url)
    · exact .inl hsite
    · refine .inr fun href hm hr => hsite ?_
      obtain ⟨hp, hh⟩ := h href hm hr
      obtain ⟨hp', hh'⟩ := urlToLinkFrom_rooted hr url
      exact ⟨hp'.symm.trans hp, hh'.symm.trans hh⟩
  · rintro (⟨hp, hh⟩ | hno) href hm hr
    · obtain ⟨hp', hh'⟩ := urlToLinkFrom_rooted hr url
      exact ⟨hp'.trans hp, hh'.trans hh⟩
    · exact absurd hr (hno href hm)

/-- Two sites, of which the first has moved to the second. -/
def twoSites : Http := fun link =>
  if link.host = str "a.org" then some ⟨301, [(str "location", str "http://b.org/")], []⟩
  else some ⟨200, [], str "<a href=\"/x\">"⟩

end SpiderSearch.Redirects
