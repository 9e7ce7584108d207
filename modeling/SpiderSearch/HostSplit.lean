import SpiderSearch.RelativeLinks

namespace SpiderSearch.HostSplit

open CppTypes Regex Links UrlKey UrlGroups LinkInverse RelativeLinks

def hostChar (b : UInt8) : Bool := wordChar b || b == ch '.' || b == ch ':'

/-- An absolute URL. -/
def absolute (p : TProtocol) (host path : Str) : Str :=
  scheme p ++ (str "://" ++ (host ++ path))

/-- A host that can be resolved, and a query that can be asked for. -/
def Sound (link : Link) : Prop :=
  link.host ≠ [] ∧ ch '/' ∉ link.host ∧ link.query.head? = some (ch '/')

/-- A host of name characters alone, whose path goes on as the tail of a host and a slash. -/
def Swallows (tail : Str → Prop) (host path : Str) : Prop :=
  (∀ b ∈ host, wordChar b = true) ∧ ∃ c q, path = ch '/' :: (c ++ ch '/' :: q) ∧ tail c

theorem wordChar_slash : wordChar (ch '/') = false := by decide

theorem wordChar_colon : wordChar (ch ':') = false := by decide

theorem hostChar_slash : hostChar (ch '/') = false := by decide

/-- A slash stands at one place in two cuts of a text. -/
theorem first_slash {a b s t : Str} (ha : ch '/' ∉ a) (hb : ch '/' ∉ b)
    (h : a ++ ch '/' :: s = b ++ ch '/' :: t) : a = b ∧ s = t := by
  have htake : ∀ {c u : Str}, ch '/' ∉ c → (c ++ ch '/' :: u).takeWhile notSlash = c := by
    intro c u hc
    rw [List.takeWhile_append_of_pos, List.takeWhile_cons_of_neg (by decide), List.append_nil]
    intro x hx
    rw [notSlash, bne_iff_ne]
    rintro rfl
    exact hc hx
  have hab := htake ha (u := s)
  rw [h, htake hb] at hab
  subst hab
  exact ⟨rfl, (List.cons.inj (List.append_cancel_left h)).2⟩

theorem slash_notMem_name {name : Str} (h : ∀ b ∈ name, wordChar b = true) : ch '/' ∉ name := by
  intro hm
  exact absurd (h _ hm) (Bool.eq_false_iff.mp wordChar_slash)

theorem colon_notMem_name {name : Str} (h : ∀ b ∈ name, wordChar b = true) : ch ':' ∉ name := by
  intro hm
  exact absurd (h _ hm) (Bool.eq_false_iff.mp wordChar_colon)

/-- The host group of a text whose first slash stands behind a colon has no slash. -/
theorem host_before_colon {tail : Str → Prop} (htail : ∀ c, tail c → ch '/' ∉ c)
    {a s host rest : Str} (ha : ch '/' ∉ a) (h : a ++ ch ':' :: ch '/' :: s = host ++ rest)
    (hh : HostText tail host) : ch '/' ∉ host := by
  obtain ⟨name, d, c, rfl, -, hname, -, hc⟩ := hh
  intro hm
  rw [List.mem_append, List.mem_cons] at hm
  obtain hm | rfl | hm := hm
  · exact slash_notMem_name hname hm
  · have hcut : (a ++ [ch ':']) ++ ch '/' :: s = name ++ ch '/' :: (c ++ rest) := by simpa using h
    have hac : ch '/' ∉ a ++ [ch ':'] := by
      rw [List.mem_append, List.mem_singleton, not_or]
      exact ⟨ha, by decide⟩
    have hname' := (first_slash hac (slash_notMem_name hname) hcut).1
    refine colon_notMem_name hname ?_
    rw [← hname']
    simp
  · exact htail c hc hm

theorem slash_notMem_host {host : Str} (h : ∀ b ∈ host, hostChar b = true) : ch '/' ∉ host := by
  intro hm
  exact absurd (h _ hm) (Bool.eq_false_iff.mp hostChar_slash)

/-- Where a host group takes the text behind the scheme, it is the host or swallows the path. -/
theorem host_behind_scheme {tail : Str → Prop} (htail : ∀ c, tail c → ch '/' ∉ c)
    {host path h rest : Str} (hhost : ∀ b ∈ host, hostChar b = true)
    (hpath : path.head? = some (ch '/')) (he : host ++ path = h ++ rest) (hh : HostText tail h)
    (hrest : rest.head? = some (ch '/')) (hs : ch '/' ∈ h) : Swallows tail host path := by
  obtain ⟨name, d, c, rfl, -, hname, -, hc⟩ := hh
  obtain ⟨path, rfl⟩ := List.head?_eq_some_iff.mp hpath
  obtain ⟨rest, rfl⟩ := List.head?_eq_some_iff.mp hrest
  rw [List.mem_append, List.mem_cons] at hs
  obtain hs | rfl | hs := hs
  · exact absurd hs (slash_notMem_name hname)
  · have hcut : host ++ ch '/' :: path = name ++ ch '/' :: (c ++ ch '/' :: rest) := by
      simpa using he
    obtain ⟨rfl, rfl⟩ := first_slash (slash_notMem_host hhost) (slash_notMem_name hname) hcut
    exact ⟨hname, c, rest, rfl, hc⟩
  · exact absurd hs (htail c hc)

/-- A cut of a text that begins with a name character begins with a host. -/
theorem host_of_name {tail : Str → Prop} {s w h rest : Str} {x : UInt8}
    (hx : s.head? = some x) (hword : wordChar x = true) (he : s = w ++ (h ++ rest))
    (hw : w = [] ∨ w = str "//" ∨ w = str "://") (hh : h = [] ∨ HostText tail h)
    (hr : rest.head? = some (ch '/')) : s = h ++ rest ∧ HostText tail h := by
  obtain rfl | rfl | rfl := hw
  · obtain rfl | hh := hh
    · rw [he, List.nil_append, List.nil_append, hr, Option.some.injEq] at hx
      rw [← hx, wordChar_slash] at hword
      contradiction
    · exact ⟨he, hh⟩
  · rw [he] at hx
    have hx : some (ch '/') = some x := hx
    rw [← Option.some.inj hx, wordChar_slash] at hword
    contradiction
  · rw [he] at hx
    have hx : some (ch ':') = some x := hx
    rw [← Option.some.inj hx, wordChar_colon] at hword
    contradiction

/-- Behind the whole scheme a cut takes the slashes and a host. -/
theorem host_of_slashes {tail : Str → Prop} {host path w h rest : Str} (hne : host ≠ [])
    (hhost : ∀ b ∈ host, hostChar b = true)
    (he : str "://" ++ (host ++ path) = w ++ (h ++ rest))
    (hw : w = [] ∨ w = str "//" ∨ w = str "://") (hh : h = [] ∨ HostText tail h)
    (hr : rest.head? = some (ch '/')) : host ++ path = h ++ rest ∧ HostText tail h := by
  have hhead := congrArg List.head? he
  obtain rfl | rfl | rfl := hw
  · obtain rfl | hh := hh
    · rw [List.nil_append, List.nil_append, hr] at hhead
      exact absurd (Option.some.inj hhead) (by decide)
    · obtain ⟨x, c, rfl, hx⟩ := head_hostText hh
      have hhead : some (ch ':') = some x := hhead
      rw [← Option.some.inj hhead, wordChar_colon] at hx
      contradiction
  · exact absurd (Option.some.inj hhead) (by decide)
  · have he := List.append_cancel_left he
    obtain rfl | hh := hh
    · obtain ⟨x, host, rfl⟩ := List.exists_cons_of_ne_nil hne
      rw [List.nil_append] at he
      rw [← he, List.cons_append, List.head?_cons, Option.some.injEq] at hr
      have hx := hhost x List.mem_cons_self
      rw [hr, hostChar_slash] at hx
      contradiction
    · exact ⟨he, hh⟩

/-- How an absolute URL can be cut: behind its scheme, or inside it, where no slash is taken. -/
theorem cut_cases {tail : Str → Prop} (htail : ∀ c, tail c → ch '/' ∉ c) {p : TProtocol}
    {host path q w h rest : Str} (hne : host ≠ []) (hhost : ∀ b ∈ host, hostChar b = true)
    (hc : Cut tail (absolute p host path) q w h rest) :
    q = scheme p ∧ host ++ path = h ++ rest ∧ HostText tail h ∨
      (p = .HTTP → q = []) ∧ HostText tail h ∧ ch '/' ∉ h := by
  obtain ⟨he, hq, hw, hh, hr⟩ := hc
  have hs : str "https" = str "http" ++ str "s" := by decide
  have hcolon : ∀ a, a ++ (str "://" ++ (host ++ path)) =
      a ++ ch ':' :: ch '/' :: (ch '/' :: (host ++ path)) := fun _ => rfl
  obtain rfl | rfl | rfl := hq
  · right
    have hx : (absolute p host path).head? = some (ch 'h') := by
      cases p with
      | HTTP => rfl
      | HTTPS => rfl
    rw [List.nil_append] at he
    obtain ⟨he, hh⟩ := host_of_name hx (by decide) he hw hh hr
    have ha : ch '/' ∉ scheme p := slash_notMem_name wordChar_scheme
    rw [absolute, hcolon] at he
    exact ⟨fun _ => rfl, hh, host_before_colon htail ha he hh⟩
  · cases p with
    | HTTP =>
      left
      have he := List.append_cancel_left he
      exact ⟨rfl, host_of_slashes hne hhost he hw hh hr⟩
    | HTTPS =>
      right
      rw [absolute, scheme, hs, List.append_assoc] at he
      have he := List.append_cancel_left he
      obtain ⟨he, hh⟩ := host_of_name rfl (by decide) he hw hh hr
      rw [hcolon] at he
      exact ⟨by rintro ⟨⟩, hh, host_before_colon htail (by decide) he hh⟩
  · cases p with
    | HTTP =>
      rw [absolute, scheme, hs, List.append_assoc] at he
      have he := congrArg List.head? (List.append_cancel_left he)
      exact absurd (Option.some.inj he) (by decide)
    | HTTPS =>
      left
      have he := List.append_cancel_left he
      exact ⟨rfl, host_of_slashes hne hhost he hw hh hr⟩

theorem subTail_slash (c : Str) (h : SubTail c) : ch '/' ∉ c := by
  intro hm
  exact absurd (h.2 _ hm) (by decide)

theorem firstTail_slash (c : Str) (h : FirstTail c) : ch '/' ∉ c := by
  intro hm
  exact absurd (h _ hm) (by decide)

/-- The host of a match at the start of an absolute URL. -/
theorem host_absolute {tail : Str → Prop} {r q : Pattern UInt8} (hshape : Shape tail r q)
    (htail : ∀ c, tail c → ch '/' ∉ c)
    (htakes : ∀ c s, tail c → s.head? = some (ch '/') → Takes r c s id) {p : TProtocol}
    {host path : Str} (hne : host ≠ []) (hhost : ∀ b ∈ host, hostChar b = true)
    (hpath : path.head? = some (ch '/')) {m : Match UInt8}
    (hm : searchAt (urlPattern r q) (absolute p host path) = some m) :
    m.groups 3 ≠ [] ∧ (ch '/' ∈ m.groups 3 ↔ Swallows tail host path) := by
  obtain ⟨w, rest, hc⟩ := hshape.cut_of_parses (searchAt_sound hm).2
  have hcases := cut_cases htail hne hhost hc
  have htext : HostText tail (m.groups 3) := by
    obtain ⟨-, -, h⟩ | ⟨-, h, -⟩ := hcases
    · exact h
    · exact h
  refine ⟨?_, ?_, ?_⟩
  · obtain ⟨x, c, hx, -⟩ := head_hostText htext
    rw [hx]
    exact List.cons_ne_nil x c
  · intro hs
    obtain ⟨-, he, -⟩ | ⟨-, -, hn⟩ := hcases
    · exact host_behind_scheme htail hhost hpath he htext hc.rest hs
    · exact absurd hs hn
  · rintro ⟨hname, c, u, rfl, htc⟩
    have htakes := takes_host (d := ch '/') hne hname (by decide) (by decide)
      (htakes c (ch '/' :: u) htc rfl)
    obtain ⟨m', hm', h3⟩ := hshape.searchAt_of_takes (takes_protocol p _) (takes_slashes _)
      (takes_opt htakes) rfl
    have htext : absolute p host (ch '/' :: (c ++ ch '/' :: u)) =
        scheme p ++ (str "://" ++ ((host ++ ch '/' :: c) ++ ch '/' :: u)) := by
      rw [absolute, List.append_assoc, List.cons_append]
    rw [htext] at hm
    obtain rfl : m = m' := Option.some.inj (hm.symm.trans hm')
    rw [h3, Function.update_self]
    simp

theorem takes_subTail (c s : Str) (hc : SubTail c) (hs : s.head? = some (ch '/')) :
    Takes (plus true notSlash) c s id := by
  refine takes_plus hc.1 hc.2 fun b hb => ?_
  rw [← Option.some.inj (hs.symm.trans hb)]
  decide

theorem takes_firstTail (c s : Str) (hc : FirstTail c) (hs : s.head? = some (ch '/')) :
    Takes (.star true fun b => dot b && notSlash b) c s id := by
  refine takes_star hc fun b hb => ?_
  rw [← Option.some.inj (hs.symm.trans hb)]
  decide

/-- The scheme and its colon can be taken for a host. -/
theorem hostText_scheme (p : TProtocol) : HostText SubTail (scheme p ++ [ch ':']) := by
  have hsplit : ∃ name d, scheme p = name ++ [d] ∧ name ≠ [] ∧ dot d = true := by
    cases p with
    | HTTP => exact ⟨str "htt", ch 'p', by decide, by decide, by decide⟩
    | HTTPS => exact ⟨str "http", ch 's', by decide, by decide, by decide⟩
  obtain ⟨name, d, hs, hne, hd⟩ := hsplit
  have hname : ∀ b ∈ name, wordChar b = true := by
    intro b hb
    apply wordChar_scheme (p := p)
    rw [hs]
    exact List.mem_append_left _ hb
  exact ⟨name, d, [ch ':'], by rw [hs]; simp, hne, hname, hd, by simp, by simp; decide⟩

/-- A match at the start of an absolute URL. -/
theorem searchAt_absolute (p : TProtocol) (host path : Str) :
    (searchAt subUrl (absolute p host path)).isSome ∧
      (searchAt lineUrl (absolute p host path)).isSome := by
  have hcolon : absolute p host path =
      (scheme p ++ [ch ':']) ++ ch '/' :: ch '/' :: (host ++ path) := by
    rw [absolute, List.append_assoc]
    rfl
  refine ⟨?_, ?_⟩
  · have hc : Cut SubTail (absolute p host path) [] [] (scheme p ++ [ch ':'])
        (ch '/' :: ch '/' :: (host ++ path)) :=
      ⟨hcolon, .inl rfl, .inl rfl, .inr (hostText_scheme p), rfl⟩
    exact shape_sub.searchAt_of_cut hc
  · have hc : Cut FirstTail (absolute p host path) [] [] (scheme p ++ [ch ':'])
        (ch '/' :: ch '/' :: (host ++ path)) := by
      refine ⟨hcolon, .inl rfl, .inl rfl, .inr ?_, rfl⟩
      exact ⟨scheme p, ch ':', [], rfl, scheme_ne_nil p, wordChar_scheme, by decide,
        List.forall_mem_nil _⟩
    exact shape_first.searchAt_of_cut hc

/-- The protocol of a match of the constructor's pattern. -/
theorem protocol_absolute {p : TProtocol} {host path : Str} (hne : host ≠ [])
    (hhost : ∀ b ∈ host, hostChar b = true) {m : Match UInt8}
    (hm : searchAt lineUrl (absolute p host path) = some m) :
    m.groups 1 ≠ [] ↔ p = .HTTPS ∨ ∃ h rest, host ++ path = h ++ rest ∧ HostText FirstTail h ∧
      rest.head? = some (ch '/') := by
  obtain ⟨w, rest, hc⟩ := shape_first.cut_of_parses (searchAt_sound hm).2
  apply Iff.intro
  · intro h1
    obtain ⟨-, he, hh⟩ | ⟨hp, -⟩ := cut_cases firstTail_slash hne hhost hc
    · exact .inr ⟨_, rest, he, hh, hc.rest⟩
    · left
      cases p with
      | HTTP => exact absurd (hp rfl) h1
      | HTTPS => rfl
  · rintro (rfl | ⟨h, rest', he, hh, hr⟩)
    · have hc' : Cut FirstTail (absolute .HTTPS host path) (str "http") [] (str "s:")
          (ch '/' :: ch '/' :: (host ++ path)) := by
        refine ⟨rfl, .inr (.inl rfl), .inl rfl, .inr ?_, rfl⟩
        exact ⟨str "s", ch ':', [], rfl, by decide, by decide +kernel, by decide,
          List.forall_mem_nil _⟩
      exact shape_first.protocol_taken hc' (by decide) hm
    · have hc' : Cut FirstTail (absolute p host path) (scheme p) (str "://") h rest' := by
        refine ⟨by rw [absolute, he], ?_, .inr (.inr rfl), .inr hh, hr⟩
        cases p with
        | HTTP => exact .inr (.inl rfl)
        | HTTPS => exact .inr (.inr rfl)
      exact shape_first.protocol_taken hc' (scheme_ne_nil p) hm

/-- The two-argument parser finds the host unless the path can be taken for its tail. -/
theorem sound_urlToLinkFrom (p : TProtocol) {host path : Str} (hne : host ≠ [])
    (hhost : ∀ b ∈ host, hostChar b = true) (hpath : path.head? = some (ch '/')) (parent : Link) :
    Sound (urlToLinkFrom (absolute p host path) parent) ↔ ¬ Swallows SubTail host path := by
  obtain ⟨m, hm⟩ := Option.isSome_iff_exists.mp (searchAt_absolute p host path).1
  obtain ⟨h3, hslash⟩ := host_absolute shape_sub subTail_slash takes_subTail hne hhost hpath hm
  have hlink : (urlToLinkFrom (absolute p host path) parent).host = m.groups 3 := by
    rw [urlToLinkFrom, groupsOf, search_of_searchAt hm]
    exact if_pos (by simpa using h3)
  obtain ⟨tail, hquery, -⟩ := urlToLinkFrom_query (absolute p host path) parent
  rw [Sound, hlink, hquery, hslash]
  exact ⟨fun h => h.2.1, fun h => ⟨h3, h, rfl⟩⟩

/-- The constructor finds the host unless the path can be taken for its tail, or no host can be
taken behind "http". -/
theorem sound_urlToLink (p : TProtocol) {host path : Str} (hne : host ≠ [])
    (hhost : ∀ b ∈ host, hostChar b = true) (hpath : path.head? = some (ch '/')) :
    (∃ link, urlToLink (absolute p host path) = .ok link ∧ Sound link) ↔
      ¬ Swallows FirstTail host path ∧
        (p = .HTTPS ∨ ∃ h rest, host ++ path = h ++ rest ∧ HostText FirstTail h ∧
          rest.head? = some (ch '/')) := by
  obtain ⟨m, hm⟩ := Option.isSome_iff_exists.mp (searchAt_absolute p host path).2
  obtain ⟨h3, hslash⟩ := host_absolute shape_first firstTail_slash takes_firstTail hne hhost hpath hm
  rw [← protocol_absolute hne hhost hm, ← hslash]
  have hgroups : groupsOf firstUrl (absolute p host path) = m.groups := by
    rw [groupsOf_firstUrl, groupsOf, search_of_searchAt hm]
  have h3' : (m.groups 3).length ≠ 0 := by simpa using h3
  by_cases h1 : m.groups 1 = []
  · have hlink : ∀ link, urlToLink (absolute p host path) ≠ .ok link := by
      intro link
      rw [urlToLink, hgroups, h1]
      simp
    refine iff_of_false ?_ fun h => h.2 h1
    rintro ⟨link, hl, -⟩
    exact hlink link hl
  · have hl1 : (m.groups 1).length ≠ 0 := by simpa using h1
    have hlink : urlToLink (absolute p host path) = .ok ⟨protocolOf (m.groups 1), m.groups 3,
        if (m.groups 4).length ≠ 0 then m.groups 4 else str "/"⟩ := by
      rw [urlToLink, hgroups, if_pos hl1, if_pos h3']
    obtain ⟨tail, hquery⟩ := (resolved_of_urlToLink hlink).query
    apply Iff.intro
    · rintro ⟨link, hl, hs⟩
      obtain rfl := Except.ok.inj (hlink.symm.trans hl)
      exact ⟨hs.2.1, h1⟩
    · rintro ⟨hs, -⟩
      exact ⟨_, hlink, h3, hs, by rw [hquery]; rfl⟩

theorem host_line {b : UInt8} (h : hostChar b = true) : (dot b && notSlash b) = true := by
  have hslash : b ≠ ch '/' := by
    rintro rfl
    exact absurd h (by decide)
  have hdot : dot b = true := by
    rw [hostChar, Bool.or_eq_true, Bool.or_eq_true, beq_iff_eq, beq_iff_eq] at h
    obtain (h | rfl) | rfl := h
    · exact dot_of_wordChar h
    · decide
    · decide
  rw [hdot, Bool.true_and, notSlash, bne_iff_ne]
  exact hslash

/-- Behind the scheme a host can be taken where it begins with a name and goes on. -/
theorem feasible_iff {host path : Str} (hhost : ∀ b ∈ host, hostChar b = true)
    (hpath : path.head? = some (ch '/')) (hn : ¬ Swallows FirstTail host path) :
    (∃ h rest, host ++ path = h ++ rest ∧ HostText FirstTail h ∧ rest.head? = some (ch '/')) ↔
      ∃ x y tail, host = x :: y :: tail ∧ wordChar x = true := by
  apply Iff.intro
  · rintro ⟨h, rest, he, hh, hr⟩
    have hs : ch '/' ∉ h := fun hs => hn (host_behind_scheme firstTail_slash hhost hpath he hh hr hs)
    obtain ⟨path, rfl⟩ := List.head?_eq_some_iff.mp hpath
    obtain ⟨rest, rfl⟩ := List.head?_eq_some_iff.mp hr
    obtain ⟨rfl, -⟩ := first_slash (slash_notMem_host hhost) hs he
    obtain ⟨name, d, c, rfl, hne, hname, -⟩ := hh
    obtain ⟨x, name, rfl⟩ := List.exists_cons_of_ne_nil hne
    have hx := hname x List.mem_cons_self
    cases name with
    | nil => exact ⟨x, d, c, rfl, hx⟩
    | cons y name => exact ⟨x, y, name ++ d :: c, rfl, hx⟩
  · rintro ⟨x, y, tail, rfl, hx⟩
    refine ⟨_, path, rfl, ⟨[x], y, tail, rfl, by simp, by simpa using hx, ?_, ?_⟩, hpath⟩
    · exact (Bool.and_eq_true_iff.mp (host_line (hhost y (by simp)))).1
    · exact fun b hb => host_line (hhost b (by simp [hb]))

/-- A second slash in the path lets one of the two patterns go on past the first. -/
theorem swallows_iff {host path : Str} (hpath : path.head? = some (ch '/')) :
    ¬ Swallows SubTail host path ∧ ¬ Swallows FirstTail host path ↔
      ((∀ b ∈ host, wordChar b = true) → ch '/' ∉ path.tail) := by
  obtain ⟨path, rfl⟩ := List.head?_eq_some_iff.mp hpath
  rw [List.tail_cons]
  apply Iff.intro
  · rintro ⟨hsub, hfirst⟩ hname hm
    obtain ⟨c, q, rfl, hc⟩ := List.eq_append_cons_of_mem hm
    by_cases hnil : c = []
    · subst hnil
      exact hfirst ⟨hname, [], q, rfl, List.forall_mem_nil _⟩
    · refine hsub ⟨hname, c, q, rfl, hnil, fun b hb => ?_⟩
      rw [notSlash, bne_iff_ne]
      rintro rfl
      exact hc hb
  · intro h
    have hno : ∀ tail, ¬ Swallows tail host (ch '/' :: path) := by
      rintro tail ⟨hname, c, q, he, -⟩
      refine h hname ?_
      rw [(List.cons.inj he).2]
      simp
    exact ⟨hno _, hno _⟩

/-- Both parsers find the host of an absolute URL exactly when a host of name characters alone has
no second slash behind it and, behind "http", a host has two characters or more and begins with a
name character. -/
theorem sound_iff (p : TProtocol) (host path : Str) (hne : host ≠ [])
    (hhost : ∀ b ∈ host, hostChar b = true) (hpath : path.head? = some (ch '/')) (parent : Link) :
    (Sound (urlToLinkFrom (absolute p host path) parent) ∧
      ∃ link, urlToLink (absolute p host path) = .ok link ∧ Sound link) ↔
    ((∀ b ∈ host, wordChar b = true) → ch '/' ∉ path.tail) ∧
      (p = .HTTP → ∃ x y tail, host = x :: y :: tail ∧ wordChar x = true) := by
  rw [sound_urlToLinkFrom p hne hhost hpath, sound_urlToLink p hne hhost hpath,
    ← swallows_iff hpath, and_assoc]
  apply and_congr_right
  intro _
  apply and_congr_right
  intro hn
  rw [feasible_iff hhost hpath hn]
  cases p with
  | HTTP => simp
  | HTTPS => simp

theorem localhost_iff :
    (Sound (urlToLinkFrom (absolute .HTTP (str "localhost") (str "/x/y")) page) ∧
      ∃ link, urlToLink (absolute .HTTP (str "localhost") (str "/x/y")) = .ok link ∧ Sound link) ↔
    ((∀ b ∈ str "localhost", wordChar b = true) → ch '/' ∉ (str "/x/y").tail) ∧
      (TProtocol.HTTP = .HTTP → ∃ x y tail, str "localhost" = x :: y :: tail ∧ wordChar x = true) :=
  sound_iff .HTTP (str "localhost") (str "/x/y") (by decide) (by decide +kernel) (by decide) page

/-- A host without a dot takes the first directory of the path with it. -/
theorem localhost_swallows : ¬ ∀ (p : TProtocol) (host path : Str) (parent : Link), host ≠ [] →
    (∀ b ∈ host, hostChar b = true) → path.head? = some (ch '/') → ch '/' ∉ parent.host →
    Sound (urlToLinkFrom (absolute p host path) parent) ∧
      ∃ link, urlToLink (absolute p host path) = .ok link ∧ Sound link := by
  intro h
  have hs := (h .HTTP (str "localhost") (str "/x/y") page (by decide) (by decide +kernel)
    (by decide) (by decide)).1.2.1
  have hhost : (urlToLinkFrom (absolute .HTTP (str "localhost") (str "/x/y")) page).host =
      str "localhost/x" := by
    decide +kernel
  rw [hhost] at hs
  exact hs (by decide)

end SpiderSearch.HostSplit
