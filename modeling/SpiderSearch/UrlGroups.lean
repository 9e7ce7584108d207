import SpiderSearch.UrlKey

namespace SpiderSearch.UrlGroups

open CppTypes Regex Links

/-- The text of a host group: a name, any character where a dot is meant, and a tail. -/
def HostText (tail : Str → Prop) (host : Str) : Prop :=
  ∃ name d rest, host = name ++ d :: rest ∧ name ≠ [] ∧ (∀ b ∈ name, wordChar b = true) ∧
    dot d = true ∧ tail rest

/-- The tail of the host in a sub-link. -/
def SubTail (rest : Str) : Prop := rest ≠ [] ∧ ∀ b ∈ rest, notSlash b = true

/-- The tail of the host in a start URL. -/
def FirstTail (rest : Str) : Prop := ∀ b ∈ rest, (dot b && notSlash b) = true

def hostPattern (r : Pattern UInt8) : Pattern UInt8 :=
  .group 3 (.seq (plus true wordChar) (.seq (.sym dot) r))

def urlPattern (r q : Pattern UInt8) : Pattern UInt8 :=
  .seq protocolPattern (.seq slashesPattern (.seq (.opt (hostPattern r)) q))

/-- The pattern of the constructor, with a greedy tail that cannot go past a slash. -/
def lineUrl : Pattern UInt8 := urlPattern (.star true fun b => dot b && notSlash b) firstQuery

/-- A tail and a query that fit the two URL patterns. -/
structure Shape (tail : Str → Prop) (r q : Pattern UInt8) : Prop where
  tail : ∀ {s t : Str} {c d : Groups UInt8},
    Parses r s c t d ↔ ∃ w, s = w ++ t ∧ tail w ∧ d = c
  slash : ∀ {s t : Str} {c d : Groups UInt8}, Parses q s c t d → s.head? = some (ch '/')
  query : ∀ {s : Str} (c : Groups UInt8), s.head? = some (ch '/') → ∃ t d, Parses q s c t d
  frame : ∀ i ∈ indices q, i ≠ 1 ∧ i ≠ 3

/-- One way to cut a text into protocol, slashes, host and the rest. -/
structure Cut (tail : Str → Prop) (s protocol slashes host rest : Str) : Prop where
  text : s = protocol ++ (slashes ++ (host ++ rest))
  protocol : protocol = [] ∨ protocol = str "http" ∨ protocol = str "https"
  slashes : slashes = [] ∨ slashes = str "//" ∨ slashes = str "://"
  host : host = [] ∨ HostText tail host
  rest : rest.head? = some (ch '/')

theorem head_lit_slash {s t : Str} {c d : Groups UInt8} {q : Pattern UInt8} {i : Nat}
    (h : Parses (.group i (.seq (lit (str "/")) q)) s c t d) : s.head? = some (ch '/') := by
  obtain ⟨w, e, -, ⟨u, e', hl, -⟩, -⟩ := h
  rw [(parses_lit.mp hl).1]
  rfl

theorem shape_sub : Shape SubTail (plus true notSlash) subQuery where
  tail := by
    intro s t c d
    rw [parses_plus]
    apply Iff.intro
    · rintro ⟨x, w, rfl, hw, rfl⟩
      exact ⟨x :: w, rfl, ⟨List.cons_ne_nil x w, hw⟩, rfl⟩
    · rintro ⟨w, rfl, ⟨hne, hw⟩, rfl⟩
      obtain ⟨x, w, rfl⟩ := List.exists_cons_of_ne_nil hne
      exact ⟨x, w, rfl, hw, rfl⟩
  slash := head_lit_slash
  query := by
    intro s c h
    obtain ⟨s, rfl⟩ := List.head?_eq_some_iff.mp h
    exact ⟨s, _, str "/", c, rfl, ⟨s, c, parses_lit.mpr ⟨rfl, rfl⟩, s, c,
      ⟨[], rfl, List.forall_mem_nil _, rfl⟩, .inr ⟨rfl, rfl⟩⟩, rfl⟩
  frame := by decide

theorem shape_first : Shape FirstTail (.star true fun b => dot b && notSlash b) firstQuery where
  tail := Iff.rfl
  slash := head_lit_slash
  query := by
    intro s c h
    obtain ⟨s, rfl⟩ := List.head?_eq_some_iff.mp h
    exact ⟨s, _, str "/", c, rfl, ⟨s, c, parses_lit.mpr ⟨rfl, rfl⟩,
      [], rfl, List.forall_mem_nil _, rfl⟩, rfl⟩
  frame := by decide

theorem parses_scheme {s t : Str} {c d : Groups UInt8} :
    Parses (.group 1 (.seq (lit (str "http")) (.opt (lit (str "s"))))) s c t d ↔
      ∃ p, s = p ++ t ∧ (p = str "http" ∨ p = str "https") ∧ d = Function.update c 1 p := by
  have hs : str "https" = str "http" ++ str "s" := by decide
  apply Iff.intro
  · rintro ⟨w, e, rfl, ⟨u, e', hl, ho⟩, rfl⟩
    obtain ⟨hw, rfl⟩ := parses_lit.mp hl
    refine ⟨w, rfl, ?_, ?_⟩
    · obtain ho | ⟨rfl, rfl⟩ := ho
      · rw [(parses_lit.mp ho).1, ← List.append_assoc] at hw
        exact .inr (by rw [List.append_cancel_right hw, hs])
      · exact .inl (List.append_cancel_right hw)
    · obtain ho | ⟨rfl, rfl⟩ := ho
      · rw [(parses_lit.mp ho).2]
      · rfl
  · rintro ⟨p, rfl, rfl | rfl, rfl⟩
    · exact ⟨str "http", c, rfl, ⟨t, c, parses_lit.mpr ⟨rfl, rfl⟩, .inr ⟨rfl, rfl⟩⟩, rfl⟩
    · refine ⟨str "https", c, rfl, ⟨str "s" ++ t, c, parses_lit.mpr ⟨?_, rfl⟩,
        .inl (parses_lit.mpr ⟨rfl, rfl⟩)⟩, rfl⟩
      rw [hs, List.append_assoc]

theorem parses_protocol {s t : Str} {c d : Groups UInt8} (hc : c 1 = []) :
    Parses protocolPattern s c t d ↔
      ∃ p, s = p ++ t ∧ (p = [] ∨ p = str "http" ∨ p = str "https") ∧ d = Function.update c 1 p := by
  apply Iff.intro
  · rintro (h | ⟨rfl, rfl⟩)
    · obtain ⟨p, he, hp, hd⟩ := parses_scheme.mp h
      exact ⟨p, he, .inr hp, hd⟩
    · exact ⟨[], rfl, .inl rfl, by rw [← hc, Function.update_eq_self]⟩
  · rintro ⟨p, he, rfl | hp, hd⟩
    · rw [← hc, Function.update_eq_self] at hd
      exact .inr ⟨he.symm, hd⟩
    · exact .inl (parses_scheme.mpr ⟨p, he, hp, hd⟩)

theorem parses_twoSlashes {s t : Str} {c d : Groups UInt8} :
    Parses (.group 2 (.seq (.opt (lit (str ":"))) (lit (str "//")))) s c t d ↔
      ∃ w, s = w ++ t ∧ (w = str "//" ∨ w = str "://") ∧ d = Function.update c 2 w := by
  have hs : str "://" = str ":" ++ str "//" := by decide
  apply Iff.intro
  · rintro ⟨w, e, rfl, ⟨u, e', ho, hl⟩, rfl⟩
    obtain ⟨rfl, rfl⟩ := parses_lit.mp hl
    refine ⟨w, rfl, ?_, ?_⟩
    · obtain ho | ⟨hw, -⟩ := ho
      · have hw := (parses_lit.mp ho).1
        rw [← List.append_assoc] at hw
        exact .inr (by rw [List.append_cancel_right hw, hs])
      · exact .inl (List.append_cancel_right hw).symm
    · obtain ho | ⟨-, rfl⟩ := ho
      · rw [(parses_lit.mp ho).2]
      · rfl
  · rintro ⟨w, rfl, rfl | rfl, rfl⟩
    · exact ⟨str "//", c, rfl, ⟨_, c, .inr ⟨rfl, rfl⟩, parses_lit.mpr ⟨rfl, rfl⟩⟩, rfl⟩
    · refine ⟨str "://", c, rfl, ⟨str "//" ++ t, c, .inl (parses_lit.mpr ⟨?_, rfl⟩),
        parses_lit.mpr ⟨rfl, rfl⟩⟩, rfl⟩
      rw [hs, List.append_assoc]

theorem parses_slashes {s t : Str} {c d : Groups UInt8} (hc : c 2 = []) :
    Parses slashesPattern s c t d ↔
      ∃ w, s = w ++ t ∧ (w = [] ∨ w = str "//" ∨ w = str "://") ∧ d = Function.update c 2 w := by
  apply Iff.intro
  · rintro (h | ⟨rfl, rfl⟩)
    · obtain ⟨w, he, hw, hd⟩ := parses_twoSlashes.mp h
      exact ⟨w, he, .inr hw, hd⟩
    · exact ⟨[], rfl, .inl rfl, by rw [← hc, Function.update_eq_self]⟩
  · rintro ⟨w, he, rfl | hw, hd⟩
    · rw [← hc, Function.update_eq_self] at hd
      exact .inr ⟨he.symm, hd⟩
    · exact .inl (parses_twoSlashes.mpr ⟨w, he, hw, hd⟩)

section

variable {tail : Str → Prop} {r q : Pattern UInt8}

theorem Shape.parses_host (h : Shape tail r q) {s t : Str} {c d : Groups UInt8} :
    Parses (hostPattern r) s c t d ↔
      ∃ host, s = host ++ t ∧ HostText tail host ∧ d = Function.update c 3 host := by
  apply Iff.intro
  · rintro ⟨w, e, rfl, ⟨u, e', hp, v, e'', ⟨y, rfl, hy, rfl⟩, hr⟩, rfl⟩
    obtain ⟨x, name, hw, hname, rfl⟩ := parses_plus.mp hp
    obtain ⟨rest, rfl, hrest, rfl⟩ := h.tail.mp hr
    have hw : w ++ t = x :: name ++ y :: rest ++ t := by simpa using hw
    exact ⟨w, rfl, ⟨x :: name, y, rest, List.append_cancel_right hw, List.cons_ne_nil x name,
      hname, hy, hrest⟩, rfl⟩
  · rintro ⟨host, rfl, ⟨name, y, rest, rfl, hne, hname, hy, hrest⟩, rfl⟩
    obtain ⟨x, name, rfl⟩ := List.exists_cons_of_ne_nil hne
    refine ⟨_, c, rfl, ⟨y :: rest ++ t, c, parses_plus.mpr ⟨x, name, by simp, hname, rfl⟩,
      rest ++ t, c, ⟨y, rfl, hy, rfl⟩, h.tail.mpr ⟨rest, rfl, hrest, rfl⟩⟩, rfl⟩

/-- What stands in the groups cuts the text. -/
theorem Shape.cut_of_parses (h : Shape tail r q) {s t : Str} {d : Groups UInt8}
    (hp : Parses (urlPattern r q) s (fun _ => []) t d) :
    ∃ slashes rest, Cut tail s (d 1) slashes (d 3) rest := by
  obtain ⟨u₁, c₁, h₁, u₂, c₂, h₂, u₃, c₃, h₃, h₄⟩ := hp
  obtain ⟨p, rfl, hpr, rfl⟩ := (parses_protocol rfl).mp h₁
  obtain ⟨w, rfl, hw, rfl⟩ := (parses_slashes rfl).mp h₂
  have h1 : d 1 = c₃ 1 := parses_frame h₄ fun hm => (h.frame 1 hm).1 rfl
  have h3 : d 3 = c₃ 3 := parses_frame h₄ fun hm => (h.frame 3 hm).2 rfl
  obtain h₃ | ⟨rfl, rfl⟩ := h₃
  · obtain ⟨host, rfl, hhost, rfl⟩ := h.parses_host.mp h₃
    have hd1 : d 1 = p := by simpa [Function.update_apply] using h1
    have hd3 : d 3 = host := by simpa using h3
    exact ⟨w, u₃, by rw [hd1, hd3], by rwa [hd1], hw, .inr (by rwa [hd3]), h.slash h₄⟩
  · have hd1 : d 1 = p := by simpa [Function.update_apply] using h1
    have hd3 : d 3 = [] := by simpa [Function.update_apply] using h3
    exact ⟨w, u₃, by rw [hd1, hd3, List.nil_append], by rwa [hd1], hw, .inl hd3, h.slash h₄⟩

theorem Shape.parses_hostQuery (h : Shape tail r q) {host rest : Str} {c : Groups UInt8}
    (hc : c 3 = []) (hh : host = [] ∨ HostText tail host) (hr : rest.head? = some (ch '/')) :
    ∃ t d, Parses (.seq (.opt (hostPattern r)) q) (host ++ rest) c t d := by
  obtain ⟨t, d, hq⟩ := h.query (Function.update c 3 host) hr
  refine ⟨t, d, rest, _, ?_, hq⟩
  obtain rfl | hh := hh
  · exact .inr ⟨rfl, by rw [← hc, Function.update_eq_self]⟩
  · exact .inl (h.parses_host.mpr ⟨host, rfl, hh, rfl⟩)

theorem Shape.parses_of_cut (h : Shape tail r q) {s p w host rest : Str}
    (hc : Cut tail s p w host rest) :
    ∃ t d, Parses (.seq slashesPattern (.seq (.opt (hostPattern r)) q)) (w ++ (host ++ rest))
      (Function.update (fun _ => []) 1 p) t d := by
  obtain ⟨t, d, hq⟩ := h.parses_hostQuery
    (c := Function.update (Function.update (fun _ => []) 1 p) 2 w) rfl hc.host hc.rest
  exact ⟨t, d, _, _, (parses_slashes rfl).mpr ⟨w, rfl, hc.slashes, rfl⟩, hq⟩

/-- A text that can be cut matches at its start. -/
theorem Shape.searchAt_of_cut (h : Shape tail r q) {s p w host rest : Str}
    (hc : Cut tail s p w host rest) : (searchAt (urlPattern r q) s).isSome := by
  obtain ⟨t, d, hp⟩ := h.parses_of_cut hc
  exact searchAt_isSome ⟨_, _, (parses_protocol rfl).mpr ⟨p, hc.text, hc.protocol, rfl⟩, hp⟩

/-- A host is taken where the parts before it are the first choice. -/
theorem Shape.searchAt_taken (h : Shape tail r q) {p w s host rest : Str}
    {f g : Groups UInt8 → Groups UInt8} (hp : Takes protocolPattern p (w ++ s) f)
    (hw : Takes slashesPattern w s g) (he : s = host ++ rest) (hh : HostText tail host)
    (hr : rest.head? = some (ch '/')) :
    ∃ m host' rest', searchAt (urlPattern r q) (p ++ (w ++ s)) = some m ∧ s = host' ++ rest' ∧
      HostText tail host' ∧ rest'.head? = some (ch '/') ∧ m.groups 3 = host' ∧
      m.groups 1 = g (f fun _ => []) 1 := by
  generalize hk : (fun t c => some (⟨taken (p ++ (w ++ s)) t, c, t⟩ : Match UInt8)) = k
  have hsome : (matchAt (hostPattern r) s (g (f fun _ => [])) fun t c =>
      matchAt q t c k).isSome := by
    obtain ⟨t, d, hq⟩ := h.query (Function.update (g (f fun _ => [])) 3 host) hr
    refine matchAt_complete (h.parses_host.mpr ⟨host, he, hh, rfl⟩) (matchAt_complete hq ?_)
    rw [← hk]
    rfl
  have hopt : matchAt (.seq (.opt (hostPattern r)) q) s (g (f fun _ => [])) k =
      matchAt (hostPattern r) s (g (f fun _ => [])) fun t c => matchAt q t c k := by
    rw [matchAt, matchAt_opt hsome]
  obtain ⟨m, hm⟩ := Option.isSome_iff_exists.mp hsome
  have hslashes := hw (Match UInt8) (f fun _ => [])
    (fun t c => matchAt (.seq (.opt (hostPattern r)) q) t c k) (by rwa [hopt])
  have hall : searchAt (urlPattern r q) (p ++ (w ++ s)) = some m := by
    rw [searchAt, hk, urlPattern, matchAt, hp, matchAt, hslashes, hopt, hm]
    rw [matchAt, hslashes, hopt]
    exact hsome
  obtain ⟨t, d, hd, hq⟩ := matchAt_sound hm
  obtain ⟨host', he', hh', rfl⟩ := h.parses_host.mp hd
  obtain ⟨t', d', hq', hm'⟩ := matchAt_sound hq
  rw [← hk, Option.some.injEq] at hm'
  have h1 : d' 1 = _ := parses_frame hq' fun hi => (h.frame 1 hi).1 rfl
  have h3 : d' 3 = _ := parses_frame hq' fun hi => (h.frame 3 hi).2 rfl
  refine ⟨m, host', t, hall, he', hh', h.slash hq', ?_, ?_⟩
  · rw [← hm']
    dsimp only
    rw [h3, Function.update_self]
  · rw [← hm']
    dsimp only
    rw [h1, Function.update_of_ne (by decide)]

/-- The groups before the query are those of the parts that are the first choice. -/
theorem Shape.searchAt_of_takes (h : Shape tail r q) {p w v u : Str}
    {f₁ f₂ f₃ : Groups UInt8 → Groups UInt8} (hp : Takes protocolPattern p (w ++ (v ++ u)) f₁)
    (hw : Takes slashesPattern w (v ++ u) f₂) (hv : Takes (.opt (hostPattern r)) v u f₃)
    (hu : u.head? = some (ch '/')) :
    ∃ m, searchAt (urlPattern r q) (p ++ (w ++ (v ++ u))) = some m ∧
      m.groups 3 = f₃ (f₂ (f₁ fun _ => [])) 3 := by
  generalize hk : (fun t c => some (⟨taken (p ++ (w ++ (v ++ u))) t, c, t⟩ : Match UInt8)) = k
  obtain ⟨t, d, hq⟩ := h.query (f₃ (f₂ (f₁ fun _ => []))) hu
  have hsome : (matchAt q u (f₃ (f₂ (f₁ fun _ => []))) k).isSome :=
    matchAt_complete hq (by rw [← hk]; rfl)
  have hhost := hv (Match UInt8) (f₂ (f₁ fun _ => [])) (fun t c => matchAt q t c k) hsome
  have hslashes := hw (Match UInt8) (f₁ fun _ => [])
    (fun t c => matchAt (.seq (.opt (hostPattern r)) q) t c k) (by rwa [matchAt, hhost])
  have hprotocol := hp (Match UInt8) (fun _ => [])
    (fun t c => matchAt (.seq slashesPattern (.seq (.opt (hostPattern r)) q)) t c k)
    (by rwa [matchAt, hslashes, matchAt, hhost])
  obtain ⟨m, hm⟩ := Option.isSome_iff_exists.mp hsome
  refine ⟨m, ?_, ?_⟩
  · rw [searchAt, hk, urlPattern, matchAt, hprotocol, matchAt, hslashes, matchAt, hhost, hm]
  · obtain ⟨t, d, hq, hm⟩ := matchAt_sound hm
    rw [← hk, Option.some.injEq] at hm
    rw [← hm]
    exact parses_frame hq fun hi => (h.frame 3 hi).2 rfl

theorem Shape.frame_protocol (h : Shape tail r q) {s t : Str} {c d : Groups UInt8}
    (hp : Parses (.seq slashesPattern (.seq (.opt (hostPattern r)) q)) s c t d) : d 1 = c 1 := by
  obtain ⟨u, c₂, h₂, v, c₃, h₃, h₄⟩ := hp
  have hhost : c₃ 1 = c₂ 1 := by
    obtain h₃ | ⟨-, rfl⟩ := h₃
    · obtain ⟨host, -, -, rfl⟩ := h.parses_host.mp h₃
      rw [Function.update_of_ne (by decide)]
    · rfl
  rw [parses_frame h₄ fun hi => (h.frame 1 hi).1 rfl, hhost, parses_frame h₂ (by decide)]

/-- A protocol is taken where some cut of the text has one. -/
theorem Shape.protocol_taken (h : Shape tail r q) {s p w host rest : Str} {m : Match UInt8}
    (hc : Cut tail s p w host rest) (hne : p ≠ []) (hm : searchAt (urlPattern r q) s = some m) :
    m.groups 1 ≠ [] := by
  generalize hk : (fun t c => some (⟨taken s t, c, t⟩ : Match UInt8)) = k
  obtain ⟨t, d, hrest⟩ := h.parses_of_cut hc
  have hsome : (matchAt (.seq slashesPattern (.seq (.opt (hostPattern r)) q))
      (w ++ (host ++ rest)) (Function.update (fun _ => []) 1 p) k).isSome :=
    matchAt_complete hrest (by rw [← hk]; rfl)
  have hscheme := (parses_scheme (c := fun _ => [])).mpr ⟨p, hc.text, hc.protocol.resolve_left hne, rfl⟩
  rw [searchAt, hk, urlPattern, matchAt, protocolPattern,
    matchAt_opt (matchAt_complete hscheme hsome)] at hm
  obtain ⟨u, e, hg, hm⟩ := matchAt_sound hm
  obtain ⟨q, -, hq, rfl⟩ := parses_scheme.mp hg
  obtain ⟨t', d', hrest', hm⟩ := matchAt_sound hm
  rw [← hk, Option.some.injEq] at hm
  rw [← hm]
  dsimp only
  rw [h.frame_protocol hrest', Function.update_self]
  rintro rfl
  exact absurd hq (by decide)

end

/-- Before a slash a lazy run along the line stops where a greedy run of other characters does. -/
theorem starAt_line {β : Type} {k : Str → Option β}
    (hk : ∀ t, (k t).isSome ↔ t.head? = some (ch '/')) (s : Str) :
    starAt false dot k s = starAt true (fun b => dot b && notSlash b) k s :=
  (starAt_until hk s).trans (starAt_before (by decide) hk s).symm

theorem matchAt_firstQuery_isSome {β : Type} {k : Str → Groups UInt8 → Option β}
    (hk : ∀ t c, (k t c).isSome) (s : Str) (c : Groups UInt8) :
    (matchAt firstQuery s c k).isSome ↔ s.head? = some (ch '/') := by
  apply Iff.intro
  · intro h
    obtain ⟨b, hb⟩ := Option.isSome_iff_exists.mp h
    obtain ⟨t, d, hp, -⟩ := matchAt_sound hb
    exact shape_first.slash hp
  · intro h
    obtain ⟨t, d, hp⟩ := shape_first.query c h
    exact matchAt_complete hp (hk t d)

theorem searchAt_firstUrl (s : Str) : searchAt firstUrl s = searchAt lineUrl s := by
  have hhost : ∀ t c, matchAt (.seq (.opt firstHost) firstQuery) t c
        (fun t c => some (⟨taken s t, c, t⟩ : Match UInt8)) =
      matchAt (.seq (.opt (hostPattern (.star true fun b => dot b && notSlash b))) firstQuery) t c
        (fun t c => some ⟨taken s t, c, t⟩) := by
    intro t c
    rw [matchAt, matchAt, matchAt, matchAt]
    apply congrArg (Option.or · _)
    rw [firstHost, hostPattern, matchAt, matchAt, matchAt, matchAt]
    apply congrArg (matchAt (plus true wordChar) t c)
    funext u e
    rw [matchAt, matchAt]
    cases u with
    | nil => rfl
    | cons x u =>
      rw [matchAt, matchAt, matchAt, matchAt]
      split_ifs
      · apply starAt_line
        intro v
        exact matchAt_firstQuery_isSome (fun _ _ => rfl) v _
      · rfl
  rw [searchAt, searchAt, firstUrl, lineUrl, urlPattern, matchAt, matchAt]
  apply congrArg (matchAt protocolPattern s _)
  funext t c
  rw [matchAt, matchAt]
  apply congrArg (matchAt slashesPattern t c)
  funext t c
  exact hhost t c

theorem search_firstUrl_eq (s : Str) : search firstUrl s = search lineUrl s := by
  induction s with
  | nil => exact searchAt_firstUrl []
  | cons c s ih => rw [search, search, searchAt_firstUrl, ih]

theorem groupsOf_firstUrl (s : Str) : groupsOf firstUrl s = groupsOf lineUrl s := by
  rw [groupsOf, groupsOf, search_firstUrl_eq]

end SpiderSearch.UrlGroups
