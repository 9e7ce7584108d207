import SpiderSearch.LinkInverse

namespace SpiderSearch.RelativeLinks

open CppTypes Regex Links UrlGroups LinkInverse

/-- A name, any character, and a tail up to a slash stand at the start of the text. -/
def HostAt (s : Str) : Prop :=
  ∃ host rest, s = host ++ rest ∧ HostText SubTail host ∧ rest.head? = some (ch '/')

/-- What the pattern takes for a protocol or a host. -/
def TakenForSite (s : Str) : Prop :=
  HostAt s ∨ str "http/" <+: s ∨ str "https/" <+: s ∨ ∃ t, s = str "//" ++ t ∧ HostAt t

theorem head_hostText {tail : Str → Prop} {host : Str} (h : HostText tail host) :
    ∃ x rest, host = x :: rest ∧ wordChar x = true := by
  obtain ⟨name, d, rest, rfl, hne, hname, -⟩ := h
  obtain ⟨x, name, rfl⟩ := List.exists_cons_of_ne_nil hne
  exact ⟨x, name ++ d :: rest, rfl, hname x List.mem_cons_self⟩

theorem hostText_append {tail : Str → Prop} {name host : Str}
    (hname : ∀ b ∈ name, wordChar b = true) (h : HostText tail host) :
    HostText tail (name ++ host) := by
  obtain ⟨name', d, rest, rfl, hne, hname', hd, hrest⟩ := h
  refine ⟨name ++ name', d, rest, by rw [List.append_assoc], by simp [hne], ?_, hd, hrest⟩
  intro b hb
  exact (List.mem_append.mp hb).elim (hname b) (hname' b)

/-- The parent fills in both parts exactly where neither group took part. -/
theorem parent_iff (href : Str) :
    (∀ parent : Link, (urlToLinkFrom href parent).protocol = parent.protocol ∧
      (urlToLinkFrom href parent).host = parent.host) ↔
    groupsOf subUrl href 1 = [] ∧ groupsOf subUrl href 3 = [] := by
  apply Iff.intro
  · intro h
    refine ⟨?_, ?_⟩
    · by_contra hne
      have hlen : (groupsOf subUrl href 1).length ≠ 0 := by simpa using hne
      have hp : ∀ p, protocolOf (groupsOf subUrl href 1) = p := by
        intro p
        have hparent := (h ⟨p, [], []⟩).1
        rwa [urlToLinkFrom, if_pos hlen] at hparent
      exact absurd ((hp .HTTP).symm.trans (hp .HTTPS)) (by decide)
    · by_contra hne
      have hlen : (groupsOf subUrl href 3).length ≠ 0 := by simpa using hne
      have hparent := (h ⟨.HTTP, [], []⟩).2
      rw [urlToLinkFrom, if_pos hlen] at hparent
      exact hne hparent
  · rintro ⟨h1, h3⟩ parent
    simp [urlToLinkFrom, h1, h3]

theorem cut_of_slash {s : Str} (h : s.head? = some (ch '/')) : Cut SubTail s [] [] [] s :=
  ⟨rfl, .inl rfl, .inl rfl, .inl rfl, h⟩

theorem cut_of_hostAt {s : Str} (h : HostAt s) : ∃ host rest, Cut SubTail s [] [] host rest := by
  obtain ⟨host, rest, rfl, hhost, hrest⟩ := h
  exact ⟨host, rest, rfl, .inl rfl, .inl rfl, .inr hhost, hrest⟩

/-- What is taken for a site is a match. -/
theorem searchAt_of_taken {s : Str} (h : TakenForSite s) : (searchAt subUrl s).isSome := by
  obtain h | ⟨t, rfl⟩ | ⟨t, rfl⟩ | ⟨t, rfl, host, rest, rfl, hhost, hrest⟩ := h
  · obtain ⟨host, rest, hc⟩ := cut_of_hostAt h
    exact shape_sub.searchAt_of_cut hc
  · have hc : Cut SubTail (str "http/" ++ t) (str "http") [] [] (ch '/' :: t) :=
      ⟨by simp [str, ch, String.utf8EncodeChar], .inr (.inl rfl), .inl rfl, .inl rfl, rfl⟩
    exact shape_sub.searchAt_of_cut hc
  · have hc : Cut SubTail (str "https/" ++ t) (str "https") [] [] (ch '/' :: t) :=
      ⟨by simp [str, ch, String.utf8EncodeChar], .inr (.inr rfl), .inl rfl, .inl rfl, rfl⟩
    exact shape_sub.searchAt_of_cut hc
  · have hc : Cut SubTail (str "//" ++ (host ++ rest)) [] (str "//") host rest :=
      ⟨rfl, .inl rfl, .inr (.inl rfl), .inr hhost, hrest⟩
    exact shape_sub.searchAt_of_cut hc

theorem slashes_of_cut {s p w host rest : Str} (hc : Cut SubTail s p w host rest)
    (hcolon : ch ':' ∉ s) : w = [] ∨ w = str "//" := by
  obtain hw | hw | hw := hc.slashes
  · exact .inl hw
  · exact .inr hw
  · rw [hc.text, hw] at hcolon
    exact absurd (by simp [str, ch, String.utf8EncodeChar]) hcolon

theorem head_of_cut {s w rest : Str} (hc : Cut SubTail s [] w [] rest) (hcolon : ch ':' ∉ s) :
    s.head? = some (ch '/') := by
  rw [hc.text, List.nil_append, List.nil_append]
  obtain rfl | rfl := slashes_of_cut hc hcolon
  · exact hc.rest
  · rfl

/-- A match takes something for a site, or neither group takes part. -/
theorem taken_of_cut {s p w host rest : Str} (hc : Cut SubTail s p w host rest)
    (hcolon : ch ':' ∉ s) : p = [] ∧ host = [] ∨ TakenForSite s := by
  have hw := slashes_of_cut hc hcolon
  obtain ⟨rfl, hp, -, hh, hr⟩ := hc
  obtain ⟨rest, rfl⟩ := List.head?_eq_some_iff.mp hr
  have hscheme : ∀ q, (q = str "http" ∨ q = str "https") → ∀ b ∈ q, wordChar b = true := by
    rintro q (rfl | rfl)
    · exact wordChar_scheme (p := .HTTP)
    · exact wordChar_scheme (p := .HTTPS)
  have hprefix : ∀ q u, (q = str "http" ∨ q = str "https") →
      TakenForSite (q ++ ch '/' :: u) := by
    rintro q u (rfl | rfl)
    · exact .inr (.inl ⟨u, by simp [str, ch, String.utf8EncodeChar]⟩)
    · exact .inr (.inr (.inl ⟨u, by simp [str, ch, String.utf8EncodeChar]⟩))
  obtain rfl | hp := hp
  · obtain rfl | hh := hh
    · exact .inl ⟨rfl, rfl⟩
    · right
      obtain rfl | rfl := hw
      · exact .inl ⟨host, _, rfl, hh, rfl⟩
      · exact .inr (.inr (.inr ⟨_, rfl, host, _, rfl, hh, rfl⟩))
  · right
    obtain rfl | rfl := hw
    · obtain rfl | hh := hh
      · exact hprefix p rest hp
      · refine .inl ⟨p ++ host, ch '/' :: rest, by simp, hostText_append (hscheme p hp) hh, rfl⟩
    · have hslashes : str "//" = ch '/' :: str "/" := by decide
      rw [hslashes, List.cons_append]
      exact hprefix p _ hp

/-- The match that is found does not begin behind a slash, nor behind what is taken for a site. -/
theorem match_of_search {href : Str} {m : Match UInt8} (h : search subUrl href = some m) :
    ∃ before s w rest, href = before ++ s ∧ ch '/' ∉ before ∧ searchAt subUrl s = some m ∧
      Cut SubTail s (m.groups 1) w (m.groups 3) rest ∧
      ∀ a b, href = a ++ b → TakenForSite b → before.length ≤ a.length := by
  obtain ⟨before, s, he, hs, hfirst⟩ := search_leftmost h
  obtain ⟨w, rest, hc⟩ := shape_sub.cut_of_parses (searchAt_sound hs).2
  refine ⟨before, s, w, rest, he, ?_, hs, hc, ?_⟩
  · intro hm
    obtain ⟨a, b, rfl⟩ := List.append_of_mem hm
    have hnone := hfirst a (ch '/' :: b ++ s) (by rw [he]; simp) (by simp)
    have hsome : (searchAt subUrl (ch '/' :: b ++ s)).isSome :=
      shape_sub.searchAt_of_cut (cut_of_slash rfl)
    rw [hnone] at hsome
    cases hsome
  · intro a b hab ht
    by_contra hlt
    have hsome := searchAt_of_taken ht
    rw [hfirst a b hab (Nat.lt_of_not_le hlt)] at hsome
    cases hsome

theorem hostAt_head {s : Str} (h : HostAt s) : s.head? ≠ some (ch '/') := by
  obtain ⟨host, rest, rfl, hhost, -⟩ := h
  obtain ⟨x, tail, rfl, hx⟩ := head_hostText hhost
  intro he
  rw [Option.some.inj he] at hx
  exact absurd hx (by decide)

/-- Behind two slashes a host is taken. -/
theorem not_taken_of_slash {s : Str} {m : Match UInt8} (hm : searchAt subUrl s = some m)
    (h3 : m.groups 3 = []) (hs : s.head? = some (ch '/')) : ¬ TakenForSite s := by
  rintro (h | ⟨t, rfl⟩ | ⟨t, rfl⟩ | ⟨t, rfl, host, rest, rfl, hhost, hrest⟩)
  · exact hostAt_head h hs
  · exact absurd (Option.some.inj hs) (by decide)
  · exact absurd (Option.some.inj hs) (by decide)
  · obtain ⟨m', host', rest', hm', -, hhost', -, h3', -⟩ := shape_sub.searchAt_taken (p := [])
      (takes_noProtocol rfl) (takes_twoSlashes (host ++ rest)) rfl hhost hrest
    obtain rfl : m = m' := Option.some.inj (hm.symm.trans hm')
    obtain ⟨x, tail, hx, -⟩ := head_hostText hhost'
    rw [← h3', h3] at hx
    cases hx

/-- A reference without a colon stays on the site of its page exactly when nothing at or before its
first slash can be taken for a protocol or a host. -/
theorem relative_iff (href : Str) (hcolon : ch ':' ∉ href) :
    (∀ parent : Link, (urlToLinkFrom href parent).protocol = parent.protocol ∧
      (urlToLinkFrom href parent).host = parent.host) ↔
    ¬ ∃ before s, href = before ++ s ∧ ch '/' ∉ before ∧ TakenForSite s := by
  rw [parent_iff, groupsOf]
  apply Iff.intro
  · rintro h ⟨before, s, rfl, hbefore, ht⟩
    obtain ⟨m, hm⟩ := Option.isSome_iff_exists.mp (search_isSome (searchAt_of_taken ht) before)
    obtain ⟨before', s', w, rest, he, -, hs', hc, hfirst⟩ := match_of_search hm
    rw [hm] at h
    dsimp only at h
    obtain ⟨h1, h3⟩ := h
    rw [h1, h3] at hc
    have hcolon' : ch ':' ∉ s' := fun hin => hcolon (by rw [he]; exact List.mem_append_right _ hin)
    have hhead := head_of_cut hc hcolon'
    -- The match begins where the site does, since it begins with a slash.
    obtain ⟨c, rfl, rfl⟩ : ∃ c, before = before' ++ c ∧ s' = c ++ s := by
      obtain ⟨c, hb, hs⟩ | ⟨c, hb, hs⟩ := List.append_eq_append_iff.mp he
      · have hl := hfirst before s rfl ht
        rw [hb, List.length_append] at hl
        obtain rfl : c = [] := List.length_eq_zero_iff.mp (by omega)
        exact ⟨[], by rw [hb, List.append_nil, List.append_nil], by rw [hs]; rfl⟩
      · exact ⟨c, hb, hs⟩
    obtain rfl : c = [] := by
      cases c with
      | nil => rfl
      | cons x c =>
        rw [Option.some.inj hhead] at hbefore
        exact absurd (by simp) hbefore
    exact not_taken_of_slash hs' h3 hhead ht
  · intro hno
    cases hm : search subUrl href with
    | none => exact ⟨rfl, rfl⟩
    | some m =>
      obtain ⟨before, s, w, rest, he, hbefore, hs, hc, -⟩ := match_of_search hm
      have hcolon' : ch ':' ∉ s := fun hin => hcolon (by rw [he]; exact List.mem_append_right _ hin)
      obtain h | ht := taken_of_cut hc hcolon'
      · exact h
      · exact absurd ⟨before, s, he, hbefore, ht⟩ hno

theorem directory_iff :
    (∀ parent : Link, (urlToLinkFrom (str "images/pic.png") parent).protocol = parent.protocol ∧
      (urlToLinkFrom (str "images/pic.png") parent).host = parent.host) ↔
    ¬ ∃ before s, str "images/pic.png" = before ++ s ∧ ch '/' ∉ before ∧ TakenForSite s :=
  relative_iff (str "images/pic.png") (by decide +kernel)

/-- A directory of three letters or more is taken for a host. -/
theorem directory_taken_for_host : ¬ ∀ (parent : Link) (href : Str), ch ':' ∉ href →
    ¬ str "//" <+: href → (urlToLinkFrom href parent).protocol = parent.protocol ∧
      (urlToLinkFrom href parent).host = parent.host := by
  intro h
  have hhost := (h ⟨.HTTP, str "a.org", str "/"⟩ (str "images/pic.png") (by decide +kernel)
    (by decide +kernel)).2
  have hlink : (urlToLinkFrom (str "images/pic.png") ⟨.HTTP, str "a.org", str "/"⟩).host =
      str "images" := by
    decide +kernel
  rw [hlink] at hhost
  exact absurd hhost (by decide +kernel)

end SpiderSearch.RelativeLinks
