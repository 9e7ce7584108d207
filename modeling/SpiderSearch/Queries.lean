import SpiderSearch.HostSplit
import SpiderSearch.UrlCut

namespace SpiderSearch.Queries

open CppTypes Regex Links UrlKey UrlGroups LinkInverse RelativeLinks HostSplit UrlCut

/-- Two or more labels joined by dots. -/
def Dotted (host : Str) : Prop :=
  ∃ labels : List Str, 2 ≤ labels.length ∧
    (∀ l ∈ labels, l ≠ [] ∧ ∀ b ∈ l, (isAlnum b || b == ch '-') = true) ∧
      host = (str ".").intercalate labels

theorem forall_mem_intercalate {P : UInt8 → Prop} {sep : Str} {labels : List Str}
    (hsep : ∀ b ∈ sep, P b) (h : ∀ l ∈ labels, ∀ b ∈ l, P b) :
    ∀ b ∈ sep.intercalate labels, P b := by
  induction labels with
  | nil => exact List.forall_mem_nil _
  | cons l labels ih =>
    obtain ⟨hl, hlabels⟩ := List.forall_mem_cons.mp h
    cases labels with
    | nil =>
      rw [List.intercalate_singleton]
      exact hl
    | cons l' labels =>
      rw [List.intercalate_cons_cons, List.forall_mem_append, List.forall_mem_append]
      exact ⟨⟨hl, hsep⟩, ih hlabels⟩

theorem Dotted.hostChar {host : Str} (h : Dotted host) : ∀ b ∈ host, hostChar b = true := by
  obtain ⟨labels, -, hl, rfl⟩ := h
  apply forall_mem_intercalate
  · decide +kernel
  · intro l hm b hb
    have hlabel := (hl l hm).2 b hb
    rw [HostSplit.hostChar, wordChar, Bool.or_eq_true, Bool.or_eq_true, Bool.or_eq_true]
    exact .inl (.inl (.inl hlabel))

theorem three_le_length {host : Str} (h : HostText SubTail host) : 3 ≤ host.length := by
  obtain ⟨name, d, tail, rfl, hne, -, -, htail, -⟩ := h
  have hname := List.length_pos_of_ne_nil hne
  have htail := List.length_pos_of_ne_nil htail
  rw [List.length_append, List.length_cons]
  omega

theorem slash_notMem_append {s t : Str} (hs : ch '/' ∉ s) (ht : ch '/' ∉ t) : ch '/' ∉ s ++ t := by
  rw [List.mem_append, not_or]
  exact ⟨hs, ht⟩

section Rootless

variable {a host q w h r : Str} (ha : ch '/' ∉ a) (hq : ch '/' ∉ q)

include ha hq

/-- The only two slashes of a text are not taken for those before a host. -/
theorem slashes_not_taken (hhost : ch '/' ∉ host) (hw : w = [] ∨ w = str "//" ∨ w = str "://")
    (he : a ++ ch '/' :: ch '/' :: host = q ++ (w ++ (h ++ ch '/' :: r))) : w = [] := by
  have hno : ∀ v, ch '/' ∉ v → w ≠ v ++ str "//" := by
    rintro v hv rfl
    have he' : a ++ ch '/' :: ch '/' :: host =
        (q ++ v) ++ ch '/' :: (ch '/' :: (h ++ ch '/' :: r)) := by
      rw [he]
      simp [str, ch, String.utf8EncodeChar]
    have hcons := (first_slash ha (slash_notMem_append hq hv) he').2
    rw [(List.cons.inj hcons).2] at hhost
    exact hhost (by simp)
  obtain hw | hw | hw := hw
  · exact hw
  · exact absurd hw (hno [] List.not_mem_nil)
  · exact absurd hw (hno (str ":") (by decide))

/-- The host ends before the first of two slashes. -/
theorem slash_notMem_taken (hh : h = [] ∨ HostText SubTail h)
    (he : a ++ ch '/' :: ch '/' :: host = q ++ (h ++ ch '/' :: r)) : ch '/' ∉ h := by
  intro hm
  obtain rfl | ⟨name, d, tail, rfl, -, hname, -, hne, htail⟩ := hh
  · cases hm
  rw [List.mem_append, List.mem_cons] at hm
  obtain hm | rfl | hm := hm
  · exact slash_notMem_name hname hm
  · have he' : a ++ ch '/' :: ch '/' :: host = (q ++ name) ++ ch '/' :: (tail ++ ch '/' :: r) := by
      rw [he]
      simp
    have hrest := (first_slash ha (slash_notMem_append hq (slash_notMem_name hname)) he').2
    obtain ⟨x, tail, rfl⟩ := List.exists_cons_of_ne_nil hne
    obtain rfl : ch '/' = x := (List.cons.inj hrest).1
    exact absurd (htail _ List.mem_cons_self) (by decide)
  · exact subTail_slash tail ⟨hne, htail⟩ hm

end Rootless

/-- A scheme and its colon are too short for a protocol with a host. -/
theorem protocol_not_taken {p : TProtocol} {q h : Str}
    (hq : q = [] ∨ q = str "http" ∨ q = str "https") (hqw : ∀ b ∈ q, wordChar b = true)
    (hh : h = [] ∨ HostText SubTail h) (he : scheme p ++ str ":" = q ++ h) : q = [] := by
  obtain rfl | hq := hq
  · rfl
  obtain rfl | hh := hh
  · rw [List.append_nil] at he
    rw [← he] at hqw
    exact absurd (hqw (ch ':') (by simp [str, ch, String.utf8EncodeChar])) (by decide)
  · have hl := congrArg List.length he
    have hh := three_le_length hh
    have hp : (scheme p).length ≤ 5 := by
      cases p with
      | HTTP => decide
      | HTTPS => decide
    have hq : 4 ≤ q.length := by
      obtain rfl | rfl := hq
      · decide
      · decide
    have hcolon : (str ":").length = 1 := by decide
    rw [List.length_append, List.length_append] at hl
    omega

/-- Without a path every cut takes the two slashes of the scheme for the query. -/
theorem cut_rootless {p : TProtocol} {host q w h r : Str} (hhost : ch '/' ∉ host)
    (hc : Cut SubTail (scheme p ++ (str "://" ++ host)) q w h r) :
    q = [] ∧ r = str "//" ++ host := by
  obtain ⟨he, hq, hw, hh, hr⟩ := hc
  obtain ⟨r, rfl⟩ := List.head?_eq_some_iff.mp hr
  have hscheme : ch '/' ∉ scheme p ++ str ":" :=
    slash_notMem_append (slash_notMem_name wordChar_scheme) (by decide)
  have hs : scheme p ++ (str "://" ++ host) = (scheme p ++ str ":") ++ ch '/' :: ch '/' :: host := by
    rw [List.append_assoc]
    rfl
  have hqw : ∀ b ∈ q, wordChar b = true := by
    obtain rfl | rfl | rfl := hq
    · exact List.forall_mem_nil _
    · exact wordChar_scheme (p := .HTTP)
    · exact wordChar_scheme (p := .HTTPS)
  have hq' := slash_notMem_name hqw
  rw [hs] at he
  obtain rfl := slashes_not_taken hscheme hq' hhost hw he
  rw [List.nil_append] at he
  have hh' := slash_notMem_taken hscheme hq' hh he
  rw [← List.append_assoc] at he
  obtain ⟨hqh, hrest⟩ := first_slash hscheme (slash_notMem_append hq' hh') he
  refine ⟨protocol_not_taken hq hqw hh hqh, ?_⟩
  rw [← hrest]
  rfl

theorem firstCut_rootless (p : TProtocol) {host : Str} (hhost : ch '/' ∉ host) :
    FirstCut (scheme p ++ (str "://" ++ host)) [] [] [] (scheme p ++ [ch ':'])
      (str "//" ++ host) := by
  have htext : [] ++ ([] ++ ((scheme p ++ [ch ':']) ++ (str "//" ++ host))) =
      scheme p ++ (str "://" ++ host) := by
    rw [List.nil_append, List.nil_append, List.append_assoc]
    rfl
  refine ⟨htext.symm, ⟨rfl, .inl rfl, .inl rfl, .inr (hostText_scheme p), rfl⟩,
    fun _ _ => Nat.zero_le _, ?_, ?_⟩
  · intro q w h r hc
    rw [htext] at hc
    rw [(cut_rootless hhost hc).1]
  · intro w h r hc
    rw [htext] at hc
    rw [(cut_rootless hhost hc).2]

/-- What the constructor of a link makes of an absolute URL without a path. -/
theorem urlToLinkFrom_rootless {host : Str} (hhost : ∀ b ∈ host, hostChar b = true)
    (p : TProtocol) (parent : Link) :
    urlToLinkFrom (scheme p ++ (str "://" ++ host)) parent =
      ⟨parent.protocol, scheme p ++ [ch ':'], str "//" ++ host⟩ := by
  have hline : ∀ b ∈ str "//" ++ host, dot b = true := by
    rw [List.forall_mem_append]
    exact ⟨by decide +kernel, fun b hb => (Bool.and_eq_true_iff.mp (host_line (hhost b hb))).1⟩
  rw [(firstCut_rootless p (slash_notMem_host hhost)).urlToLinkFrom_eq,
    List.takeWhile_eq_self_iff.mpr hline]
  simp

/-- An absolute URL without a path never leads to the root of its host: the scheme becomes the host
and the host a part of the query. -/
theorem root_lost (parent : Link) (p : TProtocol) (host : Str) (h : Dotted host) :
    urlToLinkFrom (scheme p ++ (str "://" ++ host)) parent ≠ ⟨p, host, str "/"⟩ := by
  rw [urlToLinkFrom_rootless h.hostChar]
  intro he
  exact absurd (congrArg (fun link => link.query.length) he) (by simp [str, String.utf8EncodeChar])

theorem dotted_site : Dotted (str "a.org") :=
  ⟨[str "a", str "org"], by decide, by decide +kernel, by decide⟩

theorem site_root_lost :
    urlToLinkFrom (scheme .HTTP ++ (str "://" ++ str "a.org")) page ≠ ⟨.HTTP, str "a.org", str "/"⟩ :=
  root_lost page .HTTP (str "a.org") dotted_site

theorem scheme_taken_for_host : ¬ ∀ (parent : Link) (p : TProtocol) (host : Str), Dotted host →
    urlToLinkFrom (scheme p ++ (str "://" ++ host)) parent = ⟨p, host, str "/"⟩ := by
  intro h
  have hsite := h page .HTTP (str "a.org") dotted_site
  rw [urlToLinkFrom_rootless dotted_site.hostChar] at hsite
  exact absurd (congrArg Link.host hsite) (by decide)

/-- What has no slash and stands at the end is behind every cut. -/
theorem append_of_slash {s u r z : Str} (hz : ch '/' ∉ z) (hr : r.head? = some (ch '/'))
    (he : s ++ z = u ++ r) :
    ∃ rest, r = rest ++ z ∧ s = u ++ rest ∧ rest.head? = some (ch '/') := by
  obtain ⟨t, rfl⟩ := List.head?_eq_some_iff.mp hr
  obtain ⟨c, rfl, rfl⟩ | ⟨c, rfl, hc⟩ := List.append_eq_append_iff.mp he
  · exact absurd (by simp) hz
  · cases c with
    | nil =>
      rw [List.nil_append] at hc
      exact absurd (by rw [← hc]; exact List.mem_cons_self) hz
    | cons x c =>
      obtain ⟨rfl, rfl⟩ := List.cons.inj hc
      exact ⟨ch '/' :: c, rfl, rfl, rfl⟩

theorem cut_append {tail : Str → Prop} {a s p w host r z : Str} (hz : ch '/' ∉ z) {b : Str}
    (he : s ++ z = a ++ b) (hc : Cut tail b p w host r) :
    ∃ rest, r = rest ++ z ∧ s = a ++ (p ++ (w ++ (host ++ rest))) ∧
      Cut tail (p ++ (w ++ (host ++ rest))) p w host rest := by
  have he' : s ++ z = (a ++ (p ++ (w ++ host))) ++ r := by
    rw [he, hc.text]
    simp
  obtain ⟨rest, rfl, rfl, hrest⟩ := append_of_slash hz hc.rest he'
  exact ⟨rest, rfl, by simp, rfl, hc.protocol, hc.slashes, hc.host, hrest⟩

/-- A text without a slash that is put behind does not change how the text before it is read. -/
theorem firstCut_append {html before p w host rest z : Str} (hz : ch '/' ∉ z)
    (h : FirstCut html before p w host rest) :
    FirstCut (html ++ z) before p w host (rest ++ z) := by
  have hs : p ++ (w ++ (host ++ (rest ++ z))) = (p ++ (w ++ (host ++ rest))) ++ z := by simp
  have hrest : (rest ++ z).head? = some (ch '/') := by rw [List.head?_append, h.cut.rest]; rfl
  refine ⟨by rw [h.text, hs, List.append_assoc], ⟨rfl, h.cut.protocol, h.cut.slashes, h.cut.host,
    hrest⟩, ?_, ?_, ?_⟩
  · intro a b p' w' h' r' he hc
    obtain ⟨rest', -, he', hc'⟩ := cut_append hz he hc
    exact h.leftmost he' hc'
  · intro p' w' h' r' hc
    obtain ⟨rest', -, he', hc'⟩ := cut_append (a := []) hz hs.symm hc
    rw [List.nil_append] at he'
    rw [← he'] at hc'
    exact h.longest hc'
  · intro w' h' r' hc
    obtain ⟨rest', rfl, he', hc'⟩ := cut_append (a := []) hz hs.symm hc
    rw [List.nil_append] at he'
    rw [← he'] at hc'
    rw [List.length_append, List.length_append]
    exact Nat.add_le_add_right (h.shortest hc') _

/-- The line that begins at a slash ends before the fragment or goes on into it. -/
theorem takeWhile_fragment (rest f : Str) :
    (rest ++ ch '#' :: f).takeWhile dot = rest.takeWhile dot ↔ ∃ b ∈ rest, dot b = false := by
  rw [List.takeWhile_append]
  split_ifs with hl
  · have hself := (List.takeWhile_prefix dot).eq_of_length hl
    refine iff_of_false ?_ ?_
    · rw [hself, List.takeWhile_cons_of_pos (by decide)]
      exact fun h => List.cons_ne_nil _ _ (List.append_right_eq_self.mp h)
    · rintro ⟨b, hb, hd⟩
      rw [List.takeWhile_eq_self_iff.mp hself b hb] at hd
      cases hd
  · refine iff_of_true rfl ?_
    by_contra hno
    have hall : ∀ b ∈ rest, dot b = true := by
      intro b hb
      cases hd : dot b with
      | true => rfl
      | false => exact absurd ⟨b, hb, hd⟩ hno
    exact hl (by rw [List.takeWhile_eq_self_iff.mpr hall])

/-- A fragment is cut off exactly where the line of the query ends before it, so never in a
reference that is one line. -/
theorem fragment_iff (parent : Link) (p f : Str) (hslash : ch '/' ∈ p) (hf : ch '/' ∉ f) :
    urlToLinkFrom (p ++ str "#" ++ f) parent = urlToLinkFrom p parent ↔
      ∃ before protocol slashes host rest, FirstCut p before protocol slashes host rest ∧
        ∃ b ∈ rest, dot b = false := by
  have hz : ch '/' ∉ ch '#' :: f := by
    rw [List.mem_cons, not_or]
    exact ⟨by decide, hf⟩
  have htext : p ++ str "#" ++ f = p ++ ch '#' :: f := by
    rw [List.append_assoc]
    rfl
  have hquery : ∀ {before q w host rest}, FirstCut p before q w host rest →
      (urlToLinkFrom (p ++ str "#" ++ f) parent = urlToLinkFrom p parent ↔
        ∃ b ∈ rest, dot b = false) := by
    intro before q w host rest hc
    rw [htext, (firstCut_append hz hc).urlToLinkFrom_eq, hc.urlToLinkFrom_eq, ← takeWhile_fragment rest f]
    simp
  apply Iff.intro
  · intro h
    obtain ⟨before, q, w, host, rest, hc⟩ := exists_firstCut hslash
    exact ⟨before, q, w, host, rest, hc, (hquery hc).mp h⟩
  · rintro ⟨before, q, w, host, rest, hc, hb⟩
    exact (hquery hc).mpr hb

theorem page_fragment_iff :
    urlToLinkFrom (str "/x" ++ str "#" ++ str "top") page = urlToLinkFrom (str "/x") page ↔
      ∃ before protocol slashes host rest, FirstCut (str "/x") before protocol slashes host rest ∧
        ∃ b ∈ rest, dot b = false :=
  fragment_iff page (str "/x") (str "top") (by decide) (by decide)

/-- The fragment of a reference stays in its query. -/
theorem fragment_kept : ¬ ∀ (parent : Link) (p f : Str), ch '/' ∈ p → ch '#' ∉ p → f ≠ [] →
    (∀ b ∈ f, notSlash b = true ∧ dot b = true) →
      urlToLinkFrom (p ++ str "#" ++ f) parent = urlToLinkFrom p parent := by
  intro h
  have hx := h page (str "/x") (str "top") (by decide) (by decide) (by decide) (by decide +kernel)
  have hquery : (urlToLinkFrom (str "/x" ++ str "#" ++ str "top") page).query = str "/x#top" := by
    decide +kernel
  rw [hx] at hquery
  exact absurd hquery (by decide +kernel)

end SpiderSearch.Queries
