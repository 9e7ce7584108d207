import SpiderSearch.RelativeLinks

namespace SpiderSearch.UrlCut

open CppTypes Regex Links UrlGroups LinkInverse RelativeLinks

/-- The way a sub-link is read: from the first place where it can be cut, with the longest
protocol and then the shortest rest. -/
structure FirstCut (html before protocol slashes host rest : Str) : Prop where
  text : html = before ++ (protocol ++ (slashes ++ (host ++ rest)))
  cut : Cut SubTail (protocol ++ (slashes ++ (host ++ rest))) protocol slashes host rest
  leftmost : ∀ {a b p w h r}, html = a ++ b → Cut SubTail b p w h r → before.length ≤ a.length
  longest : ∀ {p w h r}, Cut SubTail (protocol ++ (slashes ++ (host ++ rest))) p w h r →
    p.length ≤ protocol.length
  shortest : ∀ {w h r}, Cut SubTail (protocol ++ (slashes ++ (host ++ rest))) protocol w h r →
    rest.length ≤ r.length

theorem takesLongest_protocol : TakesLongest protocolPattern 1
    (fun p => p = [] ∨ p = str "http" ∨ p = str "https") fun _ => True := by
  have hs : str "https" = str "http" ++ str "s" := by decide
  apply TakesLongest.opt
  · intro β s c k b hc _ hm
    rw [matchAt, matchAt, matchAt_lit] at hm
    split_ifs at hm with hp
    obtain ⟨t, rfl⟩ := List.isPrefixOf_iff_prefix.mp hp
    rw [List.drop_left, matchAt, matchAt_lit, Option.or_eq_some_iff] at hm
    obtain hm | ⟨hnone, hm⟩ := hm
    · split_ifs at hm with hp'
      obtain ⟨t, rfl⟩ := List.isPrefixOf_iff_prefix.mp hp'
      rw [List.drop_left, ← List.append_assoc, ← hs, taken_append] at hm
      refine ⟨str "https", t, by rw [hs, List.append_assoc], .inr rfl, hm, ?_⟩
      rintro w' t' - (rfl | rfl) -
      · decide
      · exact le_rfl
    · rw [taken_append] at hm
      refine ⟨str "http", t, rfl, .inl rfl, hm, ?_⟩
      rintro w' t' he (rfl | rfl) hsome
      · exact le_rfl
      · rw [hs, List.append_assoc] at he
        obtain rfl := List.append_cancel_left he
        rw [if_pos (List.isPrefixOf_iff_prefix.mpr ⟨t', rfl⟩), List.drop_left,
          ← List.append_assoc, ← hs, taken_append] at hnone
        rw [hnone] at hsome
        cases hsome
  · intro p t c hp
    exact parses_scheme.mpr ⟨p, rfl, hp, rfl⟩

/-- Behind the slashes a text begins with a colon or it does not. -/
theorem slashes_unique {w w' s t : Str} (hw : w = str "//" ∨ w = str "://")
    (hw' : w' = str "//" ∨ w' = str "://") (h : w ++ s = w' ++ t) : w = w' := by
  have hhead := congrArg List.head? h
  obtain rfl | rfl := hw
  · obtain rfl | rfl := hw'
    · rfl
    · exact absurd (Option.some.inj hhead) (by decide)
  · obtain rfl | rfl := hw'
    · exact absurd (Option.some.inj hhead) (by decide)
    · rfl

theorem takesLongest_slashes : TakesLongest slashesPattern 2
    (fun w => w = [] ∨ w = str "//" ∨ w = str "://") fun _ => True := by
  apply TakesLongest.opt
  · intro β s c k b hc _ hm
    obtain ⟨t, d, hp, hb⟩ := matchAt_sound hm
    obtain ⟨w, rfl, hw, rfl⟩ := parses_twoSlashes.mp hp
    refine ⟨w, t, rfl, hw, hb, ?_⟩
    rintro w' t' he hw' -
    rw [slashes_unique hw hw' he]
  · intro w t c hw
    exact parses_twoSlashes.mpr ⟨w, rfl, hw, rfl⟩

/-- A host that ends before a slash is not shorter than one whose name is shorter. -/
theorem length_le_of_name {host host' name tail s t : Str} {d : UInt8}
    (he : host ++ s = host' ++ t) (hs : s.head? = some (ch '/')) (hhost : host' = name ++ d :: tail)
    (htail : ∀ b ∈ tail, notSlash b = true) (hl : name.length < host.length) :
    host'.length ≤ host.length := by
  by_contra hlt
  obtain ⟨u, hu, rfl⟩ : ∃ u, host' = host ++ u ∧ s = u ++ t := by
    obtain ⟨u, hu, ht⟩ | ⟨u, hu, ht⟩ := List.append_eq_append_iff.mp he
    · exact ⟨u, hu, ht⟩
    · rw [hu, List.length_append] at hlt
      omega
  have hmem : ch '/' ∈ u := by
    cases u with
    | nil =>
      rw [List.append_nil] at hu
      rw [hu] at hlt
      exact absurd le_rfl hlt
    | cons x u =>
      rw [← Option.some.inj hs]
      exact List.mem_cons_self
  have hdrop : u = tail.drop (host.length - (name.length + 1)) := by
    have h := congrArg (List.drop host.length) (hu.symm.trans hhost)
    have hn : host.length = (name ++ [d]).length + (host.length - (name.length + 1)) := by
      rw [List.length_append, List.length_singleton]
      omega
    rw [List.drop_left, List.append_cons, hn, ← List.drop_drop, List.drop_left] at h
    exact h
  rw [hdrop] at hmem
  exact absurd (htail _ (List.mem_of_mem_drop hmem)) (by decide)

/-- With the longest name the host reaches the farthest slash. -/
theorem takesLongest_host : TakesLongest (.opt subHost) 3
    (fun host => host = [] ∨ HostText SubTail host) fun t => t.head? = some (ch '/') := by
  apply TakesLongest.opt
  · intro β s c k b _ hk hm
    rw [subHost, matchAt, matchAt, plus, matchAt] at hm
    cases s with
    | nil => cases hm
    | cons x s =>
      rw [matchAt] at hm
      split_ifs at hm with hx
      rw [matchAt] at hm
      obtain ⟨w, t, rfl, hw, hb, hmax⟩ := starAt_longest hm
      obtain ⟨t', e, ⟨u, e', ⟨y, rfl, hy, rfl⟩, hp⟩, hb'⟩ := matchAt_sound hb
      obtain ⟨tail, rfl, htail, rfl⟩ := shape_sub.tail.mp hp
      have hsplit : x :: (w ++ y :: (tail ++ t')) = (x :: w ++ y :: tail) ++ t' := by simp
      rw [hsplit, taken_append] at hb'
      refine ⟨x :: w ++ y :: tail, t', hsplit, ⟨x :: w, y, tail, rfl, List.cons_ne_nil x w,
        List.forall_mem_cons.mpr ⟨hx, hw⟩, hy, htail⟩, hb', ?_⟩
      rintro host' t'' he ⟨name, y', tail', rfl, hne, hname, hy', htail'⟩ hsome
      obtain ⟨x', name, rfl⟩ := List.exists_cons_of_ne_nil hne
      have hs : w ++ y :: (tail ++ t') = name ++ y' :: (tail' ++ t'') := by
        simpa using (List.cons.inj he).2
      have hparse : Parses (plus true notSlash) (tail' ++ t'') e t'' e :=
        shape_sub.tail.mpr ⟨tail', rfl, htail', rfl⟩
      have hlen := hmax name (y' :: (tail' ++ t'')) hs (List.forall_mem_cons.mp hname).2
        (matchAt_complete ⟨_, _, ⟨y', rfl, hy', rfl⟩, hparse⟩ (by rwa [he, taken_append]))
      refine length_le_of_name (hsplit.symm.trans he) (hk t' _ (by rw [hb']; rfl)) rfl htail'.2 ?_
      rw [List.length_cons, List.length_append, List.length_cons, List.length_cons]
      omega
  · intro host t c hh
    exact shape_sub.parses_host.mpr ⟨host, rfl, hh, rfl⟩

/-- The groups that a cut leaves behind: the query goes on to the end of the line. -/
def groupsOfCut (protocol slashes host rest : Str) : Groups UInt8 :=
  Function.update (Function.update (Function.update (Function.update (fun _ => [])
    1 protocol) 2 slashes) 3 host) 4 (rest.takeWhile dot)

theorem matchAt_subQuery {β : Type} {rest : Str} (hr : rest.head? = some (ch '/'))
    {c : Groups UInt8} {k : Str → Groups UInt8 → Option β} (hk : ∀ t d, (k t d).isSome) :
    matchAt subQuery rest c k =
      k (rest.dropWhile dot) (Function.update c 4 (rest.takeWhile dot)) := by
  obtain ⟨tail, rfl⟩ := List.head?_eq_some_iff.mp hr
  have hslash : dot (ch '/') = true := by decide
  have hline : ∀ b ∈ tail.takeWhile dot, dot b = true := fun b hb => List.mem_takeWhile_imp hb
  have hstop : ∀ b ∈ (tail.dropWhile dot).head?, dot b = false := by
    intro b hb
    have hn := List.head?_dropWhile_not dot tail
    rw [Option.mem_def.mp hb] at hn
    simpa using hn
  have htakes := takes_subQuery (tail.dropWhile dot) hline hstop
  have hm := htakes β c k (hk _ _)
  rw [List.cons_append, List.takeWhile_append_dropWhile] at hm
  rw [hm, List.takeWhile_cons_of_pos hslash, List.dropWhile_cons_of_pos hslash]

theorem host_of_slashes {tail : Str → Prop} {w s host rest : Str}
    (hw : w = str "//" ∨ w = str "://") (he : w ++ s = host ++ rest)
    (hh : host = [] ∨ HostText tail host) : host = [] := by
  obtain hh | hh := hh
  · exact hh
  obtain ⟨x, t, rfl, hx⟩ := head_hostText hh
  have hhead := congrArg List.head? he
  obtain rfl | rfl := hw
  · rw [← Option.some.inj hhead] at hx
    exact absurd hx (by decide)
  · rw [← Option.some.inj hhead] at hx
    exact absurd hx (by decide)

/-- Slashes that are taken, and a host that is as long as it can be, leave the shortest rest. -/
theorem rest_le_of_cut {tail : Str → Prop} {w host rest w' host' rest' : Str}
    (hw : w = [] ∨ w = str "//" ∨ w = str "://") (hw' : w' = [] ∨ w' = str "//" ∨ w' = str "://")
    (hh' : host' = [] ∨ HostText tail host') (he : w ++ (host ++ rest) = w' ++ (host' ++ rest'))
    (htaken : w = [] → w' = []) (hlongest : host ++ rest = host' ++ rest' →
      host'.length ≤ host.length) : rest.length ≤ rest'.length := by
  have hsame : w = w' → rest.length ≤ rest'.length := by
    rintro rfl
    have he := List.append_cancel_left he
    have hl := congrArg List.length he
    rw [List.length_append, List.length_append] at hl
    have := hlongest he
    omega
  obtain rfl | hw := hw
  · exact hsame (htaken rfl).symm
  obtain rfl | hw' := hw'
  · rw [List.nil_append] at he
    rw [host_of_slashes hw he hh', List.nil_append] at he
    rw [← he, List.length_append, List.length_append]
    omega
  · exact hsame (slashes_unique hw hw' he)

/-- The match that is found is the first cut. -/
theorem firstCut_of_search {html : Str} {m : Match UInt8} (h : search subUrl html = some m) :
    ∃ before p w host rest, FirstCut html before p w host rest ∧
      m.groups = groupsOfCut p w host rest := by
  obtain ⟨before, s, rfl, hs, hfirst⟩ := search_leftmost h
  generalize hk : (fun t c => some (⟨taken s t, c, t⟩ : Match UInt8)) = k
  have hsome : ∀ t c, (k t c).isSome := by
    intro t c
    rw [← hk]
    rfl
  rw [searchAt, hk, subUrl, matchAt] at hs
  obtain ⟨p, s₁, rfl, hp, h₁, hpmax⟩ :=
    takesLongest_protocol _ _ _ _ _ rfl (fun _ _ _ => trivial) hs
  rw [matchAt] at h₁
  obtain ⟨w, s₂, rfl, hw, h₂, hwmax⟩ :=
    takesLongest_slashes _ _ _ _ _ rfl (fun _ _ _ => trivial) h₁
  rw [matchAt] at h₂
  have hslash : ∀ t d, (matchAt subQuery t d k).isSome → t.head? = some (ch '/') := by
    intro t d hq
    obtain ⟨m', hq⟩ := Option.isSome_iff_exists.mp hq
    obtain ⟨u, e, hq, -⟩ := matchAt_sound hq
    exact shape_sub.slash hq
  obtain ⟨host, rest, rfl, hh, h₃, hhmax⟩ := takesLongest_host _ _ _ _ _ rfl hslash h₂
  have hrest : rest.head? = some (ch '/') := hslash _ _ (by rw [h₃]; rfl)
  refine ⟨before, p, w, host, rest, ⟨rfl, ⟨rfl, hp, hw, hh, hrest⟩, ?_, ?_, ?_⟩, ?_⟩
  · intro a b p' w' h' r' he hc
    by_contra hlt
    have hmatch := shape_sub.searchAt_of_cut hc
    rw [show urlPattern (plus true notSlash) subQuery = subUrl from rfl,
      hfirst a b he (Nat.lt_of_not_le hlt)] at hmatch
    cases hmatch
  · intro p' w' h' r' hc
    obtain ⟨t, d, hparse⟩ := shape_sub.parses_of_cut hc
    exact hpmax p' _ hc.text hc.protocol (matchAt_complete hparse (hsome t d))
  · intro w' h' r' hc
    refine rest_le_of_cut hw hc.slashes hc.host (List.append_cancel_left hc.text) ?_ ?_
    · rintro rfl
      obtain ⟨t, d, hparse⟩ := shape_sub.parses_hostQuery
        (c := Function.update (Function.update (fun _ => []) 1 p) 2 w') rfl hc.host hc.rest
      exact List.length_eq_zero_iff.mp (Nat.le_zero.mp (hwmax w' (h' ++ r')
        (List.append_cancel_left hc.text) hc.slashes (matchAt_complete hparse (hsome t d))))
    · intro he
      obtain ⟨t, d, hq⟩ := shape_sub.query
        (Function.update (Function.update (Function.update (fun _ => []) 1 p) 2 w) 3 h') hc.rest
      exact hhmax h' r' he hc.host (matchAt_complete hq (hsome t d))
  · rw [matchAt_subQuery hrest hsome, ← hk, Option.some.injEq] at h₃
    rw [← h₃]
    rfl

theorem slashes_host_unique {tail : Str → Prop} {w host w' host' : Str}
    (hw : w = [] ∨ w = str "//" ∨ w = str "://") (hw' : w' = [] ∨ w' = str "//" ∨ w' = str "://")
    (hh : host = [] ∨ HostText tail host) (hh' : host' = [] ∨ HostText tail host')
    (he : w ++ host = w' ++ host') : w = w' ∧ host = host' := by
  have hsame : w = w' → w = w' ∧ host = host' := by
    rintro rfl
    exact ⟨rfl, List.append_cancel_left he⟩
  have hnil : ∀ {w host host' : Str}, w = str "//" ∨ w = str "://" → host' = [] ∨
      HostText tail host' → w ++ host ≠ host' := by
    intro w host host' hw hh' he
    rw [← List.append_nil host'] at he
    obtain rfl := host_of_slashes hw he hh'
    rw [List.append_nil, List.append_eq_nil_iff] at he
    rw [he.1] at hw
    exact absurd hw (by decide)
  obtain rfl | hw := hw
  · obtain rfl | hw' := hw'
    · exact hsame rfl
    · exact absurd he.symm (hnil hw' hh)
  · obtain rfl | hw' := hw'
    · exact absurd he (hnil hw hh')
    · exact hsame (slashes_unique hw hw' he)

theorem FirstCut.unique {html b p w host rest b' p' w' host' rest' : Str}
    (h : FirstCut html b p w host rest) (h' : FirstCut html b' p' w' host' rest') :
    p = p' ∧ w = w' ∧ host = host' ∧ rest = rest' := by
  have hb := Nat.le_antisymm (h.leftmost h'.text h'.cut) (h'.leftmost h.text h.cut)
  obtain ⟨rfl, hs⟩ := List.append_inj (h.text.symm.trans h'.text) hb
  have hp : p = p' := by
    have hl := Nat.le_antisymm (h'.longest (hs ▸ h.cut)) (h.longest (hs.symm ▸ h'.cut))
    exact (List.append_inj hs hl).1
  subst hp
  have hr := Nat.le_antisymm (h.shortest (hs.symm ▸ h'.cut)) (h'.shortest (hs ▸ h.cut))
  have he := List.append_cancel_left hs
  rw [← List.append_assoc, ← List.append_assoc] at he
  obtain ⟨hwh, rfl⟩ := List.append_inj' he hr
  obtain ⟨rfl, rfl⟩ :=
    slashes_host_unique h.cut.slashes h'.cut.slashes h.cut.host h'.cut.host hwh
  exact ⟨rfl, rfl, rfl, rfl⟩

theorem search_isSome_of_slash {html : Str} (h : ch '/' ∈ html) : (search subUrl html).isSome := by
  obtain ⟨a, b, rfl⟩ := List.append_of_mem h
  exact search_isSome (shape_sub.searchAt_of_cut (cut_of_slash rfl)) a

/-- A text with a slash is read by its first cut. -/
theorem exists_firstCut {html : Str} (h : ch '/' ∈ html) :
    ∃ before p w host rest, FirstCut html before p w host rest := by
  obtain ⟨m, hm⟩ := Option.isSome_iff_exists.mp (search_isSome_of_slash h)
  obtain ⟨before, p, w, host, rest, hc, -⟩ := firstCut_of_search hm
  exact ⟨before, p, w, host, rest, hc⟩

theorem FirstCut.groupsOf_eq {html before p w host rest : Str}
    (h : FirstCut html before p w host rest) :
    groupsOf subUrl html = groupsOfCut p w host rest := by
  have hslash : ch '/' ∈ html := by
    obtain ⟨t, ht⟩ := List.head?_eq_some_iff.mp h.cut.rest
    rw [h.text, ht]
    simp
  obtain ⟨m, hm⟩ := Option.isSome_iff_exists.mp (search_isSome_of_slash hslash)
  obtain ⟨before', p', w', host', rest', hc, hg⟩ := firstCut_of_search hm
  obtain ⟨rfl, rfl, rfl, rfl⟩ := h.unique hc
  rw [groupsOf, hm]
  exact hg

/-- The link of a sub-link, from its first cut. -/
theorem FirstCut.urlToLinkFrom_eq {html before p w host rest : Str}
    (h : FirstCut html before p w host rest) (parent : Link) :
    urlToLinkFrom html parent =
      ⟨if p ≠ [] then protocolOf p else parent.protocol,
        if host ≠ [] then host else parent.host, rest.takeWhile dot⟩ := by
  have hquery : (rest.takeWhile dot).length ≠ 0 := by
    obtain ⟨t, rfl⟩ := List.head?_eq_some_iff.mp h.cut.rest
    rw [List.takeWhile_cons_of_pos (by decide)]
    exact Nat.succ_ne_zero _
  rw [urlToLinkFrom, h.groupsOf_eq]
  simp only [groupsOfCut, Function.update_apply]
  simp [hquery]

end SpiderSearch.UrlCut
