import SpiderSearch.LetterRuns
import SpiderSearch.Links
import SpiderSearch.SearchResults

namespace SpiderSearch.Phrase

open CppTypes DbClient Keyword HttpServer
open LetterRuns (runs mem_runs endsIn)

def hexDigit (n : UInt8) : UInt8 := if n < 10 then 48 + n else 55 + n

/-- What a browser sends for one byte of a form field. -/
def formByte (c : UInt8) : Str :=
  if Links.isAlnum c then [c]
  else if c = ch ' ' then [ch '+']
  else [ch '%', hexDigit (c / 16), hexDigit (c % 16)]

def formEncode (phrase : Str) : Str := phrase.flatMap formByte

/-- A part of the phrase that consists of letters and does not go on in either direction. -/
def IsRun (phrase w : Str) : Prop :=
  w.all isAlpha = true ∧ ∃ before after, phrase = before ++ w ++ after ∧
    (∀ c ∈ before.getLast?, isAlpha c = false) ∧ ∀ c ∈ after.head?, isAlpha c = false

/-- The words of a phrase, in small letters. -/
def Typed (phrase k : Str) : Prop := ∃ w, IsRun phrase w ∧ 3 < w.length ∧ k = toLower w

/-- The same word also stands between two spaces, with nothing next to it. -/
def Alone (phrase w : Str) : Prop :=
  ∃ t ∈ phrase.splitOn (ch ' '), t.all isAlpha = true ∧ toLower t = toLower w

/-- A database that fails for one keyword and has no rows for the others. -/
def failsAt (k s : Str) : Except Unit (StdMap Int) := if s = k then .error () else .ok ∅

/-- A database that fails for the keyword makes the request fail. -/
def LooksUp (request : Request) (k : Str) : Prop :=
  ∀ response, createResponsePost (failsAt k) request response = .error (.db ())

theorem addKeywords_failsAt (k : Str) (ks : List Str) (acc : StdMap Int) :
    addKeywords (failsAt k) ks acc = if k ∈ ks then .error () else .ok acc := by
  induction ks with
  | nil => rfl
  | cons s ks ih =>
    rw [addKeywords, failsAt]
    by_cases hs : s = k
    · rw [if_pos hs, if_pos (by simp [hs])]
    · have hk : k ∈ s :: ks ↔ k ∈ ks := by simp [Ne.symm hs]
      rw [if_neg hs]
      simp only [hk]
      exact ih

theorem looksUp_iff {value : Str} {ks : List Str} (hk : getKeyword value = some ks)
    {request : Request} (ht : request.target = str "/") (hb : request.body = str "search=" ++ value)
    (k : Str) : LooksUp request k ↔ k ∈ ks := by
  have ha : ∀ response, createResponsePost (failsAt k) request response = .error (.db ()) ↔
      k ∈ ks := by
    intro response
    rw [createResponsePost_search _ value request response ht hb, answer, hk]
    cases ks with
    | nil => simp
    | cons s ks =>
      simp only [addKeywords_failsAt]
      by_cases h : k ∈ s :: ks
      · simp [h]
      · simp [h]
  exact ⟨fun h => (ha .initial).mp (h .initial), fun h response => (ha response).mpr h⟩

/-- Induction over the pieces between the separators. -/
theorem splitOn_induction {motive : Str → Prop} (x : UInt8) (last : ∀ l, x ∉ l → motive l)
    (step : ∀ v r, x ∉ v → motive r → motive (v ++ x :: r)) (l : Str) : motive l := by
  induction hn : l.length using Nat.strong_induction_on generalizing l with
  | _ n ih =>
    by_cases hx : x ∈ l
    · obtain ⟨v, r, rfl, hv⟩ := List.eq_append_cons_of_mem hx
      refine step v r hv (ih r.length ?_ r rfl)
      rw [← hn, List.length_append, List.length_cons]
      omega
    · exact last l hx

/-- A piece is followed and preceded by separators. -/
theorem mem_splitOn {x : UInt8} {l t : Str} (h : t ∈ l.splitOn x) :
    ∃ before after, l = before ++ t ++ after ∧ (∀ c ∈ before.getLast?, c = x) ∧
      ∀ c ∈ after.head?, c = x := by
  induction l using splitOn_induction x with
  | last l hx =>
    rw [List.splitOn_eq_singleton hx, List.mem_singleton] at h
    exact ⟨[], [], by simp [h], nofun, nofun⟩
  | step v r hv ih =>
    rw [List.splitOn_append_cons_self_of_not_mem hv] at h
    obtain rfl | h := List.mem_cons.mp h
    · exact ⟨[], x :: r, rfl, nofun, fun c hc => by simpa [eq_comm] using hc⟩
    · obtain ⟨before, after, rfl, hbefore, hafter⟩ := ih h
      refine ⟨v ++ x :: before, after, by simp, fun c hc => ?_, hafter⟩
      rw [List.getLast?_append, List.getLast?_cons] at hc
      cases hb : before.getLast? with
      | none => simpa [hb, eq_comm] using hc
      | some b => exact hbefore c (by simpa [hb] using hc)

theorem isAlnum_of_isAlpha {c : UInt8} (h : isAlpha c = true) : Links.isAlnum c = true := by
  rw [Links.isAlnum, h, Bool.true_or]

theorem isAlnum_range {c : UInt8} (h : Links.isAlnum c = true) : 48 ≤ c.toNat := by
  rw [Links.isAlnum, Bool.or_eq_true, isAlpha_iff, Bool.and_eq_true, decide_eq_true_eq,
    decide_eq_true_eq] at h
  obtain h | ⟨h, -⟩ := h
  · omega
  · exact UInt8.le_iff_toNat_le.mp h

theorem tolower_of_isAlnum {c : UInt8} (h : Links.isAlnum c = true) : tolower c ≠ ch '+' := by
  intro he
  have hn : (tolower c).toNat = 43 := congrArg UInt8.toNat he
  have hl := isAlnum_range h
  rw [toNat_tolower] at hn
  split_ifs at hn <;> omega

theorem tolower_hexDigit : ∀ n : UInt8, n < 16 → tolower (hexDigit n) ≠ ch '+' := by
  decide +kernel

theorem plus_notMem_formByte {c : UInt8} (hc : c ≠ ch ' ') :
    ∀ b ∈ formByte c, tolower b ≠ ch '+' := by
  intro b hb
  rw [formByte] at hb
  by_cases ha : Links.isAlnum c = true
  · rw [if_pos ha, List.mem_singleton] at hb
    rw [hb]
    exact tolower_of_isAlnum ha
  · rw [if_neg ha, if_neg hc] at hb
    simp only [List.mem_cons, List.not_mem_nil, or_false] at hb
    obtain rfl | rfl | rfl := hb
    · decide
    · exact tolower_hexDigit _ (UInt8.lt_iff_toNat_lt.mpr (by
        rw [UInt8.toNat_div]
        exact Nat.div_lt_of_lt_mul c.toNat_lt))
    · exact tolower_hexDigit _ (UInt8.mod_lt c (by decide))

theorem formByte_of_isAlpha {c : UInt8} (h : isAlpha c = true) : formByte c = [c] := by
  rw [formByte, if_pos (isAlnum_of_isAlpha h)]

/-- A byte that is not a letter is encoded with one that is not. -/
theorem formByte_all (c : UInt8) : ((formByte c).all fun b => isAlpha (tolower b)) = isAlpha c := by
  by_cases ha : Links.isAlnum c = true
  · rw [formByte, if_pos ha, List.all_cons, List.all_nil, Bool.and_true, isAlpha_tolower]
  · have hc : isAlpha c = false := Bool.eq_false_iff.mpr fun h => ha (isAlnum_of_isAlpha h)
    rw [formByte, if_neg ha, hc]
    split_ifs
    · decide
    · have hp : isAlpha (tolower (ch '%')) = false := by decide
      rw [List.all_cons, hp, Bool.false_and]

theorem plus_notMem_formEncode {t : Str} (h : ch ' ' ∉ t) : ch '+' ∉ toLower (formEncode t) := by
  intro hm
  obtain ⟨b, hb, he⟩ := List.mem_map.mp hm
  obtain ⟨c, hc, hb⟩ := List.mem_flatMap.mp hb
  exact plus_notMem_formByte (fun hs => h (hs ▸ hc)) b hb he

/-- The pieces of the encoded phrase are the encoded pieces of the phrase. -/
theorem splitOn_formEncode (phrase : Str) :
    (toLower (formEncode phrase)).splitOn (ch '+') =
      (phrase.splitOn (ch ' ')).map fun t => toLower (formEncode t) := by
  induction phrase using splitOn_induction (ch ' ') with
  | last t ht =>
    rw [List.splitOn_eq_singleton (plus_notMem_formEncode ht), List.splitOn_eq_singleton ht,
      List.map_singleton]
  | step t r ht ih =>
    have he : toLower (formEncode (t ++ ch ' ' :: r)) =
        toLower (formEncode t) ++ ch '+' :: toLower (formEncode r) := by
      rw [formEncode, List.flatMap_append, toLower, List.map_append]
      rfl
    rw [he, List.splitOn_append_cons_self_of_not_mem (plus_notMem_formEncode ht), ih,
      List.splitOn_append_cons_self_of_not_mem ht, List.map_cons]

theorem formEncode_all (t : Str) : (toLower (formEncode t)).all isAlpha = t.all isAlpha := by
  rw [toLower, List.all_map, formEncode, List.all_flatMap]
  exact congrArg t.all (funext formByte_all)

theorem formEncode_of_all {t : Str} (h : t.all isAlpha = true) : formEncode t = t := by
  induction t with
  | nil => rfl
  | cons c t ih =>
    rw [List.all_cons, Bool.and_eq_true] at h
    rw [formEncode, List.flatMap_cons, formByte_of_isAlpha h.1]
    exact congrArg (c :: ·) (ih h.2)

/-- The keywords of a phrase are its words that stand alone. -/
theorem mem_getKeyword_formEncode {phrase : Str} {ks : List Str}
    (hlen : (formEncode phrase).length < npos) (h : getKeyword (formEncode phrase) = some ks)
    (k : Str) : k ∈ ks ↔
      ∃ t ∈ phrase.splitOn (ch ' '), t.all isAlpha = true ∧ 3 < t.length ∧ k = toLower t := by
  rw [mem_getKeyword hlen h, splitOn_formEncode, List.mem_map]
  apply Iff.intro
  · rintro ⟨⟨t, ht, rfl⟩, ha⟩
    rw [accepted, formEncode_all, Bool.and_eq_true, decide_eq_true_eq] at ha
    rw [formEncode_of_all ha.1] at ha ⊢
    exact ⟨t, ht, ha.1, by simpa [toLower] using ha.2, rfl⟩
  · rintro ⟨t, ht, ha, hl, rfl⟩
    refine ⟨⟨t, ht, by rw [formEncode_of_all ha]⟩, ?_⟩
    have hall := formEncode_all t
    rw [formEncode_of_all ha] at hall
    rw [accepted, hall, ha, Bool.true_and, decide_eq_true_eq, toLower, List.length_map]
    exact hl

theorem isRun_of_alone {phrase t : Str} (ht : t ∈ phrase.splitOn (ch ' '))
    (ha : t.all isAlpha = true) : IsRun phrase t := by
  have hspace : isAlpha (ch ' ') = false := by decide
  obtain ⟨before, after, he, hb, hf⟩ := mem_splitOn ht
  refine ⟨ha, before, after, he, fun c hc => ?_, fun c hc => ?_⟩
  · rw [hb c hc, hspace]
  · rw [hf c hc, hspace]

/-- The words typed are the words looked up exactly when each of them also stands alone. -/
theorem words_looked_up_iff (phrase : Str) (hlen : (formEncode phrase).length < npos)
    (request : Request) (ht : request.target = str "/")
    (hb : request.body = str "search=" ++ formEncode phrase) :
    (∀ k, LooksUp request k ↔ Typed phrase k) ↔
      ∀ w, IsRun phrase w → 3 < w.length → Alone phrase w := by
  obtain ⟨ks, hk⟩ := getKeyword_total hlen
  have hmem := mem_getKeyword_formEncode hlen hk
  apply Iff.intro
  · intro h w hw hl
    have hl' : LooksUp request (toLower w) := (h _).mpr ⟨w, hw, hl, rfl⟩
    obtain ⟨t, ht', ha, -, he⟩ := (hmem _).mp ((looksUp_iff hk ht hb _).mp hl')
    exact ⟨t, ht', ha, he.symm⟩
  · intro h k
    rw [looksUp_iff hk ht hb, hmem]
    apply Iff.intro
    · rintro ⟨t, ht', ha, hl, rfl⟩
      exact ⟨t, isRun_of_alone ht' ha, hl, rfl⟩
    · rintro ⟨w, hw, hl, rfl⟩
      obtain ⟨t, ht', ha, he⟩ := h w hw hl
      have hlt : t.length = w.length := by simpa [toLower] using congrArg List.length he
      exact ⟨t, ht', ha, hlt ▸ hl, he.symm⟩

theorem mem_runs_of_isRun {phrase w : Str} (hw : IsRun phrase w) (hne : w ≠ []) :
    ∃ r ∈ runs isAlpha phrase, r.word = w := by
  obtain ⟨ha, before, after, rfl, hb, hf⟩ := hw
  refine ⟨⟨before, w, after⟩,
    mem_runs.mpr ⟨List.append_assoc .., hne, List.all_eq_true.mp ha, ?_, hf⟩, rfl⟩
  rw [endsIn]
  cases hl : before.getLast? with
  | none => rfl
  | some c => exact hb c hl

/-- Punctuation marks with spaces around them, and a word too short to be looked up. -/
def typedPhrase : Str := str "Spider , big ! Robots - spider"

theorem spider_looked_up :
    LooksUp (SearchResults.post (formEncode typedPhrase)) (str "spider") ∧
    LooksUp (SearchResults.post (formEncode typedPhrase)) (str "robots") ∧
    ¬ LooksUp (SearchResults.post (formEncode typedPhrase)) (str "big") := by
  have halone : ∀ r ∈ runs isAlpha typedPhrase, 3 < r.word.length →
      ∃ t ∈ typedPhrase.splitOn (ch ' '), t.all isAlpha = true ∧ toLower t = toLower r.word := by
    decide
  have hk := (words_looked_up_iff typedPhrase (by decide)
    (SearchResults.post (formEncode typedPhrase)) rfl rfl).mpr fun w hw hl => by
      obtain ⟨r, hr, rfl⟩ := mem_runs_of_isRun hw (List.ne_nil_of_length_pos (by omega))
      exact halone r hr hl
  have hspider : IsRun typedPhrase (str "Spider") :=
    ⟨by decide, [], str " , big ! Robots - spider", rfl, nofun, by decide +kernel⟩
  have hrobots : IsRun typedPhrase (str "Robots") :=
    ⟨by decide, str "Spider , big ! ", str " - spider", rfl, by decide +kernel, by decide +kernel⟩
  refine ⟨(hk _).mpr ⟨_, hspider, by decide, by decide⟩,
    (hk _).mpr ⟨_, hrobots, by decide, by decide⟩, fun hbig => ?_⟩
  obtain ⟨w, -, hl, he⟩ := (hk _).mp hbig
  have hlen : (str "big").length = w.length := by rw [he, toLower, List.length_map]
  exact absurd hl (by rw [← hlen]; decide)

/-- The comma behind the first word makes the word itself disappear. -/
theorem spider_missed : ¬ ∀ (phrase : Str), (formEncode phrase).length < npos →
    ∀ request : Request, request.target = str "/" →
      request.body = str "search=" ++ formEncode phrase →
        ∀ k, LooksUp request k ↔ Typed phrase k := by
  intro h
  have hk : getKeyword (formEncode (str "spider, robot")) = some [str "robot"] := by decide +kernel
  have hrun : IsRun (str "spider, robot") (str "spider") :=
    ⟨by decide, [], str ", robot", rfl, nofun, fun c hc => by cases hc; decide⟩
  have hl := (h (str "spider, robot") (by decide) (SearchResults.post _) rfl rfl (str "spider")).mpr
    ⟨_, hrun, by decide, by decide⟩
  exact absurd ((looksUp_iff hk rfl rfl _).mp hl) (by decide)

end SpiderSearch.Phrase
