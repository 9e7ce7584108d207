import SpiderSearch.DbClient
import SpiderSearch.Keyword
import SpiderSearch.Links

namespace SpiderSearch.Words

open CppTypes DbClient Keyword Regex Links

/-- `<title>(.?)[^<]*`. -/
def titlePattern : Pattern UInt8 :=
  .seq (lit (str "<title>")) (.seq (.group 1 (.opt (.sym dot))) (.star true (· != ch '<')))

/-- `s.find(w)`, `none` for `npos`. -/
def findText (w : Str) : Str → Option Nat
  | [] => if w.isPrefixOf [] then some 0 else none
  | c :: s => if w.isPrefixOf (c :: s) then some 0 else (findText w s).map (· + 1)

/-- `s.erase(0, pos)`. -/
def eraseTo (s : Str) : Option Nat → Str
  | some pos => s.drop pos
  | none => []

/-- The text whose words are counted. -/
def testString1 (html : Str) : Str :=
  let titleStr :=
    match search titlePattern html with
    | some titleRes => titleRes.text ++ str "</title>"
    | none => []
  titleStr ++ eraseTo html (findText (str "<body") html)

/-- `while (*begin != '>')`. An iterator is the text from it to the end; the result is `none`
where the iterator is read at the end. -/
def skipTag : Str → Option Str
  | [] => none
  | c :: rest =>
    if c = ch '>' then some (c :: rest) else if rest.isEmpty then some [] else skipTag rest

/-- `while (isAlpha(*begin))`, with the word read before. -/
def readWord (word : Str) : Str → Option (Str × Str)
  | [] => none
  | c :: rest =>
    if isAlpha c then if rest.isEmpty then some (word ++ [c], []) else readWord (word ++ [c]) rest
    else some (word, c :: rest)

def minSize : Nat := 3

/-- The counts are `unsigned int`s that no text below 2^32 bytes makes wrap: see `extractWords_le`. -/
def countWord (word : Str) (wordArray : StdMap Nat) : StdMap Nat :=
  if word.length > minSize then
    wordArray.insert (toLower word) (wordArray.getD (toLower word) 0 + 1)
  else wordArray

/-- `while (*begin != '<')`. -/
def readText : Nat → StdMap Nat → Str → Option (StdMap Nat × Str)
  | 0, _, _ => none
  | fuel + 1, wordArray, s =>
    if s.head? = some (ch '<') then some (wordArray, s)
    else
      match readWord [] s with
      | none => none
      | some (_, []) => some (wordArray, [])
      | some (word, _ :: rest) =>
        if rest.isEmpty then some (countWord word wordArray, [])
        else readText fuel (countWord word wordArray) rest

/-- `while (begin != end)`. -/
def scan : Nat → StdMap Nat → Str → Option (StdMap Nat)
  | 0, _, _ => none
  | fuel + 1, wordArray, s =>
    if s.isEmpty then some wordArray
    else
      match skipTag s with
      | none => none
      | some [] => some wordArray
      | some s =>
        match readText (s.length + 1) wordArray s with
        | none => none
        | some (wordArray, []) => some wordArray
        | some (wordArray, s) => scan fuel wordArray s

def extractWords (html : Str) : Option (StdMap Nat) :=
  scan ((testString1 html).length + 1) ∅ (testString1 html)

theorem toLower_toLower (s : Str) : toLower (toLower s) = toLower s := by
  rw [toLower, toLower, List.map_map]
  exact List.map_congr_left fun c _ => tolower_tolower c

theorem skipTag_spec (c : UInt8) (rest : Str) :
    ∃ v t, skipTag (c :: rest) = some t ∧ c :: rest = v ++ t ∧ ch '>' ∉ v ∧
      (t = [] ∨ ∃ t', t = ch '>' :: t') := by
  induction rest generalizing c with
  | nil =>
    by_cases hc : c = ch '>'
    · exact ⟨[], [c], by simp [skipTag, hc], rfl, List.not_mem_nil, .inr ⟨[], by rw [hc]⟩⟩
    · exact ⟨[c], [], by simp [skipTag, hc], rfl, by simpa using Ne.symm hc, .inl rfl⟩
  | cons d rest ih =>
    by_cases hc : c = ch '>'
    · exact ⟨[], c :: d :: rest, by simp [skipTag, hc], rfl, List.not_mem_nil,
        .inr ⟨d :: rest, by rw [hc]⟩⟩
    · obtain ⟨v, t, hs, he, hv, ht⟩ := ih d
      refine ⟨c :: v, t, ?_, by rw [he]; rfl, ?_, ht⟩
      · rw [skipTag, if_neg hc, if_neg (by simp), hs]
      · exact List.not_mem_cons_of_ne_of_not_mem (Ne.symm hc) hv

theorem readWord_spec (word : Str) (c : UInt8) (rest : Str) :
    ∃ v t, readWord word (c :: rest) = some (word ++ v, t) ∧ c :: rest = v ++ t ∧
      v.all isAlpha = true ∧ ∀ d ∈ t.head?, isAlpha d = false := by
  induction rest generalizing word c with
  | nil =>
    cases hc : isAlpha c with
    | true => exact ⟨[c], [], by simp [readWord, hc], rfl, by simp [hc], by simp⟩
    | false => exact ⟨[], [c], by simp [readWord, hc], rfl, rfl, by simp [hc]⟩
  | cons d rest ih =>
    cases hc : isAlpha c with
    | true =>
      obtain ⟨v, t, hr, he, hv, ht⟩ := ih (word ++ [c]) d
      refine ⟨c :: v, t, ?_, by rw [he]; rfl, by simp [hc, hv], ht⟩
      rw [readWord, if_pos hc, if_neg (by simp), hr, List.append_assoc]
      rfl
    | false => exact ⟨[], c :: d :: rest, by simp [readWord, hc], rfl, rfl, by simp [hc]⟩

/-- What the indexer stores and the search asks for. -/
def IsWord (w : Str) : Prop := w.all isAlpha = true ∧ minSize < w.length ∧ toLower w = w

theorem mem_countWord {word w : Str} {wordArray : StdMap Nat} (h : w ∈ countWord word wordArray) :
    w ∈ wordArray ∨ w = toLower word ∧ minSize < word.length := by
  rw [countWord] at h
  split at h
  next hl =>
    rw [Std.ExtTreeMap.mem_insert] at h
    obtain h | h := h
    · exact .inr ⟨(Std.compare_eq_iff_eq.mp h).symm, hl⟩
    · exact .inl h
  · exact .inl h

theorem isWord_toLower {word : Str} (ha : word.all isAlpha = true) (hl : minSize < word.length) :
    IsWord (toLower word) := by
  refine ⟨?_, by rwa [toLower, List.length_map], toLower_toLower word⟩
  rw [List.all_eq_true] at ha ⊢
  intro c hc
  obtain ⟨b, hb, rfl⟩ := List.mem_map.mp hc
  exact (isAlpha_tolower b).trans (ha b hb)

theorem IsWord.notMem {w : Str} (hw : IsWord w) {d : UInt8} (hd : isAlpha d = false) : d ∉ w := by
  intro hm
  have ha := List.all_eq_true.mp hw.1 d hm
  rw [hd] at ha
  cases ha

/-- The text loop never reads past the end, leaves a shorter text unless it stands before a tag,
and counts words only. -/
theorem readText_spec (fuel : Nat) (wordArray : StdMap Nat) (s : Str) (hs : s ≠ [])
    (hf : s.length < fuel) :
    ∃ counts t, readText fuel wordArray s = some (counts, t) ∧
      t.length ≤ s.length ∧ (s.head? ≠ some (ch '<') → t.length < s.length) ∧
      ((∀ w ∈ wordArray, IsWord w) → ∀ w ∈ counts, IsWord w) := by
  induction fuel generalizing wordArray s with
  | zero => omega
  | succ fuel ih =>
    rw [readText]
    by_cases hc : s.head? = some (ch '<')
    · exact ⟨wordArray, s, if_pos hc, le_rfl, fun h => absurd hc h, id⟩
    · rw [if_neg hc]
      obtain ⟨c, rest, rfl⟩ := List.exists_cons_of_ne_nil hs
      obtain ⟨v, t, hr, he, hv, -⟩ := readWord_spec [] c rest
      rw [List.nil_append] at hr
      have hlen : (c :: rest).length = v.length + t.length := by rw [he, List.length_append]
      have hcount : (∀ w ∈ wordArray, IsWord w) → ∀ w ∈ countWord v wordArray, IsWord w := by
        intro hw w hm
        obtain hm | ⟨rfl, hl⟩ := mem_countWord hm
        · exact hw w hm
        · exact isWord_toLower hv hl
      cases t with
      | nil => exact ⟨wordArray, [], by rw [hr], Nat.zero_le _, fun _ => by simp, id⟩
      | cons d t =>
        rw [List.length_cons] at hlen hf
        rw [List.length_cons] at hlen
        rw [hr]
        cases t with
        | nil => exact ⟨countWord v wordArray, [], rfl, Nat.zero_le _, fun _ => by simp, hcount⟩
        | cons e t =>
          obtain ⟨counts, u, hu, hle, -, hcounts⟩ := ih (countWord v wordArray) (e :: t) (by simp)
            (by omega)
          rw [List.length_cons] at hlen hle ⊢
          exact ⟨counts, u, hu, by omega, fun _ => by omega, fun hw => hcounts (hcount hw)⟩

/-- The scanner ends without reading past the end, and counts words only. -/
theorem scan_spec (fuel : Nat) (wordArray : StdMap Nat) (s : Str) (hf : s.length < fuel) :
    ∃ counts, scan fuel wordArray s = some counts ∧
      ((∀ w ∈ wordArray, IsWord w) → ∀ w ∈ counts, IsWord w) := by
  induction fuel generalizing wordArray s with
  | zero => omega
  | succ fuel ih =>
    cases s with
    | nil => exact ⟨wordArray, rfl, id⟩
    | cons c rest =>
      obtain ⟨v, t, hs, he, -, ht⟩ := skipTag_spec c rest
      rw [scan, if_neg (by simp), hs]
      have hlen : (c :: rest).length = v.length + t.length := by rw [he, List.length_append]
      obtain rfl | ⟨t', rfl⟩ := ht
      · exact ⟨wordArray, rfl, id⟩
      · obtain ⟨counts, u, hr, -, hlt, hw⟩ := readText_spec ((ch '>' :: t').length + 1) wordArray
          (ch '>' :: t') (by simp) (Nat.lt_succ_self _)
        have hlt' := hlt (by rw [List.head?_cons, ne_eq, Option.some.injEq]; decide)
        dsimp only
        rw [hr]
        cases u with
        | nil => exact ⟨counts, rfl, hw⟩
        | cons d u =>
          obtain ⟨counts', hs', hw'⟩ := ih counts (d :: u) (by omega)
          exact ⟨counts', hs', fun h => hw' (hw h)⟩

theorem extractWords_spec (html : Str) :
    ∃ words, extractWords html = some words ∧ ∀ w ∈ words, IsWord w := by
  obtain ⟨words, hs, hw⟩ := scan_spec _ ∅ (testString1 html) (Nat.lt_succ_self _)
  exact ⟨words, hs, hw (by simp)⟩

theorem getD_countWord_le {wordArray : StdMap Nat} {n : Nat} (hn : ∀ w, wordArray.getD w 0 ≤ n)
    (word w : Str) : (countWord word wordArray).getD w 0 ≤ n + word.length := by
  rw [countWord]
  split
  next hl =>
    rw [Std.ExtTreeMap.getD_insert]
    have h := hn (toLower word)
    have hw := hn w
    split <;> omega
  · exact (hn w).trans (Nat.le_add_right _ _)

theorem readText_le {fuel n : Nat} {wordArray counts : StdMap Nat} {s t : Str}
    (h : readText fuel wordArray s = some (counts, t)) (hn : ∀ w, wordArray.getD w 0 ≤ n) (w : Str) :
    counts.getD w 0 + t.length ≤ n + s.length := by
  induction fuel generalizing n wordArray s with
  | zero => cases h
  | succ fuel ih =>
    rw [readText] at h
    split_ifs at h
    · cases h
      exact Nat.add_le_add_right (hn w) _
    · cases s with
      | nil => cases h
      | cons c rest =>
        obtain ⟨v, u, hr, he, -, -⟩ := readWord_spec [] c rest
        rw [List.nil_append] at hr
        rw [hr] at h
        rw [he, List.length_append]
        have hword := getD_countWord_le hn v
        match u, h with
        | [], h =>
          cases h
          have hw := hn w
          rw [List.length_nil]
          omega
        | [d], h =>
          cases h
          have hw := hword w
          simp only [List.length_nil, List.length_singleton]
          omega
        | d :: e :: u, h =>
          have hrest := ih h hword
          simp only [List.length_cons] at hrest ⊢
          omega

theorem scan_le {fuel n : Nat} {wordArray counts : StdMap Nat} {s : Str}
    (h : scan fuel wordArray s = some counts) (hn : ∀ w, wordArray.getD w 0 ≤ n) (w : Str) :
    counts.getD w 0 ≤ n + s.length := by
  induction fuel generalizing n wordArray s with
  | zero => cases h
  | succ fuel ih =>
    have hself : wordArray.getD w 0 ≤ n + s.length := (hn w).trans (Nat.le_add_right _ _)
    cases s with
    | nil =>
      cases h
      exact hself
    | cons c rest =>
      obtain ⟨v, t, hs, he, -, -⟩ := skipTag_spec c rest
      rw [scan, if_neg (by simp), hs] at h
      have hlen : t.length ≤ (c :: rest).length := by
        rw [he, List.length_append]
        exact Nat.le_add_left _ _
      cases t with
      | nil =>
        cases h
        exact hself
      | cons d t =>
        dsimp only at h
        cases hr : readText ((d :: t).length + 1) wordArray (d :: t) with
        | none =>
          rw [hr] at h
          cases h
        | some r =>
          obtain ⟨words, u⟩ := r
          have hle := readText_le hr hn
          rw [hr] at h
          cases u with
          | nil =>
            cases h
            exact (hle w).trans (Nat.add_le_add_left hlen n)
          | cons e u =>
            have hrest := ih h fun w' => Nat.le_sub_of_add_le (hle w')
            have hw := hle w
            omega

/-- No count is larger than the text is long. -/
theorem extractWords_le {html : Str} {words : StdMap Nat} (h : extractWords html = some words)
    (w : Str) : words.getD w 0 ≤ (testString1 html).length := by
  have hle := scan_le h (n := 0) (fun w => by simp) w
  rwa [Nat.zero_add] at hle

end SpiderSearch.Words
