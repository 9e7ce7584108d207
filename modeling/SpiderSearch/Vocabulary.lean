import SpiderSearch.Words

namespace SpiderSearch.Vocabulary

open CppTypes DbClient Keyword Regex Links Words

/-- A word is its own only piece. -/
theorem getKeyword_of_isWord {w : Str} (hw : IsWord w) (hlen : w.length < npos) :
    getKeyword w = some [w] := by
  have hp : ch '+' ∉ w := hw.notMem (by decide)
  have ha : accepted w = true := by
    rw [accepted, hw.1]
    exact decide_eq_true hw.2.1
  rw [getKeyword_eq hlen, hw.2.2, List.splitOn_eq_singleton hp]
  simp [addPieces, addKeyword, ha]

theorem isWord_of_getKeyword {q w : Str} {ks : List Str} (h : getKeyword q = some ks)
    (hw : w ∈ ks) : IsWord w := by
  obtain ⟨ha, hc⟩ := getKeyword_word h hw
  rw [accepted, Bool.and_eq_true] at ha
  refine ⟨ha.1, of_decide_eq_true ha.2, ?_⟩
  have hlow : ∀ c ∈ w, tolower c = id c := by
    intro c hcw
    obtain ⟨b, -, rfl⟩ := List.mem_map.mp (hc c hcw)
    exact tolower_tolower b
  rw [toLower, List.map_congr_left hlow, List.map_id]

theorem readWord_append {v t : Str} (hv : v.all isAlpha = true) (word : Str) {d : UInt8}
    (hd : isAlpha d = false) : readWord word (v ++ d :: t) = some (word ++ v, d :: t) := by
  induction v generalizing word with
  | nil => simp [readWord, hd]
  | cons c v ih =>
    rw [List.all_cons, Bool.and_eq_true] at hv
    rw [List.cons_append, readWord, if_pos hv.1, if_neg (by simp), ih hv.2, List.append_assoc]
    rfl

def pageOf (w : Str) : Str := str "<body>" ++ w ++ str " "

theorem pageOf_eq (w : Str) : pageOf w = str "<body>" ++ (w ++ [ch ' ']) := by
  have h : str " " = [ch ' '] := by decide
  rw [pageOf, h, List.append_assoc]

theorem testString1_pageOf {w : Str} (hw : IsWord w) : testString1 (pageOf w) = pageOf w := by
  have htitle : search titlePattern (pageOf w) = none := by
    cases hs : search titlePattern (pageOf w) with
    | none => rfl
    | some m =>
      obtain ⟨before, he, u, e, hl, -⟩ := search_sound hs
      obtain ⟨ht, -⟩ := parses_lit.mp hl
      rw [ht, pageOf_eq] at he
      have hbody : str "<body>" = ch '<' :: str "body>" := by decide
      have htag : str "<title>" = ch '<' :: str "title>" := by decide
      rw [hbody, htag] at he
      cases before with
      | nil => simp [str, String.utf8EncodeChar] at he
      | cons c before =>
        -- the first character is the only bracket that opens a tag
        rw [List.cons_append, List.cons_append, List.cons.injEq] at he
        have hm : ch '<' ∈ str "body>" ++ (w ++ [ch ' ']) := by
          rw [he.2]
          simp
        have hb : ch '<' ∉ str "body>" := by decide
        have hsp : ch '<' ∉ [ch ' '] := by decide
        have hword : ch '<' ∉ w := hw.notMem (by decide)
        simp only [List.mem_append, hb, hsp, hword, or_self] at hm
  have hfind : findText (str "<body") (pageOf w) = some 0 := by
    have hp : (str "<body").isPrefixOf (pageOf w) = true := by
      refine List.isPrefixOf_iff_prefix.mpr ⟨str ">" ++ (w ++ [ch ' ']), ?_⟩
      have hb : str "<body" ++ str ">" = str "<body>" := by decide
      rw [pageOf_eq, ← List.append_assoc, hb]
    have hcons : pageOf w = ch '<' :: (str "body>" ++ (w ++ [ch ' '])) := by
      have hb : str "<body>" = ch '<' :: str "body>" := by decide
      rw [pageOf_eq, hb]
      rfl
    rw [hcons] at hp ⊢
    rw [findText, if_pos hp]
  rw [testString1, htitle, hfind]
  rfl

theorem readText_word {w : Str} (hw : IsWord w) (fuel : Nat) :
    readText (fuel + 2) ∅ (ch '>' :: (w ++ [ch ' '])) = some ((∅ : StdMap Nat).insert w 1, []) := by
  have hgt : isAlpha (ch '>') = false := by decide
  have hsp : isAlpha (ch ' ') = false := by decide
  have hlt : isAlpha (ch '<') = false := by decide
  have hhead : (w ++ [ch ' ']).head? ≠ some (ch '<') := by
    intro h
    have hm := List.mem_of_head? h
    rw [List.mem_append, List.mem_singleton] at hm
    exact hm.elim (hw.notMem hlt) (by decide)
  have hcount : countWord w ∅ = (∅ : StdMap Nat).insert w 1 := by
    rw [countWord, if_pos hw.2.1, hw.2.2]
    simp
  have hempty : countWord [] ∅ = (∅ : StdMap Nat) := if_neg (by decide)
  rw [readText, if_neg (by rw [List.head?_cons, Option.some.injEq]; decide), readWord, hgt]
  simp only [Bool.false_eq_true, if_false, hempty]
  rw [if_neg (by simp), readText, if_neg hhead, readWord_append hw.1 [] hsp, List.nil_append]
  simp [hcount]

/-- A page whose body is one word counts that word and nothing else. -/
theorem extractWords_pageOf {w : Str} (hw : IsWord w) :
    extractWords (pageOf w) = some ((∅ : StdMap Nat).insert w 1) := by
  have hskip : skipTag (pageOf w) = some (ch '>' :: (w ++ [ch ' '])) := by
    rw [pageOf_eq]
    rfl
  have hne : (pageOf w).isEmpty = false := by
    rw [pageOf_eq]
    rfl
  rw [extractWords, testString1_pageOf hw, scan, hne, hskip]
  simp only [Bool.false_eq_true, if_false]
  have hlen : (ch '>' :: (w ++ [ch ' '])).length + 1 = w.length + 1 + 2 := by simp
  rw [hlen, readText_word hw]

/-- The words that are stored are the words that can be asked for. -/
theorem index_search_agree :
    (∀ html, ∃ words, extractWords html = some words ∧
      ∀ w ∈ words, w.length < npos → getKeyword w = some [w]) ∧
    (∀ q, q.length < npos → ∃ ks, getKeyword q = some ks ∧
      ∀ w ∈ ks, extractWords (str "<body>" ++ w ++ str " ") = some ((∅ : StdMap Nat).insert w 1)) := by
  apply And.intro
  · intro html
    obtain ⟨words, h, hall⟩ := extractWords_spec html
    exact ⟨words, h, fun w hw hlen => getKeyword_of_isWord (hall w hw) hlen⟩
  · intro q hlen
    obtain ⟨ks, h⟩ := getKeyword_total hlen
    exact ⟨ks, h, fun w hw => extractWords_pageOf (isWord_of_getKeyword h hw)⟩

theorem spider_agrees :
    extractWords (str "<body>" ++ str "spider" ++ str " ") =
        some ((∅ : StdMap Nat).insert (str "spider") 1) ∧
      getKeyword (str "spider") = some [str "spider"] := by
  obtain ⟨ks, hk, hall⟩ := index_search_agree.2 (str "Spider+web2") (by decide)
  have hks : getKeyword (str "Spider+web2") = some [str "spider"] := by decide
  obtain rfl := Option.some.inj (hk.symm.trans hks)
  have hpage := hall (str "spider") (List.mem_singleton_self _)
  obtain ⟨words, hw, hback⟩ := index_search_agree.1 (str "<body>" ++ str "spider" ++ str " ")
  obtain rfl := Option.some.inj (hpage.symm.trans hw)
  exact ⟨hpage, hback (str "spider") (by simp) (by decide)⟩

end SpiderSearch.Vocabulary
