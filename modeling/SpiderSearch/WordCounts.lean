import Mathlib.Data.List.DropRight
import SpiderSearch.LetterRuns
import SpiderSearch.Words

namespace SpiderSearch.WordCounts

open CppTypes DbClient Words LetterRuns

/-- The scanner started on a text. -/
def scanText (t : Str) : Option (StdMap Nat) := scan (t.length + 1) ∅ t

def bracket (c : UInt8) : Bool := c == ch '<' || c == ch '>'

/-- The last bracket before a position closes a tag. -/
def outside (before : Str) : Bool := (before.filter bracket).getLast? == some (ch '>')

/-- What stands behind the last `>`. -/
def sinceClose (before : Str) : Str := before.rtakeWhile (· != ch '>')

/-- Every `<` stands directly behind a letter; `letter` tells whether one stands before the text. -/
def attached (letter : Bool) : Str → Bool
  | [] => true
  | c :: s => (c != ch '<' || letter) && attached (isAlpha c) s

/-- The scanner takes a position for text. -/
def inText (before : Str) : Bool := before.contains (ch '>') && attached false (sinceClose before)

/-- How often a word is a letter run outside the tags. -/
def outsideRuns (t w : Str) : Nat :=
  (runs isAlpha t).countP fun r => outside r.before && toLower r.word == w

/-- A run that the scanner counts. -/
def counted (r : Run UInt8) : Bool :=
  decide (minSize < r.word.length) && !r.after.isEmpty && inText r.before

def tally (rs : List (Run UInt8)) (w : Str) : Nat :=
  rs.countP fun r => counted r && toLower r.word == w

theorem elim_getLast?_cons (letter : Bool) (c : UInt8) (s : Str) :
    (c :: s).getLast?.elim letter isAlpha = s.getLast?.elim (isAlpha c) isAlpha := by
  cases s with
  | nil => rfl
  | cons d s => rw [List.getLast?_cons_cons, List.getLast?_cons, Option.elim, Option.elim]

theorem attached_concat (letter : Bool) (s : Str) (c : UInt8) :
    attached letter (s ++ [c]) =
      (attached letter s && (c != ch '<' || s.getLast?.elim letter isAlpha)) := by
  induction s generalizing letter with
  | nil => simp [attached]
  | cons d s ih => rw [List.cons_append, attached, attached, ih, Bool.and_assoc, elim_getLast?_cons]

theorem attached_elim (letter : Bool) (s : Str) : attached letter s = true ↔
    ∀ u v, s = u ++ ch '<' :: v → u.getLast?.elim letter isAlpha = true := by
  induction s generalizing letter with
  | nil => simp [attached]
  | cons c s ih =>
    rw [attached, Bool.and_eq_true, ih]
    apply Iff.intro
    · rintro ⟨hc, hs⟩ u v he
      cases u with
      | nil =>
        obtain rfl : c = ch '<' := (List.cons.inj he).1
        simpa using hc
      | cons d u =>
        obtain ⟨rfl, rfl⟩ := List.cons.inj he
        rw [elim_getLast?_cons]
        exact hs u v rfl
    · intro h
      refine ⟨?_, ?_⟩
      · by_cases hc : c = ch '<'
        · have hl := h [] s (by rw [hc]; rfl)
          simpa using .inr hl
        · simp [hc]
      · rintro u v rfl
        rw [← elim_getLast?_cons]
        exact h (c :: u) v rfl

/-- A text is attached when a letter stands before each of its opening brackets. -/
theorem attached_iff (s : Str) : attached false s = true ↔
    ∀ u v, s = u ++ ch '<' :: v → endsIn isAlpha u = true := by
  rw [attached_elim]
  apply forall₃_congr
  intro u v _
  rw [endsIn]
  cases u.getLast? with
  | none => rfl
  | some c => rfl

theorem sinceClose_close (before : Str) : sinceClose (before ++ [ch '>']) = [] := by
  rw [sinceClose, List.rtakeWhile_concat_neg]
  simp

theorem sinceClose_concat {c : UInt8} (hc : c ≠ ch '>') (before : Str) :
    sinceClose (before ++ [c]) = sinceClose before ++ [c] := by
  rw [sinceClose, List.rtakeWhile_concat_pos _ _ _ (by simp [hc]), sinceClose]

theorem endsIn_sinceClose {before : Str} (h : ch '>' ∈ before) :
    (sinceClose before).getLast?.elim false isAlpha = endsIn isAlpha before := by
  obtain ⟨a, ha⟩ := List.rtakeWhile_suffix (· != ch '>') before
  by_cases hs : sinceClose before = []
  · obtain ⟨b, c, rfl⟩ := (List.eq_nil_or_concat' before).resolve_left (List.ne_nil_of_mem h)
    by_cases hc : c = ch '>'
    · rw [hs, hc, endsIn_concat]
      rfl
    · rw [sinceClose_concat hc] at hs
      simp at hs
  · rw [← sinceClose] at ha
    rw [← ha, endsIn_append_of_ne_nil a hs, ha, endsIn]
    cases (sinceClose before).getLast? with
    | none => rfl
    | some c => rfl

theorem inText_close (before : Str) : inText (before ++ [ch '>']) = true := by
  rw [inText, sinceClose_close]
  simp [attached]

theorem inText_concat {c : UInt8} (hc : c ≠ ch '>') (before : Str) :
    inText (before ++ [c]) = (inText before && (c != ch '<' || endsIn isAlpha before)) := by
  rw [inText, inText, sinceClose_concat hc, attached_concat]
  by_cases hm : ch '>' ∈ before
  · simp [hm, endsIn_sinceClose hm]
  · simp [hm, Ne.symm hc]

theorem letter_ne {c d : UInt8} (hc : isAlpha c = true) (hd : isAlpha d = false) : c ≠ d := by
  rintro rfl
  rw [hc] at hd
  cases hd

theorem inText_letters {v : Str} (hv : ∀ c ∈ v, isAlpha c = true) (before : Str) :
    inText (before ++ v) = inText before := by
  induction v generalizing before with
  | nil => rw [List.append_nil]
  | cons c v ih =>
    obtain ⟨hc, hv⟩ := List.forall_mem_cons.mp hv
    have hlt : c ≠ ch '<' := letter_ne hc (by decide)
    rw [List.append_cons, ih hv, inText_concat (letter_ne hc (by decide))]
    simp [hlt]

/-- The last bracket closes a tag when none opens one behind the last `>`. -/
theorem outside_iff (before : Str) :
    outside before = true ↔ ch '>' ∈ before ∧ ch '<' ∉ sinceClose before := by
  have hne : ch '>' ≠ ch '<' := by decide
  induction before using List.reverseRecOn with
  | nil => simp [outside]
  | append_singleton before c ih =>
    rw [outside, beq_iff_eq, List.filter_append]
    by_cases hgt : c = ch '>'
    · rw [hgt, sinceClose_close]
      simp [bracket]
    rw [sinceClose_concat hgt]
    by_cases hlt : c = ch '<'
    · rw [hlt]
      simp [bracket, hne.symm]
    · have hc : [c].filter bracket = [] := by simp [bracket, hgt, hlt]
      rw [outside, beq_iff_eq] at ih
      rw [hc, List.append_nil]
      refine ih.trans ?_
      simp [Ne.symm hgt, Ne.symm hlt]

theorem inText_of_outside {before : Str} (h : outside before = true) : inText before = true := by
  obtain ⟨hgt, hlt⟩ := (outside_iff before).mp h
  rw [inText, Bool.and_eq_true, attached_iff]
  refine ⟨by simpa using hgt, ?_⟩
  intro u v he
  exact absurd (by rw [he]; simp) hlt

theorem tally_cons (r : Run UInt8) (rs : List (Run UInt8)) (w : Str) :
    tally (r :: rs) w = tally rs w + if counted r && toLower r.word == w then 1 else 0 := by
  rw [tally, List.countP_cons]
  rfl

theorem tally_of_not_counted {r : Run UInt8} (h : counted r = false) (rs : List (Run UInt8))
    (w : Str) : tally (r :: rs) w = tally rs w := by
  rw [tally_cons, h]
  simp

/-- The counts still to come make up the given totals. -/
structure Pending (total : Str → Nat) (wordArray : StdMap Nat) (before s : Str) : Prop where
  sum : ∀ w, wordArray.getD w 0 + tally (runsFrom isAlpha before s) w = total w
  keys : ∀ w, w ∈ wordArray ↔ 0 < wordArray.getD w 0

section Steps

variable {total : Str → Nat} {wordArray : StdMap Nat} {before s t v : Str} {c : UInt8}

theorem Pending.skip (h : Pending total wordArray before (c :: s))
    (hc : isAlpha c = false ∨ endsIn isAlpha before = true ∨ inText before = false) :
    Pending total wordArray (before ++ [c]) s := by
  refine ⟨fun w => ?_, h.keys⟩
  rw [← h.sum w]
  congr 1
  rw [runsFrom]
  split_ifs with hr
  · rw [Bool.and_eq_true, Bool.not_eq_true'] at hr
    have hin : inText before = false := by simpa [hr] using hc
    rw [tally_of_not_counted]
    simp [counted, hin]
  · rfl

/-- Between an opening bracket and the next `>` nothing is counted. -/
theorem Pending.skipTag (h : Pending total wordArray before (v ++ t)) (hv : ch '>' ∉ v)
    (hb : inText before = false ∨ endsIn isAlpha before = false ∧ ∀ c ∈ v.head?, c = ch '<') :
    Pending total wordArray (before ++ v) t := by
  induction v generalizing before with
  | nil => rwa [List.append_nil]
  | cons c v ih =>
    have hc : c ≠ ch '>' := fun he => hv (by rw [he]; exact List.mem_cons_self)
    rw [List.append_cons]
    apply ih
    · apply h.skip
      obtain hb | ⟨-, hlt⟩ := hb
      · exact .inr (.inr hb)
      · rw [hlt c rfl]
        exact .inl (by decide)
    · exact fun hm => hv (List.mem_cons_of_mem c hm)
    · left
      rw [inText_concat hc]
      obtain hb | ⟨hb, hlt⟩ := hb
      · rw [hb, Bool.false_and]
      · rw [hb, hlt c rfl]
        simp

theorem getD_countWord (word : Str) (wordArray : StdMap Nat) (w : Str) :
    (countWord word wordArray).getD w 0 = wordArray.getD w 0 +
      if minSize < word.length ∧ toLower word = w then 1 else 0 := by
  rw [countWord]
  by_cases hl : word.length > minSize
  · rw [if_pos hl, Std.ExtTreeMap.getD_insert]
    by_cases hw : toLower word = w
    · rw [if_pos (Std.compare_eq_iff_eq.mpr hw), if_pos ⟨hl, hw⟩, hw]
    · rw [if_neg fun h => hw (Std.compare_eq_iff_eq.mp h), if_neg fun h => hw h.2, Nat.add_zero]
  · rw [if_neg hl, if_neg fun h => hl h.1, Nat.add_zero]

theorem mem_countWord_iff {wordArray : StdMap Nat}
    (h : ∀ w, w ∈ wordArray ↔ 0 < wordArray.getD w 0) (word w : Str) :
    w ∈ countWord word wordArray ↔ 0 < (countWord word wordArray).getD w 0 := by
  rw [getD_countWord, countWord]
  by_cases hl : word.length > minSize
  · rw [if_pos hl, Std.ExtTreeMap.mem_insert, Std.compare_eq_iff_eq, h w]
    by_cases hw : toLower word = w
    · simp [hw, hl]
    · simp [hw]
  · rw [if_neg hl, if_neg fun h => hl h.1, Nat.add_zero, h w]

/-- A run in the text is counted, except at the end. -/
theorem Pending.word (h : Pending total wordArray before (v ++ t)) (hne : v ≠ [])
    (hv : ∀ c ∈ v, isAlpha c = true) (hb : endsIn isAlpha before = false)
    (hin : inText before = true) (ht : t ≠ []) (hh : ∀ c ∈ t.head?, isAlpha c = false) :
    Pending total (countWord v wordArray) (before ++ v) t := by
  have hsum := h.sum
  rw [runsFrom_word hne hv hb hh] at hsum
  refine ⟨fun w => ?_, mem_countWord_iff h.keys v⟩
  rw [getD_countWord, ← hsum w, tally_cons]
  have hc : (counted ⟨before, v, t⟩ && toLower v == w) =
      decide (minSize < v.length ∧ toLower v = w) := by
    rw [Bool.eq_iff_iff]
    simp [counted, ht, hin]
  rw [hc]
  simp only [decide_eq_true_eq]
  omega

theorem Pending.lastWord (h : Pending total wordArray before v)
    (hv : ∀ c ∈ v, isAlpha c = true) (hb : endsIn isAlpha before = false) :
    Pending total wordArray (before ++ v) [] := by
  by_cases hne : v = []
  · rw [hne] at h ⊢
    rwa [List.append_nil]
  · have hsum := h.sum
    rw [← List.append_nil v, runsFrom_word hne hv hb (by simp)] at hsum
    refine ⟨fun w => ?_, h.keys⟩
    rw [← hsum w, tally_of_not_counted (by simp [counted])]

end Steps

/-- The element behind a word is passed over, even an opening bracket. -/
theorem inText_passed {before v t : Str} {d : UInt8} (hin : inText before = true)
    (hv : ∀ c ∈ v, isAlpha c = true) (hlt : (v ++ d :: t).head? ≠ some (ch '<')) :
    inText (before ++ v ++ [d]) = true := by
  by_cases hgt : d = ch '>'
  · rw [hgt, inText_close]
  rw [inText_concat hgt, inText_letters hv, hin, Bool.true_and]
  by_cases hne : v = []
  · subst hne
    rw [List.nil_append, List.head?_cons] at hlt
    simpa using .inl (fun he => hlt (by rw [he]))
  · rw [endsIn_append_of_ne_nil before hne, endsIn_of_all hne hv]
    simp

/-- In the text the loop counts what it passes and stops before an opening bracket. -/
theorem readText_pending {total : Str → Nat} (fuel : Nat) {wordArray : StdMap Nat}
    {before s : Str} (hs : s ≠ []) (hf : s.length < fuel)
    (h : Pending total wordArray before s) (hb : endsIn isAlpha before = false)
    (hin : inText before = true) :
    ∃ counts v t, readText fuel wordArray s = some (counts, t) ∧ s = v ++ t ∧
      Pending total counts (before ++ v) t ∧
      (t ≠ [] → endsIn isAlpha (before ++ v) = false ∧ ∀ c ∈ t.head?, c = ch '<') := by
  induction fuel generalizing wordArray before s with
  | zero => omega
  | succ fuel ih =>
    rw [readText]
    by_cases hlt : s.head? = some (ch '<')
    · refine ⟨wordArray, [], s, if_pos hlt, rfl, by rwa [List.append_nil], fun _ => ?_⟩
      rw [List.append_nil]
      exact ⟨hb, fun c hc => Option.some.inj (hc.symm.trans hlt)⟩
    rw [if_neg hlt]
    obtain ⟨c, rest, rfl⟩ := List.exists_cons_of_ne_nil hs
    obtain ⟨v, t, hr, he, hv, ht⟩ := readWord_spec [] c rest
    rw [List.nil_append] at hr
    rw [List.all_eq_true] at hv
    rw [hr]
    rw [he] at h hlt hf ⊢
    cases t with
    | nil =>
      rw [List.append_nil] at h
      exact ⟨wordArray, v, [], rfl, rfl, h.lastWord hv hb, fun hne => absurd rfl hne⟩
    | cons d t =>
      have hd : isAlpha d = false := ht d rfl
      have hword : Pending total (countWord v wordArray) (before ++ v) (d :: t) := by
        by_cases hne : v = []
        · subst hne
          rw [List.append_nil]
          exact h
        · exact h.word hne hv hb hin (List.cons_ne_nil d t) ht
      have hnext := hword.skip (.inl hd)
      have hb' : endsIn isAlpha (before ++ v ++ [d]) = false := by rwa [endsIn_concat]
      have hin' : inText (before ++ v ++ [d]) = true := inText_passed hin hv hlt
      dsimp only
      by_cases hnil : t = []
      · rw [hnil] at hnext ⊢
        refine ⟨countWord v wordArray, v ++ [d], [], rfl, by simp, ?_, fun hne => absurd rfl hne⟩
        rwa [← List.append_assoc]
      · rw [if_neg (by simpa using hnil)]
        rw [List.length_append, List.length_cons] at hf
        obtain ⟨counts, u, t', hr', rfl, hp, hstop⟩ := ih hnil (by omega) hnext hb' hin'
        refine ⟨counts, v ++ d :: u, t', hr', by simp, ?_, ?_⟩
        · simpa using hp
        · simpa using hstop

theorem readText_close (fuel : Nat) (wordArray : StdMap Nat) (t : Str) :
    readText (fuel + 1) wordArray (ch '>' :: t) =
      if t.isEmpty then some (wordArray, []) else readText fuel wordArray t := by
  have hne : ch '>' ≠ ch '<' := by decide
  have ha : isAlpha (ch '>') = false := by decide
  rw [readText, List.head?_cons, if_neg (by simpa using hne), readWord, ha,
    if_neg Bool.false_ne_true]
  rfl

theorem scan_pending {total : Str → Nat} (fuel : Nat) {wordArray : StdMap Nat} {before s : Str}
    (hf : s.length < fuel) (h : Pending total wordArray before s)
    (hb : inText before = false ∨ endsIn isAlpha before = false ∧ ∀ c ∈ s.head?, c = ch '<') :
    ∃ counts, scan fuel wordArray s = some counts ∧ Pending total counts (before ++ s) [] := by
  induction fuel generalizing wordArray before s with
  | zero => omega
  | succ fuel ih =>
    rw [scan]
    cases s with
    | nil => exact ⟨wordArray, rfl, by rwa [List.append_nil]⟩
    | cons c rest =>
      obtain ⟨v, t, hs, he, hv, ht⟩ := skipTag_spec c rest
      rw [if_neg (by simp), hs]
      rw [he] at h hb hf ⊢
      have hb' : inText before = false ∨
          endsIn isAlpha before = false ∧ ∀ c ∈ v.head?, c = ch '<' := by
        refine hb.imp_right fun hb => ⟨hb.1, fun d hd => hb.2 d ?_⟩
        rw [Option.mem_def] at hd ⊢
        rw [List.head?_append, hd, Option.some_or]
      have htag := h.skipTag hv hb'
      obtain rfl | ⟨t', rfl⟩ := ht
      · rw [List.append_nil]
        exact ⟨wordArray, rfl, htag⟩
      have hclose := htag.skip (.inl (by decide))
      dsimp only
      rw [readText_close]
      by_cases hnil : t' = []
      · subst hnil
        refine ⟨wordArray, rfl, ?_⟩
        rwa [← List.append_assoc]
      rw [if_neg (by simpa using hnil)]
      obtain ⟨counts, u, t, hr, rfl, hp, hstop⟩ := readText_pending _ hnil (Nat.lt_succ_self _)
        hclose (by rw [endsIn_concat]; decide) (inText_close _)
      rw [List.length_cons, hr]
      cases t with
      | nil =>
        rw [List.append_nil]
        refine ⟨counts, rfl, ?_⟩
        simpa using hp
      | cons d t =>
        rw [List.length_append, List.length_cons, List.length_append] at hf
        obtain ⟨counts', hs', hp'⟩ := ih (by omega) hp (.inr (hstop (List.cons_ne_nil d t)))
        refine ⟨counts', hs', ?_⟩
        simpa using hp'

/-- The scanner counts the runs of more than three letters which it takes for text and which do
not end the text. -/
theorem scanText_counts (s : Str) : ∃ counts, scanText s = some counts ∧
    ∀ w, counts.getD w 0 = tally (runs isAlpha s) w ∧ (w ∈ counts ↔ 0 < counts.getD w 0) := by
  have hstart : Pending (tally (runs isAlpha s)) ∅ [] s := by
    refine ⟨fun w => ?_, fun w => ?_⟩
    · simp [runs]
    · simp
  obtain ⟨counts, hs, h⟩ := scan_pending (s.length + 1) (Nat.lt_succ_self _) hstart (.inl rfl)
  refine ⟨counts, hs, fun w => ⟨?_, h.keys w⟩⟩
  rw [← h.sum w]
  rfl

end SpiderSearch.WordCounts
