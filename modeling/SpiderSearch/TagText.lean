import Mathlib.Data.List.Perm.Subperm
import SpiderSearch.WordCounts

namespace SpiderSearch.TagText

open CppTypes DbClient Words LetterRuns WordCounts

/-- The words that are counted although they stand inside a tag. -/
def exposed (t : Str) : List Str :=
  ((runs isAlpha t).filter fun r => counted r && !outside r.before).map fun r => toLower r.word

/-- The word outside the tags which ends the text and is not counted. -/
def ending (t : Str) : List Str :=
  ((runs isAlpha t).filter fun r =>
    decide (minSize < r.word.length) && r.after.isEmpty && outside r.before).map
      fun r => toLower r.word

theorem counted_iff {r : Run UInt8} : counted r = true ↔
    minSize < r.word.length ∧ r.after ≠ [] ∧ inText r.before = true := by
  simp [counted, and_assoc]

theorem count_map_filter (P : Run UInt8 → Bool) (rs : List (Run UInt8)) (w : Str) :
    ((rs.filter P).map fun r => toLower r.word).count w =
      rs.countP fun r => P r && toLower r.word == w := by
  rw [List.count, List.countP_map, List.countP_filter]
  congr 1
  funext r
  rw [Function.comp_apply, Bool.and_comm]

theorem countP_or_of_disjoint {α : Type} {P Q R : α → Bool} (l : List α)
    (h : ∀ x ∈ l, P x = (Q x || R x)) (hd : ∀ x ∈ l, Q x = true → R x = false) :
    l.countP P = l.countP Q + l.countP R := by
  induction l with
  | nil => rfl
  | cons x l ih =>
    obtain ⟨hx, h⟩ := List.forall_mem_cons.mp h
    obtain ⟨hdx, hd⟩ := List.forall_mem_cons.mp hd
    rw [List.countP_cons, List.countP_cons, List.countP_cons, ih h hd, hx]
    cases hq : Q x with
    | false =>
      rw [Bool.false_or, if_neg Bool.false_ne_true]
      omega
    | true =>
      rw [Bool.true_or, hdx hq, if_neg Bool.false_ne_true]
      omega

/-- How often a word is counted outside the tags. -/
def shared (t w : Str) : Nat :=
  (runs isAlpha t).countP fun r => (counted r && outside r.before) && toLower r.word == w

theorem tally_eq (t w : Str) : tally (runs isAlpha t) w = shared t w + (exposed t).count w := by
  rw [tally, shared, exposed, count_map_filter]
  apply countP_or_of_disjoint
  · intro r _
    cases counted r with
    | false => rfl
    | true => cases outside r.before with
      | false => simp
      | true => simp
  · intro r _ h
    simp only [Bool.and_eq_true] at h
    simp [h.1.2]

theorem outsideRuns_eq (t : Str) {w : Str} (hw : minSize < w.length) :
    outsideRuns t w = shared t w + (ending t).count w := by
  rw [outsideRuns, shared, ending, count_map_filter]
  apply countP_or_of_disjoint
  · intro r _
    by_cases hr : toLower r.word = w
    · have hl : minSize < r.word.length := by rwa [← hr, toLower, List.length_map] at hw
      cases ho : outside r.before with
      | false => simp
      | true => simp [counted, hl, hr, inText_of_outside ho]
    · have hf : (toLower r.word == w) = false := beq_false_of_ne hr
      simp [hf]
  · intro r _ h
    simp only [Bool.and_eq_true, counted_iff] at h
    simp [h.1.1.2.1]

theorem length_of_mem_exposed {t w : Str} (h : w ∈ exposed t) : minSize < w.length := by
  obtain ⟨r, hr, rfl⟩ := List.mem_map.mp h
  rw [List.mem_filter, Bool.and_eq_true, counted_iff] at hr
  rw [toLower, List.length_map]
  exact hr.2.1.1

theorem ending_length (t : Str) : (ending t).length ≤ 1 := by
  rw [ending, List.length_map]
  have hn := (runs_nodup isAlpha t).filter fun r =>
    decide (minSize < r.word.length) && r.after.isEmpty && outside r.before
  have hone : ∀ r ∈ (runs isAlpha t).filter fun r =>
      decide (minSize < r.word.length) && r.after.isEmpty && outside r.before,
      Maximal isAlpha t r ∧ r.after = [] := by
    intro r hr
    obtain ⟨hr, hend⟩ := List.mem_filter.mp hr
    simp only [Bool.and_eq_true, List.isEmpty_iff] at hend
    exact ⟨mem_runs.mp hr, hend.1.2⟩
  revert hn hone
  generalize (runs isAlpha t).filter _ = rs
  intro hn hone
  match rs with
  | [] => exact Nat.zero_le 1
  | [_] => exact le_rfl
  | r :: q :: rs =>
    obtain ⟨hr, hra⟩ := hone r (by simp)
    obtain ⟨hq, hqa⟩ := hone q (by simp)
    have hrq := hr.eq_of_last hq hra hqa
    rw [hrq] at hn
    exact absurd List.mem_cons_self (List.nodup_cons.mp hn).1

theorem count_le_iff {l m : List Str} (hm : m.length ≤ 1) :
    (∀ w, l.count w ≤ m.count w) ↔ l = [] ∨ l = m := by
  apply Iff.intro
  · intro h
    have hs : List.Subperm l m := List.subperm_ext_iff.mpr fun w _ => h w
    match m, hm with
    | [], _ => exact .inl (List.subperm_nil.mp hs)
    | [x], _ => exact List.subperm_singleton_iff.mp hs
  · rintro (rfl | rfl) w
    · exact Nat.zero_le _
    · exact le_rfl

/-- Tag text is not counted exactly when no letter run of more than three letters stands inside a
tag behind text whose opening brackets all touch a letter; a run that equals the last word of the
text, which is not counted, makes up for it. -/
theorem counts_le_outside_iff (html : Str) :
    (∃ words, extractWords html = some words ∧
      ∀ w, words.getD w 0 ≤ outsideRuns (testString1 html) w) ↔
    exposed (testString1 html) = [] ∨
      exposed (testString1 html) = ending (testString1 html) := by
  obtain ⟨words, hs, hw⟩ := scanText_counts (testString1 html)
  rw [← count_le_iff (ending_length _)]
  apply Iff.intro
  · rintro ⟨words', hs', hle⟩ w
    obtain rfl : words = words' := Option.some.inj (hs.symm.trans hs')
    by_cases hm : w ∈ exposed (testString1 html)
    · have h := hle w
      rw [(hw w).1, tally_eq, outsideRuns_eq _ (length_of_mem_exposed hm)] at h
      omega
    · rw [List.count_eq_zero_of_not_mem hm]
      exact Nat.zero_le _
  · intro h
    refine ⟨words, hs, fun w => ?_⟩
    rw [(hw w).1, tally_eq]
    by_cases hl : minSize < w.length
    · rw [outsideRuns_eq _ hl]
      exact Nat.add_le_add_left (h w) _
    · have hshared : shared (testString1 html) w = 0 := by
        rw [shared, List.countP_eq_zero]
        intro r _ hr
        simp only [Bool.and_eq_true, counted_iff, beq_iff_eq] at hr
        rw [← hr.2, toLower, List.length_map] at hl
        exact hl hr.1.1.1
      rw [hshared, List.count_eq_zero_of_not_mem fun hm => hl (length_of_mem_exposed hm)]
      exact Nat.zero_le _

/-- The closing tag of a title is passed over in part and its name is counted. -/
theorem title_counted : ¬ ∀ html, ∃ words, extractWords html = some words ∧
    ∀ w, words.getD w 0 ≤ outsideRuns (testString1 html) w := by
  intro h
  have htext : testString1 (str "<title>Spider</title>") = str "<title>Spider</title>" := by
    decide +kernel
  have hcounted : tally (runs isAlpha (str "<title>Spider</title>")) (str "title") = 1 := by
    decide +kernel
  have hinside : outsideRuns (str "<title>Spider</title>") (str "title") = 0 := by
    decide +kernel
  obtain ⟨words, hs, hle⟩ := h (str "<title>Spider</title>")
  obtain ⟨words', hs', hw⟩ := scanText_counts (testString1 (str "<title>Spider</title>"))
  obtain rfl : words' = words := Option.some.inj (hs'.symm.trans hs)
  have htitle := hle (str "title")
  rw [(hw _).1, htext, hcounted, hinside] at htitle
  exact absurd htitle (by decide)

/-- No word outside the tags is missed, unless it ends the text. -/
theorem outside_le_counts (html : Str)
    (hend : ∀ c ∈ (testString1 html).getLast?, isAlpha c = false) (w : Str)
    (hl : minSize < w.length) :
    ∃ words, extractWords html = some words ∧
      outsideRuns (testString1 html) w ≤ words.getD w 0 := by
  obtain ⟨words, hs, hw⟩ := scanText_counts (testString1 html)
  refine ⟨words, hs, ?_⟩
  have hnone : (ending (testString1 html)).count w = 0 := by
    apply List.count_eq_zero_of_not_mem
    intro hm
    obtain ⟨r, hr, -⟩ := List.mem_map.mp hm
    obtain ⟨hr, he⟩ := List.mem_filter.mp hr
    simp only [Bool.and_eq_true, List.isEmpty_iff] at he
    have hr := mem_runs.mp hr
    have hlast : endsIn isAlpha (testString1 html) = true := by
      rw [hr.text, he.1.2, List.append_nil, endsIn_append_of_ne_nil _ hr.nonempty]
      exact endsIn_of_all hr.nonempty hr.marked
    have hnot : endsIn isAlpha (testString1 html) = false := by
      rw [endsIn]
      cases hc : (testString1 html).getLast? with
      | none => rfl
      | some c => exact hend c hc
    rw [hlast] at hnot
    cases hnot
  rw [(hw w).1, tally_eq, outsideRuns_eq _ hl, hnone]
  omega

theorem spider_not_missed : ∃ words, extractWords (str "<body>Spider ") = some words ∧
    outsideRuns (testString1 (str "<body>Spider ")) (str "spider") ≤ words.getD (str "spider") 0 :=
  outside_le_counts (str "<body>Spider ") (by decide +kernel) (str "spider") (by decide)

/-- How the scanner takes a text is settled by what stands behind the last `>`. -/
theorem inText_append_of_mem {b : Str} (hb : ch '>' ∈ b) (a : Str) :
    inText (a ++ b) = inText b := by
  have hs : sinceClose (a ++ b) = sinceClose b := by
    induction b using List.reverseRecOn with
    | nil => cases hb
    | append_singleton b c ih =>
      rw [← List.append_assoc]
      by_cases hc : c = ch '>'
      · rw [hc, sinceClose_close, sinceClose_close]
      · have hm : ch '>' ∈ b := by simpa [Ne.symm hc] using hb
        rw [sinceClose_concat hc, sinceClose_concat hc, ih hm]
  rw [inText, inText, hs]
  simp [hb]

theorem tally_map {f : Run UInt8 → Run UInt8} {rs : List (Run UInt8)}
    (h : ∀ r ∈ rs, counted (f r) = counted r ∧ (f r).word = r.word) (w : Str) :
    tally (rs.map f) w = tally rs w := by
  rw [tally, tally, List.countP_map]
  apply List.countP_congr
  intro r hr
  obtain ⟨hc, hword⟩ := h r hr
  rw [Function.comp_apply, hc, hword]

/-- After a `>` the scanner is where it is at the start of a text that begins with one. -/
theorem tally_append (s t w : Str) :
    tally (runs isAlpha (s ++ ch '>' :: t)) w =
      tally (runs isAlpha (s ++ [ch '>'])) w + tally (runs isAlpha (ch '>' :: t)) w := by
  have hgt : isAlpha (ch '>') = false := by decide
  have hend : endsIn isAlpha (s ++ [ch '>']) = false := by rw [endsIn_concat, hgt]
  have hextend : tally ((runs isAlpha (s ++ [ch '>'])).map (·.extend t)) w =
      tally (runs isAlpha (s ++ [ch '>'])) w := by
    apply tally_map
    intro r hr
    have hm := mem_runs.mp hr
    have ha : r.after ≠ [] := by
      intro he
      rw [hm.text, he, List.append_nil, endsIn_append_of_ne_nil _ hm.nonempty,
        endsIn_of_all hm.nonempty hm.marked] at hend
      cases hend
    refine ⟨?_, rfl⟩
    rw [Bool.eq_iff_iff, counted_iff, counted_iff]
    simp [Run.extend, ha]
  have hshift : tally ((runsFrom isAlpha [ch '>'] t).map (·.shift s)) w =
      tally (runsFrom isAlpha [ch '>'] t) w := by
    apply tally_map
    intro r hr
    obtain ⟨hm, hl⟩ := mem_runsFrom.mp hr
    have hb : ch '>' ∈ r.before := by
      obtain ⟨c, b, hb⟩ := List.exists_cons_of_length_pos hl
      have ht := hm.text
      rw [hb] at ht ⊢
      rw [(List.cons.inj ht).1]
      exact List.mem_cons_self
    refine ⟨?_, rfl⟩
    rw [Bool.eq_iff_iff, counted_iff, counted_iff, Run.shift, inText_append_of_mem hb]
  have hfirst : runs isAlpha (ch '>' :: t) = runsFrom isAlpha [ch '>'] t :=
    runsFrom_skip (.inl hgt)
  have hcut := runsFrom_append (b := []) (s := s ++ [ch '>']) hend t
  rw [List.nil_append, runsFrom_shift s (by rw [hend]; simp [endsIn, hgt])] at hcut
  rw [List.append_cons, runs, hcut, tally, List.countP_append, ← tally, ← tally, hshift, hfirst]
  exact congrArg (· + _) hextend

theorem scanText_append (s t : Str) : ∃ a b c, scanText (s ++ [ch '>']) = some a ∧
    scanText (ch '>' :: t) = some b ∧ scanText (s ++ ch '>' :: t) = some c ∧
    ∀ w, c.getD w 0 = a.getD w 0 + b.getD w 0 ∧ (w ∈ c ↔ w ∈ a ∨ w ∈ b) := by
  obtain ⟨a, ha, hat⟩ := scanText_counts (s ++ [ch '>'])
  obtain ⟨b, hb, hbt⟩ := scanText_counts (ch '>' :: t)
  obtain ⟨c, hc, hct⟩ := scanText_counts (s ++ ch '>' :: t)
  refine ⟨a, b, c, ha, hb, hc, fun w => ?_⟩
  have hsum : c.getD w 0 = a.getD w 0 + b.getD w 0 := by
    rw [(hct w).1, tally_append, (hat w).1, (hbt w).1]
  refine ⟨hsum, ?_⟩
  rw [(hct w).2, hsum, (hat w).2, (hbt w).2]
  omega

theorem scanText_flatMap (s : Str) (pieces : List Str) (t : Str) :
    ∃ a bs b c, scanText (s ++ [ch '>']) = some a ∧
      List.Forall₂ (fun p b => scanText (ch '>' :: (p ++ [ch '>'])) = some b) pieces bs ∧
      scanText (ch '>' :: t) = some b ∧
      scanText (s ++ ch '>' :: (pieces.flatMap (· ++ [ch '>']) ++ t)) = some c ∧
      ∀ w, c.getD w 0 = a.getD w 0 + (bs.map (·.getD w 0)).sum + b.getD w 0 ∧
        (w ∈ c ↔ w ∈ a ∨ (∃ b ∈ bs, w ∈ b) ∨ w ∈ b) := by
  induction pieces generalizing s with
  | nil =>
    obtain ⟨a, b, c, ha, hb, hc, h⟩ := scanText_append s t
    refine ⟨a, [], b, c, ha, .nil, hb, hc, fun w => ?_⟩
    simpa using h w
  | cons p pieces ih =>
    obtain ⟨a', bs, b, c', ha', hbs, hb, hc', h'⟩ := ih (ch '>' :: p)
    obtain ⟨a, b', c, ha, hb', hc, h⟩ :=
      scanText_append s (p ++ ch '>' :: (pieces.flatMap (· ++ [ch '>']) ++ t))
    obtain rfl : b' = c' := Option.some.inj (hb'.symm.trans hc')
    refine ⟨a, a' :: bs, b, c, ha, .cons ha' hbs, hb, by simpa using hc, fun w => ⟨?_, ?_⟩⟩
    · rw [(h w).1, (h' w).1, List.map_cons, List.sum_cons]
      omega
    · rw [(h w).2, (h' w).2]
      simp [or_assoc]

/-- The counts of a text that is cut behind some of its `>` are the sum of the counts of its
pieces, where each piece begins with the `>` before it. -/
theorem scan_resynchronises (s : Str) (pieces : List Str) (t : Str) :
    (∃ a b c, scanText (s ++ [ch '>']) = some a ∧ scanText (ch '>' :: t) = some b ∧
      scanText (s ++ [ch '>'] ++ t) = some c ∧
      ∀ w, c.getD w 0 = a.getD w 0 + b.getD w 0 ∧ (w ∈ c ↔ w ∈ a ∨ w ∈ b)) ∧
    ∃ a bs b c, scanText (s ++ [ch '>']) = some a ∧
      List.Forall₂ (fun p b => scanText (ch '>' :: (p ++ [ch '>'])) = some b) pieces bs ∧
      scanText (ch '>' :: t) = some b ∧
      scanText (s ++ [ch '>'] ++ (pieces.flatMap (· ++ [ch '>']) ++ t)) = some c ∧
      ∀ w, c.getD w 0 = a.getD w 0 + (bs.map (·.getD w 0)).sum + b.getD w 0 ∧
        (w ∈ c ↔ w ∈ a ∨ (∃ b ∈ bs, w ∈ b) ∨ w ∈ b) := by
  rw [List.append_assoc, List.append_assoc]
  exact ⟨scanText_append s t, scanText_flatMap s pieces t⟩

end SpiderSearch.TagText
