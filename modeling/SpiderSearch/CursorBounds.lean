import Mathlib.Logic.Relation
import SpiderSearch.Words

namespace SpiderSearch.CursorBounds

open CppTypes DbClient Words

/-- Where the loops of `extractWords` stand. -/
inductive Point where
  /-- `while (begin != end)` -/
  | outer
  /-- `while (*begin != '>')` -/
  | skip
  | skipNext
  | skipped
  /-- `while (*begin != '<')` -/
  | text
  /-- `while (isAlpha(*begin))` -/
  | word
  | wordNext
  | worded
  | count
  | texted
  | done

structure Cursor where
  point : Point
  begin : Nat
  word : Str
  wordArray : StdMap Nat

/-- One step; `none` where `*begin` is read at the end or behind it. -/
def step (text : Str) : Cursor → Option Cursor
  | ⟨.outer, begin, word, wordArray⟩ =>
    some ⟨if begin ≠ text.length then .skip else .done, begin, word, wordArray⟩
  | ⟨.skip, begin, word, wordArray⟩ =>
    text[begin]?.map fun c =>
      ⟨if c ≠ ch '>' then .skipNext else .skipped, begin, word, wordArray⟩
  | ⟨.skipNext, begin, word, wordArray⟩ =>
    some ⟨if begin + 1 ≥ text.length then .skipped else .skip, begin + 1, word, wordArray⟩
  | ⟨.skipped, begin, word, wordArray⟩ =>
    some ⟨if begin ≥ text.length then .done else .text, begin, word, wordArray⟩
  | ⟨.text, begin, word, wordArray⟩ =>
    text[begin]?.map fun c =>
      if c ≠ ch '<' then ⟨.word, begin, [], wordArray⟩ else ⟨.texted, begin, word, wordArray⟩
  | ⟨.word, begin, word, wordArray⟩ =>
    text[begin]?.map fun c =>
      ⟨if isAlpha c then .wordNext else .worded, begin, word, wordArray⟩
  | ⟨.wordNext, begin, word, wordArray⟩ =>
    text[begin]?.map fun c =>
      ⟨if begin + 1 ≥ text.length then .worded else .word, begin + 1, word ++ [c], wordArray⟩
  | ⟨.worded, begin, word, wordArray⟩ =>
    some ⟨if begin ≥ text.length then .texted else .count, begin, word, wordArray⟩
  | ⟨.count, begin, word, wordArray⟩ =>
    some ⟨if begin + 1 ≥ text.length then .texted else .text, begin + 1,
      if word.length > minSize then toLower word else word, countWord word wordArray⟩
  | ⟨.texted, begin, word, wordArray⟩ =>
    some ⟨if begin ≥ text.length then .done else .outer, begin, word, wordArray⟩
  | ⟨.done, begin, word, wordArray⟩ => some ⟨.done, begin, word, wordArray⟩

def start : Cursor := ⟨.outer, 0, [], ∅⟩

def Steps (text : Str) : Cursor → Cursor → Prop :=
  Relation.ReflTransGen fun s t => step text s = some t

/-- The next step reads `*begin`. -/
def Point.reads : Point → Bool
  | .skip | .text | .word | .wordNext => true
  | _ => false

/-- The next step is `++begin`. -/
def Point.advances : Point → Bool
  | .skipNext | .wordNext | .count => true
  | _ => false

structure InBounds (text : Str) (s : Cursor) : Prop where
  upTo : s.begin ≤ text.length
  inside : s.point.reads = true ∨ s.point.advances = true → s.begin < text.length

variable {text : Str} {s t : Cursor}

theorem inBounds_of_test {begin : Nat} (h : begin ≤ text.length) {p q : Point}
    (hp : p.reads = false ∧ p.advances = false) (word : Str) (wordArray : StdMap Nat) :
    InBounds text
      ⟨if begin ≥ text.length then p else q, begin, word, wordArray⟩ := by
  refine ⟨h, ?_⟩
  dsimp only
  split_ifs with he
  · simp [hp]
  · exact fun _ => Nat.lt_of_not_le he

/-- Within its bounds the scanner takes a step, which stays within them. -/
theorem step_inBounds (h : InBounds text s) :
    ∃ t, step text s = some t ∧ InBounds text t := by
  obtain ⟨point, begin, word, wordArray⟩ := s
  obtain ⟨hle, hlt⟩ := h
  dsimp only at hle hlt
  cases point with
  | outer =>
    refine ⟨_, rfl, hle, ?_⟩
    dsimp only
    split_ifs with he
    · exact fun _ => lt_of_le_of_ne hle he
    · simp [Point.reads, Point.advances]
  | skip =>
    have hin := hlt (.inl rfl)
    rw [step, List.getElem?_eq_getElem hin]
    exact ⟨_, rfl, hle, fun _ => hin⟩
  | skipNext => exact ⟨_, rfl, inBounds_of_test (hlt (.inr rfl)) ⟨rfl, rfl⟩ _ _⟩
  | skipped => exact ⟨_, rfl, inBounds_of_test hle ⟨rfl, rfl⟩ _ _⟩
  | text =>
    have hin := hlt (.inl rfl)
    rw [step, List.getElem?_eq_getElem hin, Option.map_some]
    refine ⟨_, rfl, ?_⟩
    split_ifs
    · exact ⟨hle, fun _ => hin⟩
    · exact ⟨hle, fun _ => hin⟩
  | word =>
    have hin := hlt (.inl rfl)
    rw [step, List.getElem?_eq_getElem hin]
    exact ⟨_, rfl, hle, fun _ => hin⟩
  | wordNext =>
    have hin := hlt (.inl rfl)
    rw [step, List.getElem?_eq_getElem hin]
    exact ⟨_, rfl, inBounds_of_test hin ⟨rfl, rfl⟩ _ _⟩
  | worded => exact ⟨_, rfl, inBounds_of_test hle ⟨rfl, rfl⟩ _ _⟩
  | count => exact ⟨_, rfl, inBounds_of_test (hlt (.inr rfl)) ⟨rfl, rfl⟩ _ _⟩
  | texted => exact ⟨_, rfl, inBounds_of_test hle ⟨rfl, rfl⟩ _ _⟩
  | done => exact ⟨_, rfl, hle, hlt⟩

theorem steps_inBounds (h : Steps text start s) : InBounds text s := by
  induction h with
  | refl => exact ⟨Nat.zero_le _, by simp [start, Point.reads, Point.advances]⟩
  | tail _ hstep ih =>
    obtain ⟨t, ht, hin⟩ := step_inBounds ih
    rw [hstep] at ht
    exact Option.some.inj ht ▸ hin

theorem Steps.next {u : Cursor} (h : Steps text s t) (ht : step text t = some u) :
    Steps text s u :=
  Relation.ReflTransGen.tail h ht

theorem Steps.of_step {u : Cursor} (hs : step text s = some t)
    (h : Steps text t u) : Steps text s u :=
  Relation.ReflTransGen.head hs h

theorem length_ge_append (u t : Str) : u.length ≥ (u ++ t).length ↔ t = [] := by
  rw [List.length_append, ← List.length_eq_zero_iff]
  omega

section Tests

variable (before rest word : Str) (wordArray : StdMap Nat)

theorem step_skipped : step (before ++ rest) ⟨.skipped, before.length, word, wordArray⟩ =
    some ⟨if rest = [] then .done else .text, before.length, word, wordArray⟩ := by
  simp only [step, length_ge_append]

theorem step_worded : step (before ++ rest) ⟨.worded, before.length, word, wordArray⟩ =
    some ⟨if rest = [] then .texted else .count, before.length, word, wordArray⟩ := by
  simp only [step, length_ge_append]

theorem step_texted : step (before ++ rest) ⟨.texted, before.length, word, wordArray⟩ =
    some ⟨if rest = [] then .done else .outer, before.length, word, wordArray⟩ := by
  simp only [step, length_ge_append]

end Tests

section Positions

variable (before : Str) (c : UInt8) (rest word : Str) (wordArray : StdMap Nat)

theorem getElem?_middle : (before ++ c :: rest)[before.length]? = some c := by
  rw [List.getElem?_append_right le_rfl, Nat.sub_self, List.getElem?_cons_zero]

theorem length_middle : (before ++ [c]).length ≥ (before ++ c :: rest).length ↔ rest = [] := by
  rw [List.append_cons before c rest, length_ge_append]

theorem step_skip : step (before ++ c :: rest) ⟨.skip, before.length, word, wordArray⟩ =
    some ⟨if c ≠ ch '>' then .skipNext else .skipped, before.length, word, wordArray⟩ := by
  rw [step, getElem?_middle, Option.map_some]

theorem step_skipNext : step (before ++ c :: rest) ⟨.skipNext, before.length, word, wordArray⟩ =
    some ⟨if rest = [] then .skipped else .skip, (before ++ [c]).length, word, wordArray⟩ := by
  rw [step, ← List.length_singleton (a := c), ← List.length_append]
  simp only [length_middle]

theorem step_text : step (before ++ c :: rest) ⟨.text, before.length, word, wordArray⟩ =
    some (if c ≠ ch '<' then ⟨.word, before.length, [], wordArray⟩
      else ⟨.texted, before.length, word, wordArray⟩) := by
  rw [step, getElem?_middle, Option.map_some]

theorem step_word : step (before ++ c :: rest) ⟨.word, before.length, word, wordArray⟩ =
    some ⟨if isAlpha c then .wordNext else .worded, before.length, word, wordArray⟩ := by
  rw [step, getElem?_middle, Option.map_some]

theorem step_wordNext : step (before ++ c :: rest) ⟨.wordNext, before.length, word, wordArray⟩ =
    some ⟨if rest = [] then .worded else .word, (before ++ [c]).length, word ++ [c],
      wordArray⟩ := by
  rw [step, getElem?_middle, Option.map_some, ← List.length_singleton (a := c),
    ← List.length_append]
  simp only [length_middle]

theorem step_count : step (before ++ c :: rest) ⟨.count, before.length, word, wordArray⟩ =
    some ⟨if rest = [] then .texted else .text, (before ++ [c]).length,
      if word.length > minSize then toLower word else word, countWord word wordArray⟩ := by
  rw [step, ← List.length_singleton (a := c), ← List.length_append]
  simp only [length_middle]

end Positions

/-- The first inner loop goes to the end of the text or to the next `>`. -/
theorem skip_steps (before : Str) {rest : Str} (hne : rest ≠ []) (word : Str)
    (wordArray : StdMap Nat) :
    ∃ v t, skipTag rest = some t ∧ rest = v ++ t ∧
      Steps (before ++ rest) ⟨.skip, before.length, word, wordArray⟩
        ⟨.skipped, (before ++ v).length, word, wordArray⟩ := by
  induction rest generalizing before with
  | nil => exact absurd rfl hne
  | cons c rest ih =>
    have hskip := step_skip before c rest word wordArray
    have hnext := step_skipNext before c rest word wordArray
    by_cases hc : c = ch '>'
    · rw [if_neg (by simpa using hc)] at hskip
      exact ⟨[], c :: rest, by rw [skipTag, if_pos hc], rfl, .single (by rwa [List.append_nil])⟩
    rw [if_pos hc] at hskip
    by_cases hrest : rest = []
    · rw [if_pos hrest] at hnext
      exact ⟨[c], [], by simp [skipTag, hc, hrest], by rw [hrest]; rfl,
        (Steps.of_step hskip .refl).next hnext⟩
    · rw [if_neg hrest] at hnext
      obtain ⟨v, t, hs, he, hsteps⟩ := ih (before ++ [c]) hrest
      rw [← List.append_cons] at hsteps
      refine ⟨c :: v, t, by simp [skipTag, hc, hrest, hs], by rw [he]; rfl, ?_⟩
      rw [List.append_cons before c v]
      exact .of_step hskip (.of_step hnext hsteps)

/-- The innermost loop reads the letters before it. -/
theorem word_steps (before : Str) {rest : Str} (hne : rest ≠ []) (word : Str)
    (wordArray : StdMap Nat) :
    ∃ v t, readWord word rest = some (word ++ v, t) ∧ rest = v ++ t ∧
      Steps (before ++ rest) ⟨.word, before.length, word, wordArray⟩
        ⟨.worded, (before ++ v).length, word ++ v, wordArray⟩ := by
  induction rest generalizing before word with
  | nil => exact absurd rfl hne
  | cons c rest ih =>
    have hword := step_word before c rest word wordArray
    have hnext := step_wordNext before c rest word wordArray
    cases hc : isAlpha c with
    | false =>
      rw [hc, if_neg Bool.false_ne_true] at hword
      refine ⟨[], c :: rest, by simp [readWord, hc], rfl, .single ?_⟩
      rwa [List.append_nil, List.append_nil]
    | true =>
      rw [hc, if_pos rfl] at hword
      by_cases hrest : rest = []
      · rw [if_pos hrest] at hnext
        exact ⟨[c], [], by simp [readWord, hc, hrest], by rw [hrest]; rfl,
          (Steps.of_step hword .refl).next hnext⟩
      · rw [if_neg hrest] at hnext
        obtain ⟨v, t, hs, he, hsteps⟩ := ih (before ++ [c]) hrest (word ++ [c])
        rw [← List.append_cons] at hsteps
        refine ⟨c :: v, t, by simp [readWord, hc, hrest, hs], by rw [he]; rfl, ?_⟩
        rw [List.append_cons before c v, List.append_cons word c v]
        exact .of_step hword (.of_step hnext hsteps)

/-- The middle loop counts what `readText` counts. -/
theorem text_steps (fuel : Nat) (before : Str) {rest : Str} (hne : rest ≠ [])
    (hf : rest.length < fuel) (word : Str) (wordArray : StdMap Nat) :
    ∃ counts v t word', readText fuel wordArray rest = some (counts, t) ∧ rest = v ++ t ∧
      Steps (before ++ rest) ⟨.text, before.length, word, wordArray⟩
        ⟨.texted, (before ++ v).length, word', counts⟩ := by
  induction fuel generalizing before rest word wordArray with
  | zero => omega
  | succ fuel ih =>
    obtain ⟨c, s, hcs⟩ := List.exists_cons_of_ne_nil hne
    have htext := step_text before c s word wordArray
    rw [← hcs] at htext
    rw [readText]
    by_cases hc : c = ch '<'
    · rw [if_neg (by simpa using hc)] at htext
      refine ⟨wordArray, [], rest, word, if_pos (by rw [hcs, hc]; rfl), rfl, .single ?_⟩
      rwa [List.append_nil]
    rw [if_pos hc] at htext
    obtain ⟨v, t, hr, rfl, hword⟩ := word_steps before hne [] wordArray
    rw [List.nil_append] at hword hr
    rw [if_neg (by rw [hcs]; simpa using hc), hr]
    have hworded := step_worded (before ++ v) t v wordArray
    rw [← List.append_assoc] at hword htext ⊢
    have hread := (Steps.of_step htext hword).next hworded
    cases t with
    | nil => exact ⟨wordArray, v, [], v, rfl, rfl, hread⟩
    | cons d t =>
      have hcount := step_count (before ++ v) d t v wordArray
      rw [if_neg (List.cons_ne_nil d t)] at hread
      dsimp only
      by_cases ht : t = []
      · rw [if_pos ht] at hcount
        subst ht
        refine ⟨countWord v wordArray, v ++ [d], [],
          if v.length > minSize then toLower v else v, rfl, by simp, ?_⟩
        rw [← List.append_assoc]
        exact hread.next hcount
      · rw [if_neg ht] at hcount
        rw [List.length_append, List.length_cons] at hf
        obtain ⟨counts, u, t', word', hr', rfl, hsteps⟩ :=
          ih (before ++ v ++ [d]) ht (by omega)
            (if v.length > minSize then toLower v else v) (countWord v wordArray)
        rw [← List.append_cons] at hsteps
        refine ⟨counts, v ++ d :: u, t', word', by rw [if_neg (by simpa using ht), hr'],
          by simp, ?_⟩
        rw [← List.append_assoc, List.append_cons (before ++ v) d u]
        exact (hread.next hcount).trans hsteps

/-- The scanner counts what `scan` counts. -/
theorem scan_steps (fuel : Nat) (before : Str) {rest : Str} (hf : rest.length < fuel)
    (word : Str) (wordArray : StdMap Nat) :
    ∃ counts begin word', scan fuel wordArray rest = some counts ∧
      Steps (before ++ rest) ⟨.outer, before.length, word, wordArray⟩
        ⟨.done, begin, word', counts⟩ := by
  induction fuel generalizing before rest word wordArray with
  | zero => omega
  | succ fuel ih =>
    have houter : step (before ++ rest) ⟨.outer, before.length, word, wordArray⟩ =
        some ⟨if rest = [] then .done else .skip, before.length, word, wordArray⟩ := by
      rw [step]
      by_cases hrest : rest = []
      · rw [if_pos hrest, if_neg (by simp [hrest])]
      · rw [if_neg hrest, if_pos (by simp [hrest])]
    rw [scan]
    by_cases hrest : rest = []
    · rw [if_pos hrest] at houter
      exact ⟨wordArray, _, word, if_pos (by simp [hrest]), .single houter⟩
    rw [if_neg hrest] at houter
    obtain ⟨v, t, hs, he, hskip⟩ := skip_steps before hrest word wordArray
    have hskipped := step_skipped (before ++ v) t word wordArray
    rw [if_neg (by simpa using hrest), hs]
    obtain ⟨c, s, hcs⟩ := List.exists_cons_of_ne_nil hrest
    obtain ⟨-, t', hs', -, -, ht⟩ := skipTag_spec c s
    rw [← hcs, hs, Option.some.injEq] at hs'
    subst hs'
    rw [he, ← List.append_assoc] at houter hskip ⊢
    have hskip := (Steps.of_step houter hskip).next hskipped
    cases t with
    | nil => exact ⟨wordArray, _, word, rfl, hskip⟩
    | cons d t =>
      rw [if_neg (List.cons_ne_nil d t)] at hskip
      obtain rfl : d = ch '>' := by
        obtain ht | ⟨t', ht⟩ := ht
        · cases ht
        · exact (List.cons.inj ht).1
      obtain ⟨counts, v', u, word', hr, ht, htext⟩ := text_steps ((ch '>' :: t).length + 1)
        (before ++ v) (List.cons_ne_nil _ t) (Nat.lt_succ_self _) word wordArray
      obtain ⟨counts', u', hr', -, hlt, -⟩ := readText_spec ((ch '>' :: t).length + 1) wordArray
        (ch '>' :: t) (List.cons_ne_nil _ t) (Nat.lt_succ_self _)
      rw [hr, Option.some.injEq, Prod.mk.injEq] at hr'
      rw [← hr'.2] at hlt
      have hshort := hlt (by rw [List.head?_cons, ne_eq, Option.some.injEq]; decide)
      have htexted := step_texted (before ++ v ++ v') u word' counts
      rw [ht, ← List.append_assoc] at hskip htext ⊢
      have htext := Steps.next (hskip.trans htext) htexted
      rw [← ht]
      cases u with
      | nil =>
        refine ⟨counts, _, word', ?_, htext⟩
        dsimp only
        rw [hr]
      | cons e u =>
        rw [if_neg (List.cons_ne_nil e u)] at htext
        rw [he, List.length_append] at hf
        have hlen : (e :: u).length < fuel := by omega
        obtain ⟨counts'', begin, word'', hs', hsteps⟩ := ih (before ++ v ++ v') hlen word' counts
        refine ⟨counts'', begin, word'', ?_, htext.trans hsteps⟩
        dsimp only
        rw [hr]
        exact hs'

/-- The loops of `extractWords` end on every page, having counted what `extractWords` counts; they
read within the text only and never go behind its end. -/
theorem extractWords_inBounds (html : Str) :
    (∀ s, Steps (testString1 html) start s →
      s.begin ≤ (testString1 html).length ∧
        (s.point.reads = true → s.begin < (testString1 html).length) ∧
        (step (testString1 html) s).isSome) ∧
    ∃ s, Steps (testString1 html) start s ∧ s.point = .done ∧
      extractWords html = some s.wordArray := by
  refine ⟨fun s hs => ?_, ?_⟩
  · have hin := steps_inBounds hs
    obtain ⟨t, ht, -⟩ := step_inBounds hin
    exact ⟨hin.upTo, fun hr => hin.inside (.inl hr), by rw [ht]; rfl⟩
  · obtain ⟨counts, begin, word, hs, hsteps⟩ :=
      scan_steps _ [] (Nat.lt_succ_self (testString1 html).length) [] ∅
    exact ⟨_, hsteps, rfl, hs⟩

end SpiderSearch.CursorBounds
