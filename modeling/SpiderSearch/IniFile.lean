import Mathlib.Data.List.DropRight
import SpiderSearch.DbClient
import SpiderSearch.LetterRuns

namespace SpiderSearch.IniFile

open CppTypes DbClient

def blank (c : UInt8) : Bool := c == ch ' ' || c == ch '\t'

/-- `trim(s)`. -/
def trim (s : Str) : Str := (s.dropWhile blank).rdropWhile blank

/-- `std::getline(input, str, delim)`: what it reads and what is left, `none` at the end. -/
def getline (delim : UInt8) : Str → Option (Str × Str)
  | [] => none
  | c :: s =>
    some ((c :: s).takeWhile (· ≠ delim), ((c :: s).dropWhile (· ≠ delim)).drop 1)

abbrev MyINI_item := StdMap Str

abbrev MyINI := StdMap MyINI_item

/-- The throw sites of the constructor, with what their messages name. The message is a local string
`a`, and a pointer to its characters is thrown. -/
inductive IniError where
  | file (fileName : Str)
  | sectionLine (strNum : Nat)
  | itemLine (strNum : Nat)

def IniError.text : IniError → Str
  | .file fileName => str "Ошибка открытия файла " ++ fileName
  | .sectionLine strNum => str "Section error in line " ++ str (toString strNum)
  | .itemLine strNum => str "Item error in line " ++ str (toString strNum)

/-- The number in the message that is built at the throw site. -/
def IniError.line : IniError → Option Nat
  | .file _ => none
  | .sectionLine strNum | .itemLine strNum => some strNum

/-- The number that can be read at the thrown pointer: the message is destroyed before any handler
runs. -/
def IniError.received (_ : IniError) : Option Nat := none

structure Parser where
  values : MyINI
  sectionName : Str

/-- `_values[sectionName];`. -/
def Parser.openSection (p : Parser) (sectionName : Str) : Parser :=
  ⟨p.values.insert sectionName (p.values.getD sectionName ∅), sectionName⟩

/-- `_values[sectionName][item] = value;`. -/
def Parser.assign (p : Parser) (item value : Str) : Parser :=
  { p with
    values := p.values.insert p.sectionName ((p.values.getD p.sectionName ∅).insert item value) }

/-- The value without a comment behind it. -/
def cutComment (value : Str) : Str :=
  let flag := find value (ch ';') 0
  if flag ≠ npos then trim (value.take (sizeSub flag 1)) else value

/-- The text before and behind the first `=`; both reads are from the same stream. -/
def readAssignment (s : Str) : Str × Str :=
  match getline (ch '=') s with
  | none => ([], [])
  | some (item, rest) =>
    match getline (ch '\n') rest with
    | none => (item, [])
    | some (value, _) => (item, value)

/-- The body of the loop over the lines. -/
def readLine (strNum : Nat) (line : Str) (p : Parser) : Except IniError Parser :=
  if trim line = [] then .ok p
  else
    let s := trim (trim line)
    if s.head? = some (ch ';') then .ok p
    else if s.head? = some (ch '[') then
      if s.getLast? = some (ch ']') then .ok (p.openSection ((s.drop 1).take (sizeSub s.length 2)))
      else .error (.sectionLine strNum)
    else
      let item := trim (readAssignment s).1
      if item = [] then .error (.itemLine strNum)
      else .ok (p.assign item (cutComment (trim (readAssignment s).2)))

theorem getline_length {delim : UInt8} {s l rest : Str} (h : getline delim s = some (l, rest)) :
    rest.length < s.length := by
  cases s with
  | nil => cases h
  | cons c s =>
    rw [getline, Option.some.injEq, Prod.mk.injEq] at h
    rw [← h.2, List.length_drop]
    have := ((c :: s).dropWhile_suffix (· ≠ delim)).length_le
    rw [List.length_cons] at this ⊢
    omega

/-- `while (std::getline(input, str))`, after `strNum` lines. -/
def readLoop (strNum : Nat) (p : Parser) (input : Str) : Except IniError Parser :=
  match _h : getline (ch '\n') input with
  | none => .ok p
  | some (line, rest) =>
    match readLine (strNum + 1) line p with
    | .error e => .error e
    | .ok p => readLoop (strNum + 1) p rest
termination_by input.length
decreasing_by exact getline_length _h

/-- The constructor; `file` is the text of the file, `none` where it cannot be opened. -/
def new (fileName : Str) (file : Option Str) : Except IniError MyINI :=
  match file with
  | none => .error (.file fileName)
  | some input => (readLoop 0 ⟨∅, []⟩ input).map Parser.values

/-- The lines of a text; the last one need not be terminated. -/
def lines : Str → List Str
  | [] => []
  | c :: s =>
    if c = ch '\n' then [] :: lines s
    else
      match lines s with
      | [] => [[c]]
      | l :: ls => (c :: l) :: ls

/-- `[name]`. -/
def IsSection (line : Str) : Prop := ∃ name, line = ch '[' :: (name ++ [ch ']'])

/-- `name = value`; what starts with a bracket is a section line or nothing. -/
def IsAssignment (line : Str) : Prop :=
  line.head? ≠ some (ch '[') ∧
    ∃ name value, line = name ++ ch '=' :: value ∧ ch '=' ∉ name ∧ trim name ≠ []

/-- The lines of the documented grammar. -/
def WellFormed (line : Str) : Prop :=
  trim line = [] ∨ (trim line).head? = some (ch ';') ∨ IsSection (trim line) ∨
    IsAssignment (trim line)

/-- A line that looks like an assignment without `=`. -/
def Bare (line : Str) : Prop :=
  trim line ≠ [] ∧ (trim line).head? ≠ some (ch ';') ∧ (trim line).head? ≠ some (ch '[') ∧
    ch '=' ∉ trim line

/-- A section that is not closed, or nothing but blanks before the first `=`. -/
def Rejected (line : Str) : Prop :=
  ((trim line).head? = some (ch '[') ∧ ¬ IsSection (trim line)) ∨
    ((trim line).head? ≠ some (ch ';') ∧ (trim line).head? ≠ some (ch '[') ∧
      ∃ name value, trim line = name ++ ch '=' :: value ∧ ch '=' ∉ name ∧ trim name = [])

theorem trim_of_head {s : Str} (h : ∀ c ∈ s.head?, blank c = false) :
    trim s = s.rdropWhile blank := by
  cases s with
  | nil => rfl
  | cons c s => rw [trim, List.dropWhile_cons_of_neg (by simp [h c rfl])]

theorem head_trim (s : Str) : ∀ c ∈ (trim s).head?, blank c = false := by
  intro c hc
  obtain ⟨t, ht⟩ := List.rdropWhile_prefix blank (s.dropWhile blank)
  have hm : c ∈ (s.dropWhile blank).head? := by
    rw [← ht, List.head?_append]
    simp only [trim] at hc
    simp [Option.mem_def.mp hc]
  have hn := List.head?_dropWhile_not blank s
  rw [Option.mem_def.mp hm] at hn
  simpa using hn

theorem trim_trim (s : Str) : trim (trim s) = trim s := by
  rw [trim_of_head (head_trim s), trim, List.rdropWhile_idempotent]

theorem getline_of_mem {delim : UInt8} {v : Str} (hv : delim ∉ v) (r : Str) :
    getline delim (v ++ delim :: r) = some (v, r) := by
  obtain ⟨htake, hdrop⟩ := LetterRuns.takeWhile_ne hv r
  obtain ⟨c, s, hs⟩ : ∃ c s, v ++ delim :: r = c :: s := by
    cases v with
    | nil => exact ⟨_, _, rfl⟩
    | cons c v => exact ⟨_, _, rfl⟩
  rw [hs, getline, ← hs, htake, hdrop]
  rfl

theorem getline_of_notMem {delim : UInt8} {v : Str} (hv : delim ∉ v) (hne : v ≠ []) :
    getline delim v = some (v, []) := by
  have hall : ∀ c ∈ v, decide (c ≠ delim) = true := by
    intro c hc
    exact decide_eq_true fun he => hv (he ▸ hc)
  obtain ⟨c, s, rfl⟩ := List.exists_cons_of_ne_nil hne
  rw [getline, List.takeWhile_eq_self_iff.mpr hall, List.dropWhile_eq_nil_iff.mpr hall]
  rfl

theorem split_unique {delim : UInt8} {v v' r r' : Str} (hv : delim ∉ v) (hv' : delim ∉ v')
    (h : v ++ delim :: r = v' ++ delim :: r') : v = v' := by
  have hg := getline_of_mem hv r
  rw [h, getline_of_mem hv'] at hg
  exact (Prod.mk.inj (Option.some.inj hg)).1.symm

theorem readAssignment_of_mem {name : Str} (hn : ch '=' ∉ name) (value : Str) :
    (readAssignment (name ++ ch '=' :: value)).1 = name := by
  rw [readAssignment, getline_of_mem hn]
  dsimp only
  cases getline (ch '\n') value with
  | none => rfl
  | some r => rfl

theorem readAssignment_of_notMem {s : Str} (hs : ch '=' ∉ s) (hne : s ≠ []) :
    (readAssignment s).1 = s := by
  rw [readAssignment, getline_of_notMem hs hne]
  rfl

theorem isSection_iff {s : Str} (h : s.head? = some (ch '[')) :
    IsSection s ↔ s.getLast? = some (ch ']') := by
  have hbr : ch '[' ≠ ch ']' := by decide
  apply Iff.intro
  · rintro ⟨name, rfl⟩
    rw [← List.cons_append, List.getLast?_concat]
  · intro hl
    have hne : s ≠ [] := by
      rintro rfl
      cases h
    obtain ⟨s, d, rfl⟩ : ∃ t d, s = t ++ [d] := (List.eq_nil_or_concat' s).resolve_left hne
    rw [List.getLast?_concat, Option.some.injEq] at hl
    cases s with
    | nil => exact absurd (Option.some.inj h) (by rw [hl]; exact hbr.symm)
    | cons c name =>
      obtain rfl : c = ch '[' := Option.some.inj h
      exact ⟨name, by rw [hl]; rfl⟩

theorem not_isSection {s : Str} (h : s.head? ≠ some (ch '[')) : ¬ IsSection s := by
  rintro ⟨name, rfl⟩
  exact h rfl

/-- Every line is of one of three kinds, and of no other. -/
theorem kinds (line : Str) : (WellFormed line ∧ ¬ Bare line ∧ ¬ Rejected line) ∨
    (Bare line ∧ ¬ WellFormed line ∧ ¬ Rejected line) ∨
    (Rejected line ∧ ¬ WellFormed line ∧ ¬ Bare line) := by
  simp only [WellFormed, Bare, Rejected, IsAssignment]
  generalize trim line = t
  by_cases h0 : t = []
  · left
    simp [h0]
  by_cases hc : t.head? = some (ch ';')
  · have hne : ch ';' ≠ ch '[' := by decide
    left
    simp [hc, hne]
  by_cases hb : t.head? = some (ch '[')
  · by_cases hs : IsSection t
    · left
      simp [hb, hs]
    · have hne : ch '[' ≠ ch ';' := by decide
      right; right
      simp [h0, hb, hs, hne]
  have hs : ¬ IsSection t := not_isSection hb
  by_cases hm : ch '=' ∈ t
  · obtain ⟨name, value, rfl, hn⟩ := List.eq_append_cons_of_mem hm
    by_cases ht : trim name = []
    · right; right
      refine ⟨.inr ⟨hc, hb, name, value, rfl, hn, ht⟩, ?_, fun h => h.2.2.2 hm⟩
      rintro (h | h | h | ⟨-, name', value', he, hn', ht'⟩)
      · exact h0 h
      · exact hc h
      · exact hs h
      · exact ht' (by rw [← split_unique hn hn' he, ht])
    · left
      refine ⟨.inr (.inr (.inr ⟨hb, name, value, rfl, hn, ht⟩)), fun h => h.2.2.2 hm, ?_⟩
      rintro (⟨h, -⟩ | ⟨-, -, name', value', he, hn', ht'⟩)
      · exact hb h
      · exact ht (by rw [split_unique hn hn' he, ht'])
  · right; left
    have hnone : ∀ name value, t = name ++ ch '=' :: value → False := by
      rintro name value rfl
      exact hm (by simp)
    refine ⟨⟨h0, hc, hb, hm⟩, ?_, ?_⟩
    · rintro (h | h | h | ⟨-, name, value, he, -⟩)
      · exact h0 h
      · exact hc h
      · exact hs h
      · exact hnone name value he
    · rintro (⟨h, -⟩ | ⟨-, -, name, value, he, -⟩)
      · exact hb h
      · exact hnone name value he

theorem not_rejected_of_wellFormed {line : Str} (h : WellFormed line) : ¬ Rejected line := by
  obtain ⟨-, -, hr⟩ | ⟨-, hw, -⟩ | ⟨-, hw, -⟩ := kinds line
  · exact hr
  · exact absurd h hw
  · exact absurd h hw

theorem not_wellFormed_of_bare {line : Str} (h : Bare line) : ¬ WellFormed line := by
  obtain ⟨-, hb, -⟩ | ⟨-, hw, -⟩ | ⟨-, hw, -⟩ := kinds line
  · exact absurd h hb
  · exact hw
  · exact hw

theorem not_rejected_of_bare {line : Str} (h : Bare line) : ¬ Rejected line := by
  obtain ⟨-, -, hr⟩ | ⟨-, -, hr⟩ | ⟨-, -, hb⟩ := kinds line
  · exact hr
  · exact hr
  · exact absurd h hb

theorem bare_or_rejected {line : Str} (h : ¬ WellFormed line) :
    Bare line ∧ ¬ Rejected line ∨ Rejected line := by
  obtain ⟨hw, -⟩ | ⟨hb, -, hr⟩ | ⟨hr, -⟩ := kinds line
  · exact absurd hw h
  · exact .inl ⟨hb, hr⟩
  · exact .inr hr

/-- The loop body stops at the lines of the third kind only. -/
theorem readLine_cases (strNum : Nat) (line : Str) (p : Parser) :
    (¬ Rejected line ∧ ∃ p', readLine strNum line p = .ok p') ∨
      (Rejected line ∧ ∃ e, readLine strNum line p = .error e ∧ e.line = some strNum) := by
  have htrim := trim_trim line
  simp only [readLine, Rejected, htrim]
  revert htrim
  generalize trim line = t
  intro htrim
  by_cases h0 : t = []
  · left
    simp [h0]
  by_cases hc : t.head? = some (ch ';')
  · have hne : ch ';' ≠ ch '[' := by decide
    left
    simp [h0, hc, hne]
  by_cases hb : t.head? = some (ch '[')
  · rw [isSection_iff hb, if_neg h0, if_neg hc, if_pos hb]
    by_cases hl : t.getLast? = some (ch ']')
    · left
      simp [hb, hl]
    · right
      simp [hb, hl, IniError.line]
  rw [if_neg h0, if_neg hc, if_neg hb]
  by_cases hm : ch '=' ∈ t
  · obtain ⟨name, value, rfl, hn⟩ := List.eq_append_cons_of_mem hm
    rw [readAssignment_of_mem hn]
    by_cases ht : trim name = []
    · right
      exact ⟨.inr ⟨hc, hb, name, value, rfl, hn, ht⟩, _, if_pos ht, rfl⟩
    · left
      refine ⟨?_, _, if_neg ht⟩
      rintro (⟨h, -⟩ | ⟨-, -, name', value', he, hn', ht'⟩)
      · exact hb h
      · exact ht (by rw [split_unique hn hn' he, ht'])
  · left
    refine ⟨?_, ?_⟩
    · rintro (⟨h, -⟩ | ⟨-, -, name, value, rfl, -⟩)
      · exact hb h
      · exact hm (by simp)
    · rw [readAssignment_of_notMem hm h0, htrim, if_neg h0]
      exact ⟨_, rfl⟩

/-- The lines that are read one after another. -/
def readLines (strNum : Nat) (p : Parser) : List Str → Except IniError Parser
  | [] => .ok p
  | line :: rest =>
    match readLine (strNum + 1) line p with
    | .error e => .error e
    | .ok p => readLines (strNum + 1) p rest

theorem lines_append (v r : Str) (hv : ch '\n' ∉ v) : lines (v ++ ch '\n' :: r) = v :: lines r := by
  induction v with
  | nil => rw [List.nil_append, lines, if_pos rfl]
  | cons c v ih =>
    have hc : c ≠ ch '\n' := fun he => hv (he ▸ List.mem_cons_self)
    rw [List.cons_append, lines, if_neg hc, ih fun hm => hv (List.mem_cons_of_mem c hm)]

theorem lines_single (v : Str) (hv : ch '\n' ∉ v) (hne : v ≠ []) : lines v = [v] := by
  induction v with
  | nil => exact absurd rfl hne
  | cons c v ih =>
    have hc : c ≠ ch '\n' := fun he => hv (he ▸ List.mem_cons_self)
    rw [lines, if_neg hc]
    cases v with
    | nil => rfl
    | cons d v => rw [ih (fun hm => hv (List.mem_cons_of_mem c hm)) (List.cons_ne_nil d v)]

theorem lines_of_getline {s line rest : Str} (h : getline (ch '\n') s = some (line, rest)) :
    lines s = line :: lines rest := by
  by_cases hm : ch '\n' ∈ s
  · obtain ⟨v, r, rfl, hv⟩ := List.eq_append_cons_of_mem hm
    rw [getline_of_mem hv, Option.some.injEq, Prod.mk.injEq] at h
    rw [lines_append v r hv, h.1, h.2]
  · have hne : s ≠ [] := by
      rintro rfl
      cases h
    rw [getline_of_notMem hm hne, Option.some.injEq, Prod.mk.injEq] at h
    rw [lines_single s hm hne, h.1, ← h.2, lines]

theorem readLoop_eq (strNum : Nat) (p : Parser) (input : Str) :
    readLoop strNum p input = readLines strNum p (lines input) := by
  fun_induction readLoop strNum p input with
  | case1 strNum p input h =>
    cases input with
    | nil => rfl
    | cons c s => cases h
  | case2 strNum p input line rest h e he => rw [lines_of_getline h, readLines, he]
  | case3 strNum p input line rest h p' hp ih => rw [lines_of_getline h, readLines, hp, ih]

theorem readLines_ok {ls : List Str} (h : ∀ line ∈ ls, ¬ Rejected line) (strNum : Nat) (p : Parser) :
    ∃ p', readLines strNum p ls = .ok p' := by
  induction ls generalizing strNum p with
  | nil => exact ⟨p, rfl⟩
  | cons line ls ih =>
    obtain ⟨hl, hls⟩ := List.forall_mem_cons.mp h
    obtain ⟨-, p', hp⟩ | ⟨hr, -⟩ := readLine_cases (strNum + 1) line p
    · obtain ⟨p'', hp'⟩ := ih hls (strNum + 1) p'
      refine ⟨p'', ?_⟩
      rw [readLines, hp]
      exact hp'
    · exact absurd hr hl

theorem readLines_error {before : List Str} (h : ∀ line ∈ before, ¬ Rejected line) {line : Str}
    (hr : Rejected line) (after : List Str) (strNum : Nat) (p : Parser) :
    ∃ e, readLines strNum p (before ++ line :: after) = .error e ∧
      e.line = some (strNum + before.length + 1) := by
  induction before generalizing strNum p with
  | nil =>
    obtain ⟨hn, -⟩ | ⟨-, e, he, hl⟩ := readLine_cases (strNum + 1) line p
    · exact absurd hr hn
    · exact ⟨e, by rw [List.nil_append, readLines, he], hl⟩
  | cons first before ih =>
    obtain ⟨hf, hb⟩ := List.forall_mem_cons.mp h
    obtain ⟨-, p', hp⟩ | ⟨hf', -⟩ := readLine_cases (strNum + 1) first p
    · obtain ⟨e, he, hl⟩ := ih hb (strNum + 1) p'
      refine ⟨e, ?_, ?_⟩
      · rw [List.cons_append, readLines, hp]
        exact he
      · rw [hl, List.length_cons]
        congr 1
        omega
    · exact absurd hf' hf

/-- A list has a first element without a property, unless all have it. -/
theorem forall_or_first {α : Type} (P : α → Prop) (l : List α) :
    (∀ x ∈ l, P x) ∨
      ∃ before x after, l = before ++ x :: after ∧ (∀ y ∈ before, P y) ∧ ¬ P x := by
  induction l with
  | nil => exact .inl nofun
  | cons x l ih =>
    by_cases hx : P x
    · obtain ih | ⟨before, y, after, rfl, hb, hy⟩ := ih
      · exact .inl (List.forall_mem_cons.mpr ⟨hx, ih⟩)
      · exact .inr ⟨x :: before, y, after, rfl, List.forall_mem_cons.mpr ⟨hx, hb⟩, hy⟩
    · exact .inr ⟨[], x, l, rfl, nofun, hx⟩

/-- The constructor succeeds on the texts of the grammar, and names the first other line in what
`number` reads of its failure. -/
structure FollowsGrammar (number : IniError → Option Nat) (fileName text : Str) : Prop where
  accepts : (∃ values, new fileName (some text) = .ok values) ↔ ∀ line ∈ lines text, WellFormed line
  reports : ∀ before line after, lines text = before ++ line :: after →
    (∀ l ∈ before, WellFormed l) → ¬ WellFormed line →
      ∃ e, new fileName (some text) = .error e ∧ number e = some (before.length + 1)

theorem new_ok {text : Str} (h : ∀ line ∈ lines text, ¬ Rejected line) (fileName : Str) :
    ∃ values, new fileName (some text) = .ok values := by
  obtain ⟨p, hp⟩ := readLines_ok h 0 ⟨∅, []⟩
  exact ⟨p.values, by rw [new, readLoop_eq, hp]; rfl⟩

theorem new_error {text : Str} {before : List Str} {line : Str} {after : List Str}
    (hl : lines text = before ++ line :: after) (hb : ∀ l ∈ before, ¬ Rejected l)
    (hr : Rejected line) (fileName : Str) :
    ∃ e, new fileName (some text) = .error e ∧ e.line = some (before.length + 1) := by
  obtain ⟨e, he, hline⟩ := readLines_error hb hr after 0 ⟨∅, []⟩
  rw [Nat.zero_add] at hline
  exact ⟨e, by rw [new, readLoop_eq, hl, he]; rfl, hline⟩

/-- With the numbers that are built into the messages, the constructor follows its grammar exactly
when a line without `=` only stands behind a line that is rejected anyway. -/
theorem followsGrammar_line (fileName text : Str) : FollowsGrammar IniError.line fileName text ↔
    ∀ before line after, lines text = before ++ line :: after → Bare line →
      ∃ l ∈ before, Rejected l := by
  apply Iff.intro
  · intro hf before line after hl hline
    by_contra hno
    have hb : ∀ l ∈ before, ¬ Rejected l := fun l hm hr => hno ⟨l, hm, hr⟩
    have hw : ¬ WellFormed line := not_wellFormed_of_bare hline
    -- The first line that is not of the grammar is the given one or stands before it.
    obtain ⟨before', line', after', hl', hb', hw', hr'⟩ :
        ∃ before' line' after', lines text = before' ++ line' :: after' ∧
          (∀ l ∈ before', WellFormed l) ∧ ¬ WellFormed line' ∧ ¬ Rejected line' := by
      obtain hall | ⟨b, x, a, rfl, hbx, hx⟩ := forall_or_first WellFormed before
      · exact ⟨before, line, after, hl, hall, hw, not_rejected_of_bare hline⟩
      · exact ⟨b, x, a ++ line :: after, by rw [hl]; simp, hbx, hx, hb x (by simp)⟩
    obtain ⟨e, he, hline'⟩ := hf.reports before' line' after' hl' hb' hw'
    obtain hall | ⟨b, x, a, hx, hbx, hrx⟩ := forall_or_first (¬ Rejected ·) (lines text)
    · obtain ⟨values, hv⟩ := new_ok hall fileName
      rw [he] at hv
      cases hv
    · obtain ⟨e', he', hline''⟩ := new_error hx hbx (not_not.mp hrx) fileName
      rw [he, Except.error.injEq] at he'
      rw [← he', hline', Option.some.injEq, Nat.add_right_cancel_iff] at hline''
      rw [hl'] at hx
      obtain ⟨-, hcons⟩ := List.append_inj hx hline''
      rw [← (List.cons.inj hcons).1] at hrx
      exact hrx hr'
  · intro hbare
    have reports : ∀ before line after, lines text = before ++ line :: after →
        (∀ l ∈ before, WellFormed l) → ¬ WellFormed line →
          ∃ e, new fileName (some text) = .error e ∧ e.line = some (before.length + 1) := by
      intro before line after hl hb hline
      have hb' : ∀ l ∈ before, ¬ Rejected l := fun l hm => not_rejected_of_wellFormed (hb l hm)
      obtain ⟨hbl, -⟩ | hr := bare_or_rejected hline
      · obtain ⟨l, hm, hr⟩ := hbare before line after hl hbl
        exact absurd hr (hb' l hm)
      · exact new_error hl hb' hr fileName
    refine ⟨⟨?_, ?_⟩, reports⟩
    · rintro ⟨values, hv⟩
      obtain hall | ⟨before, line, after, hl, hb, hline⟩ := forall_or_first WellFormed (lines text)
      · exact hall
      · obtain ⟨e, he, -⟩ := reports before line after hl hb hline
        rw [he] at hv
        cases hv
    · intro hall
      exact new_ok (fun line hm => not_rejected_of_wellFormed (hall line hm)) fileName

/-- As no number is left to a handler, the constructor follows its grammar only where there is
nothing to report. -/
theorem followsGrammar_received (fileName text : Str) :
    FollowsGrammar IniError.received fileName text ↔ ∀ line ∈ lines text, WellFormed line := by
  apply Iff.intro
  · intro hf
    obtain hall | ⟨before, line, after, hl, hb, hline⟩ := forall_or_first WellFormed (lines text)
    · exact hall
    · obtain ⟨e, -, he⟩ := hf.reports before line after hl hb hline
      cases he
  · intro hall
    refine ⟨iff_of_true (new_ok (fun line hm => ?_) fileName) hall, fun before line after hl _ hn => ?_⟩
    · exact not_rejected_of_wellFormed (hall line hm)
    · exact absurd (hall line (by simp [hl])) hn

/-- The constructor accepts its grammar and reports the rest to its caller exactly on the texts of the
grammar. As far as the messages go that it builds, it also does so on other texts, unless a line
without `=` stands there with no rejected line before it. -/
theorem followsGrammar_iff (fileName text : Str) :
    (FollowsGrammar IniError.received fileName text ↔ ∀ line ∈ lines text, WellFormed line) ∧
    (FollowsGrammar IniError.line fileName text ↔
      ∀ before line after, lines text = before ++ line :: after → Bare line →
        ∃ l ∈ before, Rejected l) :=
  ⟨followsGrammar_received fileName text, followsGrammar_line fileName text⟩

/-- A line of a name alone is taken for a setting without a value, and no number comes of it. -/
theorem bare_line_accepted :
    ¬ ∃ number : IniError → Option Nat, ∀ fileName text, FollowsGrammar number fileName text := by
  rintro ⟨number, h⟩
  have hlines : lines (str "bd_host") = [str "bd_host"] := by decide
  have hbare : Bare (str "bd_host") := by
    refine ⟨by decide, by decide, by decide, by decide⟩
  obtain ⟨e, he, -⟩ := (h [] (str "bd_host")).reports [] (str "bd_host") [] hlines
    (List.forall_mem_nil _) (not_wellFormed_of_bare hbare)
  obtain ⟨values, hv⟩ := new_ok (fun line hm => by
    rw [hlines, List.mem_singleton] at hm
    rw [hm]
    exact not_rejected_of_bare hbare) []
  rw [he] at hv
  cases hv

end SpiderSearch.IniFile
