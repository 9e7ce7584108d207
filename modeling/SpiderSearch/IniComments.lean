import SpiderSearch.IniLayout

namespace SpiderSearch.IniComments

open CppTypes DbClient IniFile LastWriter IniView IniLayout

theorem trim_eq_nil_iff {v : Str} : trim v = [] ↔ v.dropWhile blank = [] := by
  apply Iff.intro
  · intro h
    cases hs : v.dropWhile blank with
    | nil => rfl
    | cons c s =>
      have hc : blank c = false := by
        have hn := List.head?_dropWhile_not blank v
        rw [hs] at hn
        simpa using hn
      have ht : trim (c :: s) = c :: s.rdropWhile blank := trim_around hc [] s
      rw [← trim_dropWhile, hs, ht] at h
      exact absurd h (List.cons_ne_nil _ _)
  · intro h
    rw [trim, h]
    rfl

/-- The comment is cut one character before its semicolon. -/
theorem cutComment_take {v c : Str} (hv : ch ';' ∉ v) (hlen : (v ++ ch ';' :: c).length < npos)
    (hne : v.dropWhile blank ≠ []) :
    cutComment (trim (v ++ ch ';' :: c)) = trim (v.dropWhile blank).dropLast := by
  have hv' : ch ';' ∉ v.dropWhile blank := fun hm => hv ((List.dropWhile_suffix blank).subset hm)
  have hpos := List.length_pos_iff.mpr hne
  have hle := (v.dropWhile_suffix blank).length_le
  have hsub : sizeSub (v.dropWhile blank).length 1 = (v.dropWhile blank).length - 1 := by
    rw [List.length_append, npos, sizeTypeModulus] at hlen
    rw [sizeSub, sizeTypeModulus]
    omega
  rw [List.length_append] at hlen
  have hfind : find (v.dropWhile blank ++ ch ';' :: c.rdropWhile blank) (ch ';') 0 =
      (v.dropWhile blank).length :=
    (Keyword.find_of_append rfl hv').trans (Nat.zero_add _)
  have hn : (v.dropWhile blank).length ≠ npos := by omega
  rw [trim_around (by decide), cutComment, hfind]
  rw [if_pos hn, hsub, List.take_append_of_le_length (Nat.sub_le _ _), ← List.dropLast_eq_take]

/-- With no value before it the comment becomes the value. -/
theorem cutComment_whole {v c : Str} (hlen : (v ++ ch ';' :: c).length < npos)
    (hnil : v.dropWhile blank = []) :
    cutComment (trim (v ++ ch ';' :: c)) = ch ';' :: c.rdropWhile blank := by
  have hfind : find (ch ';' :: c.rdropWhile blank) (ch ';') 0 = 0 :=
    Keyword.find_of_append (v := []) rfl List.not_mem_nil
  have hsub : sizeSub 0 1 = npos := by decide
  have hl : (ch ';' :: c.rdropWhile blank).length ≤ npos := by
    have := (c.rdropWhile_prefix blank).length_le
    rw [List.length_append, List.length_cons] at hlen
    rw [List.length_cons]
    omega
  have ht : trim (ch ';' :: c.rdropWhile blank) = ch ';' :: c.rdropWhile blank := by
    have h := trim_around (d := ch ';') (by decide) [] (c.rdropWhile blank)
    rw [List.rdropWhile_idempotent] at h
    exact h
  rw [trim_around (by decide), hnil, List.nil_append, cutComment, hfind]
  rw [if_pos (by decide), hsub, List.take_of_length_le hl, ht]

/-- A value is kept exactly when it is there and a blank stands before the semicolon. -/
theorem cutComment_comment {v c : Str} (hv : ch ';' ∉ v)
    (hlen : (v ++ ch ';' :: c).length < npos) :
    cutComment (trim (v ++ ch ';' :: c)) = trim v ↔
      trim v ≠ [] ∧ ∃ s b, v = s ++ [b] ∧ blank b = true := by
  by_cases hnil : v.dropWhile blank = []
  · rw [cutComment_whole hlen hnil, trim_eq_nil_iff.mpr hnil]
    exact iff_of_false (List.cons_ne_nil _ _) fun h => h.1 rfl
  rw [cutComment_take hv hlen hnil]
  obtain ⟨s, b, hs⟩ := (List.eq_nil_or_concat' (v.dropWhile blank)).resolve_left hnil
  have hsplit : v = (v.takeWhile blank ++ s) ++ [b] := by
    rw [List.append_assoc, ← hs, List.takeWhile_append_dropWhile]
  have hb : (∃ s b, v = s ++ [b] ∧ blank b = true) ↔ blank b = true := by
    apply Iff.intro
    · rintro ⟨s', b', he, hb⟩
      rw [hsplit] at he
      rw [List.singleton_injective (List.append_inj' he rfl).2]
      exact hb
    · exact fun hb => ⟨_, b, hsplit, hb⟩
  have hne : trim v ≠ [] := mt trim_eq_nil_iff.mp hnil
  rw [hb, and_iff_right hne, ← trim_dropWhile v, hs, List.dropLast_concat]
  cases hc : blank b with
  | true =>
    have hw : Blanks [b] := List.forall_mem_singleton.mpr hc
    exact iff_of_true (trim_append_blanks s hw).symm rfl
  | false =>
    have hl : (trim s).length ≤ (s.dropWhile blank).length :=
      (List.rdropWhile_prefix blank _).length_le
    refine iff_of_false (fun he => ?_) Bool.false_ne_true
    rw [he, trim_around hc, List.length_append, List.length_cons] at hl
    omega

/-- Two texts that differ in one assignment, which has a comment behind it in the second. -/
structure Commented (text text' : Str) where
  before : List Str
  after : List Str
  item : Str
  value : Str
  ws : Str
  c : Str
  plain : lines text = before ++ (item ++ ch '=' :: value) :: after
  commented : lines text' = before ++ (item ++ ch '=' :: (value ++ ws ++ ch ';' :: c)) :: after
  key : ch '=' ∉ item
  noComment : (trim (item ++ ch '=' :: value)).head? ≠ some (ch ';')
  noHeader : ¬ IsHeader (item ++ ch '=' :: value)
  noSemicolon : ch ';' ∉ value
  blanks : Blanks ws

namespace Commented

variable {text text' : Str}

theorem semicolon_notMem (e : Commented text text') : ch ';' ∉ e.value ++ e.ws := by
  rw [List.mem_append, not_or]
  exact ⟨e.noSemicolon, fun hm => absurd (e.blanks _ hm) (by decide)⟩

theorem event_plain (e : Commented text text') :
    event (e.item ++ ch '=' :: e.value) = .write (trim e.item) (trim e.value) := by
  rw [event_assignment e.key e.noComment e.noHeader, cutComment_trim e.noSemicolon]

theorem commented_kind (e : Commented text text') (t : Str) :
    (trim (e.item ++ ch '=' :: t)).head? ≠ some (ch ';') ∧ ¬ IsHeader (e.item ++ ch '=' :: t) := by
  have hh := head_assignment e.item t e.value
  refine ⟨hh ▸ e.noComment, ?_⟩
  rw [IsHeader, hh]
  exact e.noHeader

theorem event_commented (e : Commented text text') :
    event (e.item ++ ch '=' :: (e.value ++ e.ws ++ ch ';' :: e.c)) =
      .write (trim e.item) (cutComment (trim (e.value ++ e.ws ++ ch ';' :: e.c))) :=
  event_assignment e.key (e.commented_kind _).1 (e.commented_kind _).2

theorem rejected_iff (e : Commented text text') :
    (∀ line ∈ lines text, ¬ Rejected line) ↔ ∀ line ∈ lines text', ¬ Rejected line := by
  have hr : Rejected (e.item ++ ch '=' :: e.value) ↔
      Rejected (e.item ++ ch '=' :: (e.value ++ e.ws ++ ch ';' :: e.c)) := by
    rw [rejected_assignment e.key e.noComment e.noHeader,
      rejected_assignment e.key (e.commented_kind _).1 (e.commented_kind _).2]
  rw [e.plain, e.commented]
  simp only [List.forall_mem_append, List.forall_mem_cons, hr]

/-- The values are the same exactly where the value is or a later line covers it. -/
theorem same_iff (e : Commented text text') {fileName : Str} {values : MyINI}
    (h : new fileName (some text) = .ok values) :
    new fileName (some text') = .ok values ↔
      trim e.value = cutComment (trim (e.value ++ e.ws ++ ch ';' :: e.c)) ∨
      ∃ d a' c', e.after.map event = a' ++ .write (trim e.item) d :: c' ∧
        current (current [] (e.before.map event)) a' = current [] (e.before.map event) := by
  obtain ⟨hr, hv⟩ := (new_ok_iff fileName text values).mp h
  rw [new_ok_iff, and_iff_right (e.rejected_iff.mp hr), hv, e.plain, e.commented, List.map_append,
    List.map_append, List.map_cons, List.map_cons, e.event_plain, e.event_commented, seen_replace]

theorem short (e : Commented text text') (hlen : ∀ line ∈ lines text', line.length < npos) :
    ∀ line ∈ lines text, line.length < npos := by
  rw [e.commented, List.forall_mem_append, List.forall_mem_cons] at hlen
  obtain ⟨hbefore, hline, hafter⟩ := hlen
  rw [e.plain, List.forall_mem_append, List.forall_mem_cons]
  refine ⟨hbefore, ?_, hafter⟩
  rw [List.length_append, List.length_cons, List.length_append, List.length_append] at hline
  rw [List.length_append, List.length_cons]
  omega

/-- The value is the same exactly where there is one with a blank before the comment. -/
theorem kept_iff (e : Commented text text') (hlen : ∀ line ∈ lines text', line.length < npos) :
    trim e.value = cutComment (trim (e.value ++ e.ws ++ ch ';' :: e.c)) ↔
      trim e.value ≠ [] ∧ ∃ s b, e.value ++ e.ws = s ++ [b] ∧ blank b = true := by
  have hshort : (e.value ++ e.ws ++ ch ';' :: e.c).length < npos := by
    have hline := hlen _ (e.commented ▸ List.mem_append_right e.before List.mem_cons_self)
    rw [List.length_append, List.length_cons] at hline
    omega
  have hcut := cutComment_comment e.semicolon_notMem hshort
  rwa [trim_append_blanks e.value e.blanks, eq_comm] at hcut

end Commented

/-- A comment behind an assignment changes nothing exactly where there is a value with a blank
before the comment, or a later line assigns the key in the same section. -/
theorem comment_iff (fileName text text' : Str) (e : Commented text text') (values : MyINI)
    (hlen : ∀ line ∈ lines text', line.length < npos)
    (h : new fileName (some text) = .ok values) :
    new fileName (some text') = .ok values ↔
      (trim e.value ≠ [] ∧ ∃ s b, e.value ++ e.ws = s ++ [b] ∧ blank b = true) ∨
      ∃ S b line a v, e.after = b ++ line :: a ∧ Assigns line (trim e.item) v ∧
        Under e.before S ∧ Under (e.before ++ (e.item ++ ch '=' :: e.value) :: b) S := by
  have hr := ((new_ok_iff fileName text values).mp h).1
  have hlen' := e.short hlen
  rw [e.plain] at hr hlen'
  have hcurrent : ∀ {S}, current [] (e.before.map event) = S ↔ Under e.before S :=
    current_iff (List.forall_mem_append.mp hr).1 (List.forall_mem_append.mp hlen').1
  rw [e.same_iff h, e.kept_iff hlen]
  apply or_congr_right
  rw [later_iff hr hlen' e.event_plain rfl]
  apply Iff.intro
  · rintro ⟨b, line, a, v, he, hw, hub⟩
    exact ⟨_, b, line, a, v, he, hw, hcurrent.mp rfl, hub⟩
  · rintro ⟨S, b, line, a, v, he, hw, hS, hub⟩
    obtain rfl := hcurrent.mpr hS
    exact ⟨b, line, a, v, he, hw, hub⟩

def spacedPort : Commented (str "port=80") (str "port=80 ;web") where
  before := []
  after := []
  item := str "port"
  value := str "80"
  ws := str " "
  c := str "web"
  plain := by decide
  commented := by decide
  key := by decide
  noComment := by decide
  noHeader := by rw [IsHeader]; decide
  noSemicolon := by decide
  blanks := by
    intro c hc
    rw [List.mem_singleton.mp hc]
    rfl

theorem port_accepted (fileName : Str) : ∃ values, new fileName (some (str "port=80")) = .ok values := by
  apply new_ok
  rw [spacedPort.plain]
  simp only [List.forall_mem_append, List.forall_mem_cons]
  refine ⟨nofun, ?_, nofun⟩
  rw [rejected_assignment spacedPort.key spacedPort.noComment spacedPort.noHeader]
  decide

theorem port_comment_iff : ∃ values, new (str "spider.ini") (some (str "port=80")) = .ok values ∧
    (new (str "spider.ini") (some (str "port=80 ;web")) = .ok values ↔
      (trim (str "80") ≠ [] ∧ ∃ s b, str "80" ++ str " " = s ++ [b] ∧ blank b = true) ∨
      ∃ S b line a v, [] = b ++ line :: a ∧ Assigns line (trim (str "port")) v ∧ Under [] S ∧
        Under ([] ++ (str "port" ++ ch '=' :: str "80") :: b) S) := by
  obtain ⟨values, h⟩ := port_accepted (str "spider.ini")
  refine ⟨values, h, comment_iff _ _ _ spacedPort values ?_ h⟩
  rw [spacedPort.commented]
  decide

def cutPort : Commented (str "port=80") (str "port=80;web") where
  __ := spacedPort
  ws := []
  plain := by decide
  commented := by decide
  blanks := List.forall_mem_nil _

/-- Without a blank before the comment the last digit is lost. -/
theorem digit_lost : ¬ ∀ (fileName text text' : Str) (_ : Commented text text') (values : MyINI),
    (∀ line ∈ lines text', line.length < npos) → new fileName (some text) = .ok values →
      new fileName (some text') = .ok values := by
  intro h
  obtain ⟨values, hv⟩ := port_accepted []
  have hlen : ∀ line ∈ lines (str "port=80;web"), line.length < npos := by
    rw [cutPort.commented]
    decide
  obtain hcut | ⟨d, a', c', he, -⟩ := (cutPort.same_iff hv).mp (h _ _ _ cutPort values hlen hv)
  · exact absurd hcut (by decide)
  · exact absurd he.symm (List.append_ne_nil_of_right_ne_nil _ (List.cons_ne_nil _ _))

end SpiderSearch.IniComments
