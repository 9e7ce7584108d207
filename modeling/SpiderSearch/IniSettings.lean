import SpiderSearch.IniLayout

namespace SpiderSearch.IniSettings

open CppTypes DbClient IniFile LastWriter IniView IniLayout

/-- What `get_value` throws. -/
inductive ValueError where
  | format (sectionAndItem : Str)
  | noSection (sectionName : Str)
  | noItem (sectionAndItem : Str) (items : List Str)
  | noValue (value : Str)
  | convert (value : Str)

/-- A value is appended up to its first zero byte. -/
def ValueError.text : ValueError → Str
  | .format sectionAndItem => str "Incorrect format of Section.Item: " ++ sectionAndItem
  | .noSection sectionName => str "Section do not exists: " ++ sectionName
  | .noItem sectionAndItem items =>
    str "Item do not exists: " ++ sectionAndItem ++ (str "\nThis is available items:\n" ++
      items.flatMap fun item => str "- " ++ item ++ str "\n")
  | .noValue value => str "Value do not exists: " ++ value.takeWhile (· ≠ 0)
  | .convert value => str "Error of convert value: " ++ value.takeWhile (· ≠ 0)

/-- `iss >> value`: the first word, `none` where the read fails. -/
def readWord (iss : Str) : Option Str :=
  let word := (iss.dropWhile isSpace).takeWhile fun c => !isSpace c
  if word = [] then none else some word

def get_value (values : MyINI) (sectionAndItem : Str) : Except ValueError Str :=
  let flag := find sectionAndItem (ch '.') 0
  if flag = npos then .error (.format sectionAndItem)
  else
    let sectionName := sectionAndItem.take flag
    let key := sectionAndItem.drop (flag + 1)
    match values[sectionName]? with
    | none => .error (.noSection sectionName)
    | some items =>
      match items[key]? with
      | none => .error (.noItem sectionAndItem items.keys)
      | some text =>
        if text = [] then .error (.noValue text)
        else
          match readWord text with
          | none => .error (.convert text)
          | some value => .ok value

/-- A word is read whole exactly when it has no white space. -/
theorem readWord_iff {v : Str} (hne : v ≠ []) :
    readWord v = some v ↔ ∀ c ∈ v, isSpace c = false := by
  apply Iff.intro
  · intro h c hc
    rw [readWord] at h
    split_ifs at h
    rw [← Option.some.inj h] at hc
    have hn := List.mem_takeWhile_imp hc
    rwa [Bool.not_eq_true'] at hn
  · intro h
    obtain ⟨c, s, rfl⟩ := List.exists_cons_of_ne_nil hne
    have hword : ((c :: s).dropWhile isSpace).takeWhile (fun c => !isSpace c) = c :: s := by
      rw [List.dropWhile_cons_of_neg (by rw [h c List.mem_cons_self]; exact Bool.false_ne_true)]
      apply List.takeWhile_eq_self_iff.mpr
      intro b hb
      rw [h b hb]
      rfl
    rw [readWord, hword]
    exact if_neg hne

theorem readWord_nil : readWord [] = none := rfl

/-- What `get_value` returns is the first word of the value, where the name has a point. -/
theorem get_value_ok_iff {values : MyINI} {sectionAndItem v : Str} :
    get_value values sectionAndItem = .ok v ↔ find sectionAndItem (ch '.') 0 ≠ npos ∧
      (valueAt values (sectionAndItem.take (find sectionAndItem (ch '.') 0))
        (sectionAndItem.drop (find sectionAndItem (ch '.') 0 + 1))).bind readWord = some v := by
  rw [get_value, valueAt]
  dsimp only
  by_cases hflag : find sectionAndItem (ch '.') 0 = npos
  · simp [hflag]
  rw [if_neg hflag, and_iff_right hflag]
  cases values[sectionAndItem.take (find sectionAndItem (ch '.') 0)]? with
  | none => simp
  | some items =>
    rw [Option.bind_some]
    dsimp only
    cases items[sectionAndItem.drop (find sectionAndItem (ch '.') 0 + 1)]? with
    | none => simp
    | some text =>
      rw [Option.bind_some]
      dsimp only
      by_cases htext : text = []
      · simp [htext, readWord_nil]
      · rw [if_neg htext]
        cases readWord text with
        | none => simp
        | some value =>
          dsimp only
          rw [Except.ok.injEq, Option.some.injEq]

/-- The lookup of `S.k` reads the first word of what is there. -/
theorem get_value_dot {values : MyINI} {S k v : Str} (hS : ch '.' ∉ S) (hlen : S.length < npos) :
    get_value values (S ++ str "." ++ k) = .ok v ↔
      (valueAt values S k).bind readWord = some v := by
  have hdot : S ++ str "." ++ k = S ++ ch '.' :: k := by
    rw [List.append_assoc]
    rfl
  have hfind : find (S ++ ch '.' :: k) (ch '.') 0 = S.length :=
    (Keyword.find_of_append rfl hS).trans (Nat.zero_add _)
  have hdrop : (S ++ ch '.' :: k).drop (S.length + 1) = k := by
    rw [← List.drop_drop, List.drop_left]
    rfl
  rw [hdot, get_value_ok_iff, hfind, and_iff_right hlen.ne, List.take_left, hdrop]

theorem get_value_eq {values : MyINI} {S k v : Str} (hS : ch '.' ∉ S) (hlen : S.length < npos)
    (h : valueAt values S k = some v) :
    get_value values (S ++ str "." ++ k) = .ok v ↔ readWord v = some v := by
  rw [get_value_dot hS hlen, h, Option.bind_some]

structure IsName (name : Str) : Prop where
  dotless : ch '.' ∉ name
  oneLine : ch '\n' ∉ name

/-- What can stand on the left of an assignment: a text without blanks around it. -/
structure IsKey (key : Str) : Prop where
  nonempty : key ≠ []
  trimmed : trim key = key
  noEquals : ch '=' ∉ key
  oneLine : ch '\n' ∉ key
  noComment : key.head? ≠ some (ch ';')
  noHeader : key.head? ≠ some (ch '[')

structure IsValue (value : Str) : Prop where
  nonempty : value ≠ []
  trimmed : trim value = value
  noSemicolon : ch ';' ∉ value
  oneLine : ch '\n' ∉ value

/-- What is written into a file, one line each. -/
inductive Setting where
  | header (name : Str) (hname : IsName name)
  | entry (key value : Str) (hkey : IsKey key) (hvalue : IsValue value)

namespace Setting

def line : Setting → Str
  | header name _ => ch '[' :: (name ++ [ch ']'])
  | entry key value _ _ => key ++ str " = " ++ value

/-- What the line is meant to do. -/
def event : Setting → Event Str Str Str
  | header name _ => .enter name
  | entry key value _ _ => .write key value

theorem entry_line {key value : Str} (hkey : IsKey key) (hvalue : IsValue value) :
    (entry key value hkey hvalue).line =
      (key ++ str " ") ++ ch '=' :: (str " " ++ value) := by
  rw [line]
  simp [str, ch, String.utf8EncodeChar]

end Setting

def textOf (settings : List Setting) : Str := settings.flatMap fun s => s.line ++ [ch '\n']

/-- The value that was last assigned to the key in the section. -/
def lastAssigned (settings : List Setting) (S k : Str) : Option Str :=
  lastWrite (writes [] (settings.map Setting.event)) (S, k)

theorem blanks_space : Blanks (str " ") := by
  intro c hc
  rw [List.mem_singleton.mp hc]
  rfl

theorem newline_notMem_line (s : Setting) : ch '\n' ∉ s.line := by
  cases s with
  | header name hname =>
    have hne : ch '\n' ≠ ch '[' ∧ ch '\n' ≠ ch ']' := by decide
    simp [Setting.line, hne, hname.oneLine]
  | entry key value hkey hvalue =>
    rw [Setting.line, List.mem_append, List.mem_append, not_or, not_or]
    exact ⟨⟨hkey.oneLine, by decide⟩, hvalue.oneLine⟩

theorem lines_textOf (settings : List Setting) :
    lines (textOf settings) = settings.map Setting.line := by
  induction settings with
  | nil => rfl
  | cons s settings ih =>
    have htext : textOf (s :: settings) = s.line ++ ch '\n' :: textOf settings := by
      rw [textOf, List.flatMap_cons, List.append_assoc]
      rfl
    rw [htext, lines_append _ _ (newline_notMem_line s), ih, List.map_cons]

theorem noEquals_item {key : Str} (hkey : IsKey key) : ch '=' ∉ key ++ str " " := by
  rw [List.mem_append, not_or]
  exact ⟨hkey.noEquals, by decide⟩

/-- An assignment begins as its key does. -/
theorem head_entry {key : Str} (hkey : IsKey key) (t : Str) :
    (trim ((key ++ str " ") ++ ch '=' :: t)).head? = key.head? := by
  have hdrop : key.dropWhile blank = key := by
    obtain ⟨c, s, hs⟩ := List.exists_cons_of_ne_nil hkey.nonempty
    have hc : blank c = false := head_trim key c (by rw [hkey.trimmed, hs]; rfl)
    rw [hs, List.dropWhile_cons_of_neg (by rw [hc]; exact Bool.false_ne_true)]
  rw [trim_assignment, head_append_blanks blanks_space, hdrop]
  exact List.head?_append_of_ne_nil _ hkey.nonempty

theorem noComment_entry {key : Str} (hkey : IsKey key) (t : Str) :
    (trim ((key ++ str " ") ++ ch '=' :: t)).head? ≠ some (ch ';') := by
  rw [head_entry hkey]
  exact hkey.noComment

theorem noHeader_entry {key : Str} (hkey : IsKey key) (t : Str) :
    ¬ IsHeader ((key ++ str " ") ++ ch '=' :: t) := by
  rw [IsHeader, head_entry hkey]
  exact hkey.noHeader

theorem trim_header (name : Str) (hname : IsName name) :
    trim (Setting.header name hname).line = (Setting.header name hname).line := by
  have h := trim_around (d := ch ']') (by decide) (ch '[' :: name) []
  rw [List.dropWhile_cons_of_neg (by decide)] at h
  exact h

theorem not_rejected (s : Setting) : ¬ Rejected s.line := by
  cases s with
  | header name hname =>
    apply not_rejected_of_wellFormed
    refine .inr (.inr (.inl ⟨name, ?_⟩))
    rw [trim_header, Setting.line]
  | entry key value hkey hvalue =>
    rw [Setting.entry_line, rejected_assignment (noEquals_item hkey) (noComment_entry hkey _)
      (noHeader_entry hkey _), trim_append_blanks key blanks_space, hkey.trimmed]
    exact hkey.nonempty

/-- A line does what it is meant to do. -/
theorem event_line (s : Setting) (hlen : s.line.length < npos) : event s.line = s.event := by
  cases s with
  | header name hname =>
    apply (event_enter_iff (not_rejected _) hlen).mpr
    rw [Heads, trim_header, Setting.line]
  | entry key value hkey hvalue =>
    have hv : ch ';' ∉ str " " ++ value := by
      rw [List.mem_append, not_or]
      exact ⟨by decide, hvalue.noSemicolon⟩
    rw [Setting.entry_line, event_assignment (noEquals_item hkey) (noComment_entry hkey _)
      (noHeader_entry hkey _), cutComment_trim hv, trim_append_blanks key blanks_space,
      trim_blanks_append blanks_space, hkey.trimmed, hvalue.trimmed]
    rfl

/-- The text is accepted, and what is in the map is what was assigned last. -/
theorem new_textOf (fileName : Str) (settings : List Setting)
    (hlen : ∀ s ∈ settings, s.line.length < npos) :
    ∃ values, new fileName (some (textOf settings)) = .ok values ∧
      ∀ S k, valueAt values S k = lastAssigned settings S k := by
  have hr : ∀ line ∈ lines (textOf settings), ¬ Rejected line := by
    rw [lines_textOf, List.forall_mem_map]
    exact fun s _ => not_rejected s
  have hevents : (lines (textOf settings)).map event = settings.map Setting.event := by
    rw [lines_textOf, List.map_map]
    exact List.map_congr_left fun s hs => event_line s (hlen s hs)
  obtain ⟨values, h⟩ := new_ok hr fileName
  refine ⟨values, h, fun S k => ?_⟩
  rw [← view_bind, ((new_ok_iff _ _ _).mp h).2, seen_bind, hevents, lastAssigned]

/-- What was assigned is a value, in a section with a name or before any header. -/
theorem assigned_fits {settings : List Setting} (hlen : ∀ s ∈ settings, s.line.length < npos)
    {S k v : Str} (h : lastAssigned settings S k = some v) :
    ch '.' ∉ S ∧ S.length < npos ∧ v ≠ [] := by
  obtain ⟨a, c, he, hcur, -⟩ := lastWrite_writes.mp h
  obtain ⟨before, rest, rfl, rfl, hrest⟩ := List.map_eq_append_iff.mp he
  obtain ⟨s, after, rfl, hs, -⟩ := List.map_eq_cons_iff.mp hrest
  have hv : v ≠ [] := by
    cases s with
    | header name hname => cases hs
    | entry key value hkey hvalue =>
      obtain ⟨-, rfl⟩ := Event.write.inj hs
      exact hvalue.nonempty
  obtain ⟨a, c, he', -⟩ | ⟨rfl, -⟩ := current_eq_iff.mp hcur
  · obtain ⟨t, ht, hS⟩ := List.mem_map.mp (he' ▸ List.mem_append_right a List.mem_cons_self)
    cases t with
    | entry key value hkey hvalue => cases hS
    | header name hname =>
      obtain rfl := Event.enter.inj hS
      have hl := hlen _ (List.mem_append_left _ ht)
      rw [Setting.line, List.length_cons, List.length_append] at hl
      exact ⟨hname.dotless, by omega, hv⟩
  · exact ⟨List.not_mem_nil, by decide, hv⟩

/-- A setting is read back as it was written exactly when its value is one word. -/
theorem get_value_iff (fileName : Str) (settings : List Setting)
    (hlen : ∀ s ∈ settings, s.line.length < npos) :
    ∃ values, new fileName (some (textOf settings)) = .ok values ∧
      ∀ S k v, lastAssigned settings S k = some v →
        (get_value values (S ++ str "." ++ k) = .ok v ↔ ∀ c ∈ v, isSpace c = false) := by
  obtain ⟨values, h, hvalues⟩ := new_textOf fileName settings hlen
  refine ⟨values, h, fun S k v hv => ?_⟩
  obtain ⟨hS, hl, hne⟩ := assigned_fits hlen hv
  rw [get_value_eq hS hl ((hvalues S k).trans hv), readWord_iff hne]

def password : List Setting :=
  [.header (str "db") ⟨by decide, by decide⟩,
    .entry (str "password") (str "my pass") ⟨by decide, by decide, by decide, by decide, by decide,
      by decide⟩ ⟨by decide, by decide, by decide, by decide⟩]

theorem password_fits : ∀ s ∈ password, s.line.length < npos := by
  rw [password, List.forall_mem_cons, List.forall_mem_singleton]
  exact ⟨by decide, by decide⟩

theorem password_iff : ∃ values, new (str "spider.ini") (some (textOf password)) = .ok values ∧
    ∀ S k v, lastAssigned password S k = some v →
      (get_value values (S ++ str "." ++ k) = .ok v ↔ ∀ c ∈ v, isSpace c = false) :=
  get_value_iff (str "spider.ini") password password_fits

/-- Of a password with a space in it only the first word is read. -/
theorem second_word_lost : ¬ ∀ (fileName : Str) (settings : List Setting) (values : MyINI),
    new fileName (some (textOf settings)) = .ok values →
      ∀ S k v, lastAssigned settings S k = some v →
        get_value values (S ++ str "." ++ k) = .ok v := by
  intro h
  obtain ⟨values, hnew, hvalues⟩ := new_textOf [] password password_fits
  have hv : lastAssigned password (str "db") (str "password") = some (str "my pass") := by
    decide +kernel
  obtain ⟨hS, hl, -⟩ := assigned_fits password_fits hv
  have hword := (get_value_eq hS hl ((hvalues _ _).trans hv)).mp (h [] password values hnew _ _ _ hv)
  exact absurd hword (by decide)

end SpiderSearch.IniSettings
