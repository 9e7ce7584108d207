import SpiderSearch.IniFile
import SpiderSearch.LastWriter

namespace SpiderSearch.IniView

open CppTypes DbClient IniFile LastWriter

/-- What a line does to the values, where it is not rejected. -/
def event (line : Str) : Event Str Str Str :=
  let s := trim line
  if s = [] then .nothing
  else if s.head? = some (ch ';') then .nothing
  else if s.head? = some (ch '[') then .enter ((s.drop 1).take (sizeSub s.length 2))
  else
    .write (trim (s.takeWhile (· ≠ ch '=')))
      (cutComment (trim ((s.dropWhile (· ≠ ch '=')).drop 1)))

def apply (p : Parser) : Event Str Str Str → Parser
  | .nothing => p
  | .enter sectionName => p.openSection sectionName
  | .write item value => p.assign item value

def view (values : MyINI) : Store Str Str Str := fun sectionName =>
  values[sectionName]?.map fun items item => items[item]?

theorem view_empty : view ∅ = fun _ => none := by
  funext t
  simp [view]

theorem view_injective {values values' : MyINI} (h : view values = view values') :
    values = values' := by
  apply Std.ExtTreeMap.ext_getElem?
  intro t
  have ht := congrFun h t
  rw [view, view] at ht
  cases hv : values[t]? with
  | none =>
    rw [hv] at ht
    exact (Option.map_eq_none_iff.mp ht.symm).symm
  | some items =>
    rw [hv] at ht
    obtain ⟨items', hv', he⟩ := Option.map_eq_some_iff.mp ht.symm
    rw [hv', Option.some.injEq]
    exact (Std.ExtTreeMap.ext_getElem? (congrFun he ·)).symm

theorem view_insert (values : MyINI) (t : Str) (items : MyINI_item) :
    view (values.insert t items) = Function.update (view values) t (some fun item => items[item]?) := by
  funext u
  by_cases hu : u = t
  · rw [hu, Function.update_self, view, Std.ExtTreeMap.getElem?_insert_self]
    rfl
  · rw [Function.update_of_ne hu, view, Std.ExtTreeMap.getElem?_insert,
      if_neg (mt Std.compare_eq_iff_eq.mp (Ne.symm hu)), view]

theorem view_getD (values : MyINI) (t : Str) :
    (fun item => (values.getD t ∅)[item]?) = (view values t).getD fun _ => none := by
  rw [view, Std.ExtTreeMap.getD_eq_getD_getElem?]
  cases values[t]? with
  | none =>
    funext item
    simp
  | some items => rfl

/-- The maps of the constructor are a store of sections. -/
theorem view_apply (p : Parser) (e : Event Str Str Str) :
    view (apply p e).values = step (view p.values) p.sectionName e := by
  cases e with
  | nothing => rfl
  | enter t =>
    rw [apply, Parser.openSection, view_insert, view_getD]
    rfl
  | write item value =>
    rw [apply, Parser.assign, view_insert, step, Store.write, ← view_getD]
    congr 2
    funext j
    by_cases hj : j = item
    · rw [hj, Function.update_self, Std.ExtTreeMap.getElem?_insert_self]
    · rw [Function.update_of_ne hj, Std.ExtTreeMap.getElem?_insert,
        if_neg (mt Std.compare_eq_iff_eq.mp (Ne.symm hj))]

theorem view_foldl (p : Parser) (es : List (Event Str Str Str)) :
    view (es.foldl apply p).values = run (view p.values) p.sectionName es := by
  induction es generalizing p with
  | nil => rfl
  | cons e es ih =>
    have hnext : (apply p e).sectionName = e.next p.sectionName := by
      cases e with
      | nothing | enter t | write item value => rfl
    rw [List.foldl_cons, ih, view_apply, hnext, run]

theorem mem_of_mem_trim {s : Str} {c : UInt8} (h : c ∈ trim s) : c ∈ s :=
  (List.dropWhile_suffix blank).subset ((List.rdropWhile_prefix blank _).subset h)

theorem newline_notMem_lines {text line : Str} (h : line ∈ lines text) : ch '\n' ∉ line := by
  induction text generalizing line with
  | nil => cases h
  | cons c s ih =>
    rw [lines] at h
    split_ifs at h with hc
    · obtain rfl | h := List.mem_cons.mp h
      · exact List.not_mem_nil
      · exact ih h
    · have hne : ch '\n' ≠ c := Ne.symm hc
      cases hs : lines s with
      | nil =>
        rw [hs, List.mem_singleton] at h
        rw [h, List.mem_singleton]
        exact hne
      | cons l ls =>
        rw [hs] at h ih
        obtain rfl | h := List.mem_cons.mp h
        · rw [List.mem_cons, not_or]
          exact ⟨hne, ih List.mem_cons_self⟩
        · exact ih (List.mem_cons_of_mem l h)

theorem readAssignment_eq {s : Str} (hn : ch '\n' ∉ s) (hne : s ≠ []) :
    readAssignment s = (s.takeWhile (· ≠ ch '='), (s.dropWhile (· ≠ ch '=')).drop 1) := by
  obtain ⟨c, s, rfl⟩ := List.exists_cons_of_ne_nil hne
  have hrest : ch '\n' ∉ ((c :: s).dropWhile (· ≠ ch '=')).drop 1 := fun hm =>
    hn ((List.dropWhile_suffix _).subset (List.mem_of_mem_drop hm))
  rw [readAssignment, getline]
  revert hrest
  generalize ((c :: s).dropWhile (· ≠ ch '=')).drop 1 = rest
  intro hrest
  by_cases hr : rest = []
  · rw [hr]
    rfl
  · dsimp only
    rw [getline_of_notMem hrest hr]

/-- A line that is not rejected does its event. -/
theorem readLine_event {line : Str} (hn : ch '\n' ∉ line) {strNum : Nat} {p p' : Parser}
    (h : readLine strNum line p = .ok p') : p' = apply p (event line) := by
  have hn : ch '\n' ∉ trim line := fun hm => hn (mem_of_mem_trim hm)
  rw [readLine, trim_trim] at h
  rw [event]
  revert h hn
  generalize trim line = s
  intro h hn
  dsimp only at h
  by_cases h0 : s = []
  · rw [if_pos h0, Except.ok.injEq] at h
    rw [if_pos h0, ← h]
    rfl
  rw [if_neg h0] at h ⊢
  by_cases hc : s.head? = some (ch ';')
  · rw [if_pos hc, Except.ok.injEq] at h
    rw [if_pos hc, ← h]
    rfl
  rw [if_neg hc] at h ⊢
  by_cases hb : s.head? = some (ch '[')
  · rw [if_pos hb] at h ⊢
    split_ifs at h
    exact (Except.ok.inj h).symm
  · rw [if_neg hb, readAssignment_eq hn h0] at h
    rw [if_neg hb]
    split_ifs at h
    exact (Except.ok.inj h).symm

theorem readLines_events {ls : List Str} (hn : ∀ line ∈ ls, ch '\n' ∉ line) {strNum : Nat}
    {p p' : Parser} (h : readLines strNum p ls = .ok p') : p' = (ls.map event).foldl apply p := by
  induction ls generalizing strNum p with
  | nil => exact (Except.ok.inj h).symm
  | cons line ls ih =>
    obtain ⟨hl, hls⟩ := List.forall_mem_cons.mp hn
    rw [readLines] at h
    cases hp : readLine (strNum + 1) line p with
    | error e =>
      rw [hp] at h
      cases h
    | ok q =>
      rw [hp] at h
      obtain rfl := readLine_event hl hp
      exact ih hls h

/-- What the constructor accepts, and what it has read then. -/
theorem new_ok_iff (fileName text : Str) (values : MyINI) :
    new fileName (some text) = .ok values ↔ (∀ line ∈ lines text, ¬ Rejected line) ∧
      view values = seen [] ((lines text).map event) := by
  have hview : ∀ {values}, new fileName (some text) = .ok values →
      view values = seen [] ((lines text).map event) := by
    intro values h
    rw [new, readLoop_eq] at h
    cases hp : readLines 0 ⟨∅, []⟩ (lines text) with
    | error e =>
      rw [hp] at h
      cases h
    | ok p =>
      rw [hp] at h
      obtain rfl := Except.ok.inj h
      rw [readLines_events (fun line hl => newline_notMem_lines hl) hp, view_foldl, view_empty,
        run_eq_seen]
  apply Iff.intro
  · intro h
    refine ⟨?_, hview h⟩
    obtain hall | ⟨before, line, after, hl, hb, hr⟩ := forall_or_first (¬ Rejected ·) (lines text)
    · exact hall
    · obtain ⟨e, he, -⟩ := new_error hl hb (not_not.mp hr) fileName
      rw [he] at h
      cases h
  · rintro ⟨hall, hv⟩
    obtain ⟨values', h⟩ := new_ok hall fileName
    rw [h, view_injective (hv.trans (hview h).symm)]

/-- A line that starts with a bracket behind its blanks. -/
def IsHeader (line : Str) : Prop := (trim line).head? = some (ch '[')

/-- The line is the header of the section. -/
def Heads (line sectionName : Str) : Prop := trim line = ch '[' :: (sectionName ++ [ch ']'])

/-- The line assigns the value to the key, which is the whole line where it has no `=`. -/
structure Assigns (line item value : Str) : Prop where
  nonempty : trim line ≠ []
  noComment : (trim line).head? ≠ some (ch ';')
  noHeader : ¬ IsHeader line
  key : item = trim ((trim line).takeWhile (· ≠ ch '='))
  text : value = cutComment (trim (((trim line).dropWhile (· ≠ ch '=')).drop 1))

/-- The nearest header before is that of the section; before any header it is the empty one. -/
def Under (before : List Str) (sectionName : Str) : Prop :=
  (∃ b header a, before = b ++ header :: a ∧ Heads header sectionName ∧ ∀ l ∈ a, ¬ IsHeader l) ∨
    sectionName = [] ∧ ∀ l ∈ before, ¬ IsHeader l

/-- `_values[sectionName][item]`, where it is there. -/
def valueAt (values : MyINI) (sectionName item : Str) : Option Str :=
  values[sectionName]?.bind fun items => items[item]?

/-- The map is what the lines wrote last. -/
structure LastWriterView (ls : List Str) (values : MyINI) : Prop where
  sections : ∀ S, S ∈ values ↔ (∃ line ∈ ls, Heads line S) ∨
    ∃ before line after k v, ls = before ++ line :: after ∧ Assigns line k v ∧ Under before S
  value : ∀ S k v, valueAt values S k = some v ↔
    ∃ before line after, ls = before ++ line :: after ∧ Assigns line k v ∧ Under before S ∧
      ∀ b line' a, after = b ++ line' :: a → Under (before ++ line :: b) S →
        ∀ v', ¬ Assigns line' k v'

theorem event_write_iff {line k v : Str} : event line = .write k v ↔ Assigns line k v := by
  apply Iff.intro
  · intro h
    rw [event] at h
    split_ifs at h with h0 hc hb
    obtain ⟨rfl, rfl⟩ := Event.write.inj h
    exact ⟨h0, hc, hb, rfl, rfl⟩
  · rintro ⟨h0, hc, hb, rfl, rfl⟩
    exact (if_neg h0).trans ((if_neg hc).trans (if_neg hb))

theorem event_of_header {line : Str} (h : IsHeader line) :
    event line = .enter (((trim line).drop 1).take (sizeSub (trim line).length 2)) := by
  have h0 : trim line ≠ [] := by
    intro he
    rw [IsHeader, he] at h
    cases h
  have hc : (trim line).head? ≠ some (ch ';') := by
    rw [h]
    decide
  exact (if_neg h0).trans ((if_neg hc).trans (if_pos h))

theorem isHeader_of_event {line S : Str} (h : event line = .enter S) : IsHeader line := by
  by_contra hb
  rw [event] at h
  split_ifs at h with h0 hc hb'
  exact hb hb'

/-- The name between the brackets of a line that fits into a string. -/
theorem event_enter_iff {line S : Str} (hr : ¬ Rejected line) (hlen : line.length < npos) :
    event line = .enter S ↔ Heads line S := by
  have hname : ∀ {name}, trim line = ch '[' :: (name ++ [ch ']']) → event line = .enter name := by
    intro name ht
    have hl : name.length + 2 < npos := by
      have htrim : (trim line).length ≤ line.length :=
        (List.rdropWhile_prefix blank _).length_le.trans (List.dropWhile_suffix blank).length_le
      rw [ht, List.length_cons, List.length_append, List.length_singleton] at htrim
      omega
    have hsub : sizeSub (name.length + 2) 2 = name.length := by
      rw [npos, sizeTypeModulus] at hl
      rw [sizeSub, sizeTypeModulus]
      omega
    have hb : IsHeader line := by
      rw [IsHeader, ht]
      rfl
    rw [event_of_header hb, ht, List.length_cons, List.length_append, List.length_singleton, hsub,
      List.drop_succ_cons, List.drop_zero, List.take_left]
  apply Iff.intro
  · intro h
    have hs : IsSection (trim line) := by
      by_contra hs
      exact hr (.inl ⟨isHeader_of_event h, hs⟩)
    obtain ⟨name, ht⟩ := hs
    rw [hname ht] at h
    obtain rfl := Event.enter.inj h
    exact ht
  · exact hname

theorem isHeader_iff {line : Str} : IsHeader line ↔ ∃ S, event line = .enter S :=
  ⟨fun h => ⟨_, event_of_header h⟩, fun ⟨_, h⟩ => isHeader_of_event h⟩

/-- Where the events divide, the lines do. -/
theorem map_event_eq_append_iff {ls : List Str} {e : Event Str Str Str}
    {a c : List (Event Str Str Str)} : ls.map event = a ++ e :: c ↔
      ∃ before line after, ls = before ++ line :: after ∧ before.map event = a ∧
        event line = e ∧ after.map event = c := by
  apply Iff.intro
  · intro h
    obtain ⟨before, rest, rfl, ha, hrest⟩ := List.map_eq_append_iff.mp h
    obtain ⟨line, after, rfl, he, hc⟩ := List.map_eq_cons_iff.mp hrest
    exact ⟨before, line, after, rfl, ha, he, hc⟩
  · rintro ⟨before, line, after, rfl, rfl, rfl, rfl⟩
    rw [List.map_append, List.map_cons]

theorem enter_notMem_iff {ls : List Str} :
    (∀ S, Event.enter S ∉ ls.map event) ↔ ∀ l ∈ ls, ¬ IsHeader l := by
  apply Iff.intro
  · intro h l hl hh
    obtain ⟨S, he⟩ := isHeader_iff.mp hh
    exact h S (List.mem_map.mpr ⟨l, hl, he⟩)
  · intro h S hm
    obtain ⟨l, hl, he⟩ := List.mem_map.mp hm
    exact h l hl (isHeader_of_event he)

/-- The section that is open behind some lines. -/
theorem current_iff {ls : List Str} (hr : ∀ l ∈ ls, ¬ Rejected l) (hlen : ∀ l ∈ ls, l.length < npos)
    {S : Str} : current [] (ls.map event) = S ↔ Under ls S := by
  rw [current_eq_iff, Under, enter_notMem_iff]
  apply or_congr_left
  apply Iff.intro
  · rintro ⟨a, c, he, hc⟩
    obtain ⟨b, header, after, rfl, rfl, hh, rfl⟩ := map_event_eq_append_iff.mp he
    have hm : header ∈ b ++ header :: after := by simp
    exact ⟨b, header, after, rfl, (event_enter_iff (hr _ hm) (hlen _ hm)).mp hh,
      enter_notMem_iff.mp hc⟩
  · rintro ⟨b, header, after, rfl, hh, hafter⟩
    have hm : header ∈ b ++ header :: after := by simp
    refine ⟨b.map event, after.map event, ?_, enter_notMem_iff.mpr hafter⟩
    rw [List.map_append, List.map_cons, (event_enter_iff (hr _ hm) (hlen _ hm)).mpr hh]

theorem forall_mem_of_append {P : Str → Prop} {before after rest : List Str} {line : Str}
    (h : ∀ l ∈ before ++ line :: (after ++ rest), P l) : ∀ l ∈ before ++ line :: after, P l := by
  intro l hl
  apply h
  rw [← List.cons_append, ← List.append_assoc]
  exact List.mem_append_left rest hl

/-- Behind an assignment in a section, the later ones of its key in that section. -/
theorem later_iff {before after : List Str} {line S k v : Str}
    (hr : ∀ l ∈ before ++ line :: after, ¬ Rejected l)
    (hlen : ∀ l ∈ before ++ line :: after, l.length < npos) (hw : event line = .write k v)
    (hu : current [] (before.map event) = S) :
    (∃ d a c, after.map event = a ++ .write k d :: c ∧ current S a = S) ↔
      ∃ b line' a v', after = b ++ line' :: a ∧ Assigns line' k v' ∧
        Under (before ++ line :: b) S := by
  have hopen : ∀ {b a}, after = b ++ a →
      (current S (b.map event) = S ↔ Under (before ++ line :: b) S) := by
    rintro b a rfl
    rw [← current_iff (forall_mem_of_append hr) (forall_mem_of_append hlen), List.map_append,
      List.map_cons, current_append, hu, hw]
    rfl
  apply Iff.intro
  · rintro ⟨d, a, c, hc, hcur⟩
    obtain ⟨b, line', a, he, rfl, hw', -⟩ := map_event_eq_append_iff.mp hc
    exact ⟨b, line', a, d, he, event_write_iff.mp hw', (hopen he).mp hcur⟩
  · rintro ⟨b, line', a, v', he, hw', hub⟩
    refine ⟨v', b.map event, a.map event, ?_, (hopen he).mpr hub⟩
    exact map_event_eq_append_iff.mpr ⟨b, line', a, he, rfl, event_write_iff.mpr hw', rfl⟩

theorem view_bind (values : MyINI) (S k : Str) :
    (view values S).bind (· k) = valueAt values S k := by
  rw [view, valueAt]
  cases values[S]? with
  | none => rfl
  | some items => rfl

theorem mem_iff_view (values : MyINI) (S : Str) : S ∈ values ↔ (view values S).isSome := by
  rw [view, Option.isSome_map, Std.ExtTreeMap.isSome_getElem?_iff_mem]

theorem mem_iff_entered {values : MyINI} {es : List (Event Str Str Str)}
    (h : view values = seen [] es) (S : Str) : S ∈ values ↔ S ∈ entered [] es := by
  rw [mem_iff_view, h, seen]
  split_ifs with hs
  · exact iff_of_true rfl hs
  · exact iff_of_false Bool.false_ne_true hs

theorem section_iff {ls : List Str} {values : MyINI} (hr : ∀ l ∈ ls, ¬ Rejected l)
    (hlen : ∀ l ∈ ls, l.length < npos) (hview : view values = seen [] (ls.map event)) (S : Str) :
    S ∈ values ↔ (∃ line ∈ ls, Heads line S) ∨
      ∃ before line after k v, ls = before ++ line :: after ∧ Assigns line k v ∧ Under before S := by
  rw [mem_iff_entered hview, mem_entered]
  apply or_congr
  · rw [List.mem_map]
    exact exists_congr fun l => and_congr_right fun hl => event_enter_iff (hr l hl) (hlen l hl)
  · simp only [mem_writes, map_event_eq_append_iff]
    apply Iff.intro
    · rintro ⟨k, v, -, -, ⟨before, line, after, he, rfl, hw, -⟩, hcur⟩
      rw [he, List.forall_mem_append] at hr hlen
      exact ⟨before, line, after, k, v, he, event_write_iff.mp hw, (current_iff hr.1 hlen.1).mp hcur⟩
    · rintro ⟨before, line, after, k, v, he, hw, hu⟩
      rw [he, List.forall_mem_append] at hr hlen
      exact ⟨k, v, _, _, ⟨before, line, after, he, rfl, event_write_iff.mpr hw, rfl⟩,
        (current_iff hr.1 hlen.1).mpr hu⟩

theorem value_iff {ls : List Str} {values : MyINI} (hr : ∀ l ∈ ls, ¬ Rejected l)
    (hlen : ∀ l ∈ ls, l.length < npos) (hview : view values = seen [] (ls.map event))
    (S k v : Str) : valueAt values S k = some v ↔
      ∃ before line after, ls = before ++ line :: after ∧ Assigns line k v ∧ Under before S ∧
        ∀ b line' a, after = b ++ line' :: a → Under (before ++ line :: b) S →
          ∀ v', ¬ Assigns line' k v' := by
  rw [← view_bind, hview, seen_bind, lastWrite_writes]
  simp only [map_event_eq_append_iff]
  apply Iff.intro
  · rintro ⟨-, -, ⟨before, line, after, rfl, rfl, hw, rfl⟩, hcur, hno⟩
    have hu := (current_iff (List.forall_mem_append.mp hr).1 (List.forall_mem_append.mp hlen).1).mp hcur
    refine ⟨before, line, after, rfl, event_write_iff.mp hw, hu, ?_⟩
    intro b line' a hafter hub v' hw'
    obtain ⟨d, a', c', hc, hcur'⟩ :=
      (later_iff hr hlen hw hcur).mpr ⟨b, line', a, v', hafter, hw', hub⟩
    exact hno d a' c' hc hcur'
  · rintro ⟨before, line, after, rfl, hw, hu, hno⟩
    have hcur := (current_iff (List.forall_mem_append.mp hr).1 (List.forall_mem_append.mp hlen).1).mpr hu
    have hw := event_write_iff.mpr hw
    refine ⟨_, _, ⟨before, line, after, rfl, rfl, hw, rfl⟩, hcur, ?_⟩
    intro d a' c' hc hcur'
    obtain ⟨b, line', a, v', hafter, hw', hub⟩ :=
      (later_iff hr hlen hw hcur).mp ⟨d, a', c', hc, hcur'⟩
    exact hno b line' a hafter hub v' hw'

/-- The parsed map is the last-writer view of the lines, each of which fits into a string. -/
theorem parsed_view (fileName text : Str) (values : MyINI)
    (hlen : ∀ line ∈ lines text, line.length < npos)
    (h : new fileName (some text) = .ok values) : LastWriterView (lines text) values := by
  obtain ⟨hr, hview⟩ := (new_ok_iff fileName text values).mp h
  exact ⟨section_iff hr hlen hview, value_iff hr hlen hview⟩

theorem port_view : ∃ values, new (str "spider.ini") (some (str "[db]\nport = 2")) = .ok values ∧
    LastWriterView (lines (str "[db]\nport = 2")) values := by
  have hlines : lines (str "[db]\nport = 2") = [str "[db]", str "port = 2"] := by decide
  have hsection : WellFormed (str "[db]") := .inr (.inr (.inl ⟨str "db", by decide⟩))
  have hitem : WellFormed (str "port = 2") :=
    .inr (.inr (.inr ⟨by decide, str "port ", str " 2", by decide, by decide, by decide⟩))
  have hr : ∀ line ∈ lines (str "[db]\nport = 2"), ¬ Rejected line := by
    rw [hlines]
    simp only [List.forall_mem_cons]
    exact ⟨not_rejected_of_wellFormed hsection, not_rejected_of_wellFormed hitem, nofun⟩
  obtain ⟨values, h⟩ := new_ok hr (str "spider.ini")
  exact ⟨values, h, parsed_view _ _ values (by rw [hlines]; decide) h⟩

end SpiderSearch.IniView
