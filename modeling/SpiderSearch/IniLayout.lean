import SpiderSearch.IniView
import SpiderSearch.Keyword

namespace SpiderSearch.IniLayout

open CppTypes DbClient IniFile LastWriter IniView

def Blanks (w : Str) : Prop := ∀ c ∈ w, blank c = true

theorem dropWhile_blanks {w : Str} (hw : Blanks w) : w.dropWhile blank = [] :=
  List.dropWhile_eq_nil_iff.mpr hw

theorem rdropWhile_append {s w : Str} (hw : Blanks w) :
    (s ++ w).rdropWhile blank = s.rdropWhile blank := by
  rw [List.rdropWhile, List.rdropWhile, List.reverse_append, List.dropWhile_append_of_pos]
  intro c hc
  exact hw c (List.mem_reverse.mp hc)

theorem trim_blanks_append {w : Str} (hw : Blanks w) (s : Str) : trim (w ++ s) = trim s := by
  rw [trim, List.dropWhile_append_of_pos hw, trim]

theorem trim_append_blanks (s : Str) {w : Str} (hw : Blanks w) : trim (s ++ w) = trim s := by
  rw [trim, List.dropWhile_append]
  split_ifs with h
  · have hs : s.dropWhile blank = [] := List.isEmpty_iff.mp h
    rw [dropWhile_blanks hw, trim, hs]
  · rw [rdropWhile_append hw, trim]

theorem trim_dropWhile (s : Str) : trim (s.dropWhile blank) = trim s := by
  have hw : Blanks (s.takeWhile blank) := fun c hc => List.mem_takeWhile_imp hc
  rw [← trim_blanks_append hw (s.dropWhile blank), List.takeWhile_append_dropWhile]

theorem trim_rdropWhile (s : Str) : trim (s.rdropWhile blank) = trim s := by
  have hw : Blanks (s.rtakeWhile blank) := fun c hc => List.mem_rtakeWhile_imp hc
  rw [← trim_append_blanks (s.rdropWhile blank) hw, List.rdropWhile_append_rtakeWhile]

/-- The blanks around a text are those on either side of a character that is none. -/
theorem trim_around {d : UInt8} (hd : blank d = false) (s t : Str) :
    trim (s ++ d :: t) = s.dropWhile blank ++ d :: t.rdropWhile blank := by
  have hne : ¬ blank d = true := by
    rw [hd]
    exact Bool.false_ne_true
  have hleft : (s ++ d :: t).dropWhile blank = s.dropWhile blank ++ d :: t := by
    rw [List.dropWhile_append]
    split_ifs with h
    · rw [List.dropWhile_cons_of_neg hne, List.isEmpty_iff.mp h]
      rfl
    · rfl
  have hright : ∀ u : Str, (u ++ d :: t).rdropWhile blank = u ++ d :: t.rdropWhile blank := by
    intro u
    rw [List.rdropWhile, List.rdropWhile, List.reverse_append, List.reverse_cons, List.append_assoc,
      List.dropWhile_append]
    split_ifs with h
    · rw [List.isEmpty_iff.mp h, List.singleton_append, List.dropWhile_cons_of_neg hne]
      simp
    · simp
  rw [trim, hleft, hright]

theorem trim_assignment (item value : Str) : trim (item ++ ch '=' :: value) =
    item.dropWhile blank ++ ch '=' :: value.rdropWhile blank :=
  trim_around (by decide) item value

/-- What stands behind the `=` does not change how the line begins. -/
theorem head_assignment (item value value' : Str) : (trim (item ++ ch '=' :: value)).head? =
    (trim (item ++ ch '=' :: value')).head? := by
  rw [trim_assignment, trim_assignment, List.head?_append, List.head?_append, List.head?_cons,
    List.head?_cons]

/-- A line with `=` that is neither a comment nor a header assigns its value. -/
theorem event_assignment {item value : Str} (hi : ch '=' ∉ item)
    (hc : (trim (item ++ ch '=' :: value)).head? ≠ some (ch ';'))
    (hb : ¬ IsHeader (item ++ ch '=' :: value)) :
    event (item ++ ch '=' :: value) = .write (trim item) (cutComment (trim value)) := by
  have hi' : ch '=' ∉ item.dropWhile blank := fun hm => hi ((List.dropWhile_suffix blank).subset hm)
  obtain ⟨htake, hdrop⟩ := LetterRuns.takeWhile_ne hi' (value.rdropWhile blank)
  have ht := trim_assignment item value
  apply event_write_iff.mpr
  refine ⟨?_, hc, hb, ?_, ?_⟩
  · rw [ht]
    exact List.append_ne_nil_of_right_ne_nil _ (List.cons_ne_nil _ _)
  · rw [ht, htake, trim_dropWhile]
  · rw [ht, hdrop, List.drop_succ_cons, List.drop_zero, trim_rdropWhile]

theorem rejected_assignment {item value : Str} (hi : ch '=' ∉ item)
    (hc : (trim (item ++ ch '=' :: value)).head? ≠ some (ch ';'))
    (hb : ¬ IsHeader (item ++ ch '=' :: value)) :
    Rejected (item ++ ch '=' :: value) ↔ trim item = [] := by
  have hi' : ch '=' ∉ item.dropWhile blank := fun hm => hi ((List.dropWhile_suffix blank).subset hm)
  have ht := trim_assignment item value
  apply Iff.intro
  · rintro (⟨h, -⟩ | ⟨-, -, name, value', he, hn, hname⟩)
    · exact absurd h hb
    · rw [ht] at he
      rw [← trim_dropWhile, split_unique hi' hn he, hname]
  · intro h
    exact .inr ⟨hc, hb, _, _, ht, hi', by rw [trim_dropWhile, h]⟩

theorem cutComment_of_notMem {v : Str} (hv : ch ';' ∉ v) : cutComment v = v := by
  rw [cutComment, Keyword.find_of_notMem hv]
  exact if_neg fun h => h rfl

theorem cutComment_trim {v : Str} (hv : ch ';' ∉ v) : cutComment (trim v) = trim v :=
  cutComment_of_notMem fun hm => hv (mem_of_mem_trim hm)

/-- Nothing but blanks, or a comment. -/
def Skipped (line : Str) : Prop := Blanks line ∨ (trim line).head? = some (ch ';')

theorem Skipped.event {line : Str} (h : Skipped line) : event line = .nothing := by
  obtain h | h := h
  · have ht : trim line = [] := by rw [trim, dropWhile_blanks h]; rfl
    exact if_pos ht
  · have h0 : trim line ≠ [] := by
      intro he
      rw [he] at h
      cases h
    exact (if_neg h0).trans (if_pos h)

theorem Skipped.not_rejected {line : Str} (h : Skipped line) : ¬ Rejected line := by
  apply not_rejected_of_wellFormed
  obtain h | h := h
  · left
    rw [trim, dropWhile_blanks h]
    rfl
  · exact .inr (.inl h)

/-- An edit of the lines that only changes how they are laid out. -/
inductive LayoutEdit : List Str → List Str → Prop where
  | skipped (before after : List Str) {line : Str} (h : Skipped line) :
      LayoutEdit (before ++ after) (before ++ line :: after)
  | ends (before after : List Str) (line : Str) {w w' : Str} (hw : Blanks w) (hw' : Blanks w') :
      LayoutEdit (before ++ line :: after) (before ++ (w ++ line ++ w') :: after)
  | equals (before after : List Str) (item value w w' : Str) (hi : ch '=' ∉ item)
      (hc : (trim (item ++ ch '=' :: value)).head? ≠ some (ch ';'))
      (hb : ¬ IsHeader (item ++ ch '=' :: value)) (hw : Blanks w) (hw' : Blanks w') :
      LayoutEdit (before ++ (item ++ ch '=' :: value) :: after)
        (before ++ (item ++ w ++ ch '=' :: (w' ++ value)) :: after)

/-- What the constructor makes of the lines: whether it accepts them, and what it has read. -/
structure SameReading (ls ls' : List Str) : Prop where
  accepted : (∀ line ∈ ls, ¬ Rejected line) ↔ ∀ line ∈ ls', ¬ Rejected line
  values : seen [] (ls.map event) = seen [] (ls'.map event)

theorem SameReading.symm {ls ls' : List Str} (h : SameReading ls ls') : SameReading ls' ls :=
  ⟨h.accepted.symm, h.values.symm⟩

theorem SameReading.trans {ls ls' ls'' : List Str} (h : SameReading ls ls')
    (h' : SameReading ls' ls'') : SameReading ls ls'' :=
  ⟨h.accepted.trans h'.accepted, h.values.trans h'.values⟩

/-- A line is read like another one that does the same. -/
theorem sameReading_of_line (before after : List Str) {line line' : Str}
    (he : event line = event line') (hr : Rejected line ↔ Rejected line') :
    SameReading (before ++ line :: after) (before ++ line' :: after) := by
  apply SameReading.mk
  · simp only [List.forall_mem_append, List.forall_mem_cons, hr]
  · rw [List.map_append, List.map_append, List.map_cons, List.map_cons, he]

theorem sameReading_of_trim (before after : List Str) {line line' : Str}
    (h : trim line = trim line') : SameReading (before ++ line :: after) (before ++ line' :: after) := by
  apply sameReading_of_line
  · rw [event, event, h]
  · rw [Rejected, Rejected, h]

theorem head_append_blanks {item w t : Str} (hw : Blanks w) :
    ((item ++ w).dropWhile blank ++ t).head? = (item.dropWhile blank ++ t).head? := by
  rw [List.dropWhile_append]
  split_ifs with h
  · rw [dropWhile_blanks hw, List.isEmpty_iff.mp h]
  · obtain ⟨c, s, hs⟩ := List.exists_cons_of_ne_nil (mt List.isEmpty_iff.mpr h)
    rw [hs]
    rfl

/-- Each edit leaves the reading as it was. -/
theorem LayoutEdit.sameReading {ls ls' : List Str} (h : LayoutEdit ls ls') : SameReading ls ls' := by
  cases h with
  | skipped before after h =>
    apply SameReading.mk
    · simp only [List.forall_mem_append, List.forall_mem_cons, h.not_rejected, not_false_eq_true,
        true_and]
    · rw [List.map_append, List.map_append, List.map_cons, h.event, seen_nothing]
  | ends before after line hw hw' =>
    apply sameReading_of_trim
    rw [trim_append_blanks _ hw', trim_blanks_append hw]
  | equals before after item value w w' hi hc hb hw hw' =>
    have hi' : ch '=' ∉ item ++ w := by
      rw [List.mem_append, not_or]
      exact ⟨hi, fun hm => absurd (hw _ hm) (by decide)⟩
    have hhead : (trim (item ++ w ++ ch '=' :: (w' ++ value))).head? =
        (trim (item ++ ch '=' :: value)).head? := by
      rw [head_assignment (item ++ w) _ value, trim_assignment, trim_assignment,
        head_append_blanks hw]
    have hc' : (trim (item ++ w ++ ch '=' :: (w' ++ value))).head? ≠ some (ch ';') := hhead ▸ hc
    have hb' : ¬ IsHeader (item ++ w ++ ch '=' :: (w' ++ value)) := by
      rw [IsHeader, hhead]
      exact hb
    have hkey : trim (item ++ w) = trim item := trim_append_blanks item hw
    apply sameReading_of_line
    · rw [event_assignment hi hc hb, event_assignment hi' hc' hb', hkey, trim_blanks_append hw']
    · rw [rejected_assignment hi hc hb, rejected_assignment hi' hc' hb', hkey]

theorem sameReading_of_edits {ls ls' : List Str} (h : Relation.EqvGen LayoutEdit ls ls') :
    SameReading ls ls' := by
  induction h with
  | rel ls ls' h => exact h.sameReading
  | refl ls => exact ⟨Iff.rfl, rfl⟩
  | symm ls ls' _ ih => exact ih.symm
  | trans ls ls' ls'' _ _ ih ih' => exact ih.trans ih'

theorem SameReading.outcome {text text' : Str} (h : SameReading (lines text) (lines text'))
    (fileName : Str) :
    (new fileName (some text)).toOption = (new fileName (some text')).toOption := by
  have hok : ∀ {e : Except IniError MyINI} {values}, e.toOption = some values ↔ e = .ok values := by
    intro e values
    cases e with
    | error e => exact iff_of_false nofun nofun
    | ok v => rw [Except.toOption, Option.some.injEq, Except.ok.injEq]
  ext values
  rw [hok, hok, new_ok_iff, new_ok_iff, h.accepted, h.values]

/-- Texts that differ in their layout are both accepted, with the same values, or both rejected. -/
theorem layout_irrelevant (fileName text text' : Str)
    (h : Relation.EqvGen LayoutEdit (lines text) (lines text')) :
    (new fileName (some text)).toOption = (new fileName (some text')).toOption :=
  (sameReading_of_edits h).outcome fileName

/-- A comment above, and blanks around the name and the value. -/
theorem port_laid_out :
    (new (str "spider.ini") (some (str "port=80"))).toOption =
      (new (str "spider.ini") (some (str "; server\n port = 80"))).toOption := by
  apply layout_irrelevant
  have hlines : lines (str "port=80") = [str "port=80"] := by decide
  have hlines' : lines (str "; server\n port = 80") = [str "; server", str " port = 80"] := by
    decide +kernel
  have hspace : Blanks (str " ") := by
    intro c hc
    rw [List.mem_singleton.mp hc]
    rfl
  have hequals : LayoutEdit [str "port=80"] [str "port = 80"] :=
    .equals [] [] (str "port") (str "80") (str " ") (str " ") (by decide) (by decide)
      (by rw [IsHeader]; decide) hspace hspace
  have hends : LayoutEdit [str "port = 80"] [str " port = 80"] :=
    .ends [] [] (str "port = 80") hspace (List.forall_mem_nil _)
  have hcomment : LayoutEdit [str " port = 80"] [str "; server", str " port = 80"] :=
    .skipped [] [str " port = 80"] (.inr (by decide))
  rw [hlines, hlines']
  exact .trans _ _ _ (.rel _ _ hequals) (.trans _ _ _ (.rel _ _ hends) (.rel _ _ hcomment))

end SpiderSearch.IniLayout
