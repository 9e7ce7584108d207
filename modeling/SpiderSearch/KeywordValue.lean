import Mathlib.Algebra.GroupWithZero.Nat
import Mathlib.Algebra.Order.BigOperators.Group.List
import Mathlib.Algebra.Order.Group.Nat
import Mathlib.Data.List.Nodup
import Mathlib.Data.List.Perm.Subperm
import SpiderSearch.LastWriter
import SpiderSearch.LetterRuns

namespace SpiderSearch.KeywordValue

open LastWriter
open LetterRuns (takeWhile_run)

variable {α : Type}

/-- The characters of a text of settings `name = value`. -/
structure Grammar (α : Type) where
  space : α → Bool
  equals : α
  quote : α
  escape : α
  equals_space : space equals = false
  quote_space : space quote = false
  escape_space : space escape = false

variable (g : Grammar α)

/-- The number of characters that are no spaces. -/
def weight (s : List α) : Nat := s.countP fun c => !g.space c

theorem weight_append (s t : List α) : weight g (s ++ t) = weight g s + weight g t :=
  List.countP_append

theorem weight_cons (c : α) (s : List α) :
    weight g (c :: s) = weight g s + if g.space c then 0 else 1 := by
  rw [weight, List.countP_cons, weight]
  cases g.space c with
  | true => rfl
  | false => rfl

theorem weight_spaces {s : List α} (hs : ∀ c ∈ s, g.space c = true) : weight g s = 0 := by
  apply List.countP_eq_zero.mpr
  intro c hc
  rw [hs c hc]
  decide

theorem weight_dropWhile (s : List α) : weight g (s.dropWhile g.space) = weight g s := by
  have hs : weight g (s.takeWhile g.space) = 0 :=
    weight_spaces g fun c hc => List.mem_takeWhile_imp hc
  have h := weight_append g (s.takeWhile g.space) (s.dropWhile g.space)
  rw [List.takeWhile_append_dropWhile, hs, Nat.zero_add] at h
  exact h.symm

theorem weight_nonspace {g : Grammar α} {c : α} (hc : g.space c = false) (s : List α) :
    weight g (c :: s) = weight g s + 1 := by
  rw [weight_cons, hc]
  rfl

theorem head_append {P : α → Prop} {s : List α} (hne : s ≠ []) (hs : ∀ c ∈ s, P c) (t : List α) :
    ∀ c ∈ (s ++ t).head?, P c := by
  obtain ⟨d, s, rfl⟩ := List.exists_cons_of_ne_nil hne
  intro c hc
  rw [← Option.some.inj hc]
  exact hs d List.mem_cons_self

variable [DecidableEq α]

/-- A value without a quote before it runs to the next space; the flag says that the last character
was an escape. -/
def readUnquoted : Bool → List α → List α × List α
  | _, [] => ([], [])
  | true, c :: s => (c :: (readUnquoted false s).1, (readUnquoted false s).2)
  | false, c :: s =>
    if g.space c then ([], s)
    else if c = g.escape then readUnquoted true s
    else (c :: (readUnquoted false s).1, (readUnquoted false s).2)

/-- A value behind a quote runs to the closing one. -/
def readQuoted : Bool → List α → Option (List α × List α)
  | _, [] => none
  | true, c :: s => (readQuoted false s).map fun r => (c :: r.1, r.2)
  | false, c :: s =>
    if c = g.escape then readQuoted true s
    else if c = g.quote then some ([], s)
    else (readQuoted false s).map fun r => (c :: r.1, r.2)

def readValue : List α → Option (List α × List α)
  | [] => some ([], [])
  | c :: s => if c = g.quote then readQuoted g false s else some (readUnquoted g false (c :: s))

def nameChar (c : α) : Bool := c != g.equals && !g.space c

/-- A setting at the start of a text, and what stands behind it. -/
def readSetting (s : List α) : Option ((List α × List α) × List α) :=
  match (s.dropWhile (nameChar g)).dropWhile g.space with
  | [] => none
  | c :: t =>
    if c = g.equals then
      (readValue g (t.dropWhile g.space)).map fun r => ((s.takeWhile (nameChar g), r.1), r.2)
    else none

theorem readUnquoted_weight (e : Bool) (s : List α) :
    weight g (readUnquoted g e s).1 + weight g (readUnquoted g e s).2 ≤ weight g s := by
  induction s generalizing e with
  | nil => cases e <;> exact le_rfl
  | cons c s ih =>
    have hfalse := ih false
    have htrue := ih true
    have hc := weight_cons g c s
    have hc' := weight_cons g c (readUnquoted g false s).1
    cases e with
    | true =>
      rw [readUnquoted]
      dsimp only
      omega
    | false =>
      rw [readUnquoted]
      split_ifs
      · rw [hc]
        exact (Nat.zero_add _).trans_le (Nat.le_add_right _ _)
      · omega
      · dsimp only
        omega

theorem readQuoted_weight {e : Bool} {s : List α} {r : List α × List α}
    (h : readQuoted g e s = some r) : weight g r.1 + weight g r.2 ≤ weight g s := by
  induction s generalizing e r with
  | nil => cases e <;> cases h
  | cons c s ih =>
    have hc := weight_cons g c s
    have hcons : (readQuoted g false s).map (fun r => (c :: r.1, r.2)) = some r →
        weight g r.1 + weight g r.2 ≤ weight g (c :: s) := by
      intro hm
      obtain ⟨q, hq, rfl⟩ := Option.map_eq_some_iff.mp hm
      have hle := ih hq
      have hq1 := weight_cons g c q.1
      dsimp only
      omega
    cases e with
    | true => exact hcons h
    | false =>
      rw [readQuoted] at h
      split_ifs at h
      · have hle := ih h
        omega
      · cases h
        rw [hc]
        exact (Nat.zero_add _).trans_le (Nat.le_add_right _ _)
      · exact hcons h

theorem readValue_weight {s : List α} {r : List α × List α} (h : readValue g s = some r) :
    weight g r.1 + weight g r.2 ≤ weight g s := by
  cases s with
  | nil =>
    cases h
    exact le_rfl
  | cons c s =>
    rw [readValue] at h
    split_ifs at h
    · have hle := readQuoted_weight g h
      have hc := weight_cons g c s
      omega
    · cases h
      exact readUnquoted_weight g false (c :: s)

def cost (setting : List α × List α) : Nat := weight g setting.1 + 1 + weight g setting.2

/-- A setting uses up its name, its `=` and its value. -/
theorem readSetting_weight {s : List α} {r : (List α × List α) × List α}
    (h : readSetting g s = some r) : cost g r.1 + weight g r.2 ≤ weight g s := by
  have hs := weight_append g (s.takeWhile (nameChar g)) (s.dropWhile (nameChar g))
  rw [List.takeWhile_append_dropWhile] at hs
  have hd := weight_dropWhile g (s.dropWhile (nameChar g))
  rw [readSetting] at h
  cases hrest : (s.dropWhile (nameChar g)).dropWhile g.space with
  | nil =>
    rw [hrest] at h
    cases h
  | cons c t =>
    rw [hrest] at h hd
    dsimp only at h
    split_ifs at h with hc
    obtain ⟨q, hq, rfl⟩ := Option.map_eq_some_iff.mp h
    have hv := readValue_weight g hq
    have hone : weight g (c :: t) = weight g t + 1 := weight_nonspace (hc ▸ g.equals_space) t
    rw [weight_dropWhile] at hv
    rw [cost]
    dsimp only
    omega

/-- The settings of a text, `none` where it does not follow the grammar. -/
def parse (s : List α) : Option (List (List α × List α)) :=
  if s.dropWhile g.space = [] then some []
  else
    match _h : readSetting g (s.dropWhile g.space) with
    | none => none
    | some (setting, rest) => (parse rest).map (setting :: ·)
termination_by weight g s
decreasing_by
  have h := readSetting_weight g _h
  rw [weight_dropWhile, cost] at h
  dsimp only at h
  omega

theorem parse_nil : parse g [] = some [] := by
  rw [parse]
  exact if_pos rfl

theorem parse_space {c : α} (hc : g.space c = true) (s : List α) : parse g (c :: s) = parse g s := by
  have hd : (c :: s).dropWhile g.space = s.dropWhile g.space := List.dropWhile_cons_of_pos hc
  rw [parse, parse, hd]

/-- What a text is parsed to, its first setting at a time. -/
theorem parse_eq {s : List α} (hs : s.dropWhile g.space ≠ []) :
    parse g s = (readSetting g (s.dropWhile g.space)).bind fun r => (parse g r.2).map (r.1 :: ·) := by
  rw [parse, if_neg hs]
  split
  next h => rw [h]; rfl
  next setting rest h => rw [h]; rfl

/-- The settings cost no more than the text has. -/
theorem parse_weight {s : List α} {settings : List (List α × List α)}
    (h : parse g s = some settings) : (settings.map (cost g)).sum ≤ weight g s := by
  induction hn : weight g s using Nat.strong_induction_on generalizing s settings with
  | _ n ih =>
    by_cases hs : s.dropWhile g.space = []
    · rw [parse, if_pos hs] at h
      cases h
      exact Nat.zero_le _
    · rw [parse_eq g hs] at h
      obtain ⟨r, hr, h⟩ := Option.bind_eq_some_iff.mp h
      obtain ⟨rest, hrest, rfl⟩ := Option.map_eq_some_iff.mp h
      have hw := readSetting_weight g hr
      rw [weight_dropWhile, hn] at hw
      have hc : 1 ≤ cost g r.1 := by
        rw [cost]
        omega
      have hle := ih _ (by omega) hrest rfl
      rw [List.map_cons, List.sum_cons]
      omega

/-- A text without spaces. -/
def Word (v : List α) : Prop := v ≠ [] ∧ ∀ c ∈ v, g.space c = false

/-- A value that is read as it is written. -/
def Plain (v : List α) : Prop := v.head? ≠ some g.quote ∧ g.escape ∉ v

/-- What can stand behind a value. -/
def Ends (t : List α) : Prop := ∀ c ∈ t.head?, g.space c = true

variable {g}

theorem readUnquoted_append {v : List α} (hw : ∀ c ∈ v, g.space c = false) (he : g.escape ∉ v)
    (t : List α) : readUnquoted g false (v ++ t) =
      (v ++ (readUnquoted g false t).1, (readUnquoted g false t).2) := by
  induction v with
  | nil => rfl
  | cons c v ih =>
    obtain ⟨hc, hv⟩ := List.forall_mem_cons.mp hw
    rw [List.mem_cons, not_or] at he
    rw [List.cons_append, readUnquoted, hc, if_neg Bool.false_ne_true, if_neg (Ne.symm he.1),
      ih hv he.2]
    rfl

theorem readUnquoted_ends {t : List α} (ht : Ends g t) :
    readUnquoted g false t = ([], t.drop 1) := by
  cases t with
  | nil => rfl
  | cons c t => rw [readUnquoted, if_pos (ht c rfl), List.drop_succ_cons, List.drop_zero]

theorem readValue_plain {v t : List α} (hw : Word g v) (hp : Plain g v) (ht : Ends g t) :
    readValue g (v ++ t) = some (v, t.drop 1) := by
  have h := readUnquoted_append hw.2 hp.2 t
  rw [readUnquoted_ends ht, List.append_nil] at h
  obtain ⟨c, s, rfl⟩ := List.exists_cons_of_ne_nil hw.1
  have hc : c ≠ g.quote := fun he => hp.1 (congrArg some he)
  rw [List.cons_append, readValue, if_neg hc, ← List.cons_append, h]

/-- The quote before a value, or the first escape in it, is lost. -/
theorem readValue_lost {v t : List α} (hw : Word g v) (hp : ¬ Plain g v)
    {r : List α × List α} (h : readValue g (v ++ t) = some r) :
    weight g r.1 + weight g r.2 < weight g (v ++ t) := by
  obtain ⟨c, s, rfl⟩ := List.exists_cons_of_ne_nil hw.1
  rw [List.cons_append, readValue] at h
  split_ifs at h with hc
  · have hle := readQuoted_weight g h
    rw [List.cons_append, weight_nonspace (hc ▸ g.quote_space)]
    omega
  · have hm : g.escape ∈ c :: s := by
      by_contra hm
      exact hp ⟨fun he => hc (Option.some.inj he), hm⟩
    obtain ⟨a, b, hab, ha⟩ := List.eq_append_cons_of_mem hm
    have hsplit : c :: (s ++ t) = a ++ g.escape :: (b ++ t) := by
      rw [← List.cons_append, hab, List.append_assoc, List.cons_append]
    -- Up to its first escape the value is read as it is, and the escape is not.
    have haw : ∀ d ∈ a, g.space d = false := by
      intro d hd
      apply hw.2 d
      rw [hab]
      exact List.mem_append_left _ hd
    have hstep : readUnquoted g false (g.escape :: (b ++ t)) = readUnquoted g true (b ++ t) := by
      rw [readUnquoted, g.escape_space, if_neg Bool.false_ne_true, if_pos rfl]
    rw [hsplit, readUnquoted_append haw ha, hstep, Option.some.injEq] at h
    have hrest := readUnquoted_weight g true (b ++ t)
    rw [← h, List.cons_append, hsplit]
    dsimp only
    rw [weight_append, weight_append, weight_nonspace g.escape_space]
    omega

/-- A setting as it is written into a text, with the spaces around its parts. -/
structure Written (g : Grammar α) where
  before : List α
  name : List α
  mid : List α
  behind : List α
  value : List α
  hbefore : ∀ c ∈ before, g.space c = true
  hname : name ≠ [] ∧ ∀ c ∈ name, nameChar g c = true
  hmid : ∀ c ∈ mid, g.space c = true
  hbehind : ∀ c ∈ behind, g.space c = true
  hvalue : Word g value

namespace Written

def tail (w : Written g) : List α := w.mid ++ g.equals :: (w.behind ++ w.value)

def text (w : Written g) : List α := w.before ++ (w.name ++ w.tail)

def pair (w : Written g) : List α × List α := (w.name, w.value)

end Written

/-- The settings of a text, one behind the other. -/
def textOf (ws : List (Written g)) : List α := ws.flatMap Written.text

theorem space_of_nameChar {c : α} (h : nameChar g c = true) : g.space c = false := by
  rw [nameChar, Bool.and_eq_true, Bool.not_eq_true'] at h
  exact h.2

theorem nameChar_tail (w : Written g) (t : List α) :
    ∀ c ∈ (w.tail ++ t).head?, nameChar g c = false := by
  rw [Written.tail, List.append_assoc]
  by_cases hm : w.mid = []
  · intro c hc
    rw [hm] at hc
    rw [← Option.some.inj hc, nameChar]
    simp
  · refine head_append hm (fun c hc => ?_) _
    rw [nameChar, w.hmid c hc]
    simp

theorem readSetting_written (w : Written g) (t : List α) :
    readSetting g (w.name ++ (w.tail ++ t)) =
      (readValue g (w.value ++ t)).map fun r => ((w.name, r.1), r.2) := by
  have hstop := nameChar_tail w t
  have hmid : (w.tail ++ t).dropWhile g.space = g.equals :: (w.behind ++ (w.value ++ t)) := by
    rw [Written.tail, List.append_assoc, (takeWhile_run w.hmid ?_).2]
    · rw [List.cons_append, List.append_assoc]
    · intro c hc
      rw [← Option.some.inj hc]
      exact g.equals_space
  have hbehind : (w.behind ++ (w.value ++ t)).dropWhile g.space = w.value ++ t :=
    (takeWhile_run w.hbehind (head_append w.hvalue.1 w.hvalue.2 t)).2
  obtain ⟨htake, hdrop⟩ := takeWhile_run w.hname.2 hstop
  rw [readSetting, htake, hdrop, hmid]
  dsimp only
  rw [if_pos rfl, hbehind]

theorem parse_written (w : Written g) (t : List α) : parse g (w.text ++ t) =
    (readValue g (w.value ++ t)).bind fun r => (parse g r.2).map ((w.name, r.1) :: ·) := by
  have hdrop : (w.text ++ t).dropWhile g.space = w.name ++ (w.tail ++ t) := by
    rw [Written.text, List.append_assoc, List.append_assoc]
    refine (takeWhile_run w.hbefore ?_).2
    exact head_append w.hname.1 (fun c hc => space_of_nameChar (w.hname.2 c hc)) _
  have hne : (w.text ++ t).dropWhile g.space ≠ [] := by
    rw [hdrop]
    exact List.append_ne_nil_of_left_ne_nil w.hname.1 _
  rw [parse_eq g hne, hdrop, readSetting_written]
  cases readValue g (w.value ++ t) with
  | none => rfl
  | some r => rfl

theorem weight_text (w : Written g) (t : List α) :
    weight g (w.text ++ t) = weight g w.name + 1 + weight g (w.value ++ t) := by
  have hbefore := weight_spaces g w.hbefore
  have hmid := weight_spaces g w.hmid
  have hbehind := weight_spaces g w.hbehind
  simp only [Written.text, Written.tail, List.append_assoc, List.cons_append, weight_append,
    weight_nonspace g.equals_space]
  omega

/-- The settings of a text cost all it has. -/
theorem weight_textOf (ws : List (Written g)) :
    weight g (textOf ws) = ((ws.map Written.pair).map (cost g)).sum := by
  induction ws with
  | nil => rfl
  | cons w ws ih =>
    have htext : textOf (w :: ws) = w.text ++ textOf ws := List.flatMap_cons
    rw [htext, weight_text, weight_append, ih, List.map_cons, List.map_cons, List.sum_cons, cost]
    exact (Nat.add_assoc _ _ _).symm

/-- Settings with spaces before them end the value they stand behind. -/
theorem ends_textOf {ws : List (Written g)} (hs : ∀ w ∈ ws, w.before ≠ []) :
    Ends g (textOf ws) := by
  cases ws with
  | nil => exact nofun
  | cons w ws =>
    rw [textOf, List.flatMap_cons, Written.text, List.append_assoc]
    exact head_append (hs w List.mem_cons_self) w.hbefore _

theorem parse_ends {t : List α} (ht : Ends g t) : parse g (t.drop 1) = parse g t := by
  cases t with
  | nil => rfl
  | cons c t => exact (parse_space g (ht c rfl) t).symm

/-- Plain values are read as they are written. -/
theorem parse_textOf {ws : List (Written g)} (hs : ∀ w ∈ ws.tail, w.before ≠ [])
    (hp : ∀ w ∈ ws, Plain g w.value) : parse g (textOf ws) = some (ws.map Written.pair) := by
  induction ws with
  | nil => exact parse_nil g
  | cons w ws ih =>
    obtain ⟨hw, hws⟩ := List.forall_mem_cons.mp hp
    have htext : textOf (w :: ws) = w.text ++ textOf ws := List.flatMap_cons
    have hends : Ends g (textOf ws) := ends_textOf hs
    have hrest := ih (fun w hm => hs w (List.mem_of_mem_tail hm)) hws
    rw [htext, parse_written, readValue_plain w.hvalue hw hends, Option.bind_some, parse_ends hends,
      hrest]
    rfl

/-- With another value the settings that are read cost less than the text has. -/
theorem parse_lost {ws : List (Written g)} (hs : ∀ w ∈ ws.tail, w.before ≠ [])
    (hp : ¬ ∀ w ∈ ws, Plain g w.value) {settings : List (List α × List α)}
    (h : parse g (textOf ws) = some settings) :
    (settings.map (cost g)).sum < weight g (textOf ws) := by
  induction ws generalizing settings with
  | nil => exact absurd (List.forall_mem_nil _) hp
  | cons w ws ih =>
    have htext : textOf (w :: ws) = w.text ++ textOf ws := List.flatMap_cons
    have hends : Ends g (textOf ws) := ends_textOf hs
    rw [htext, parse_written] at h
    rw [htext, weight_text]
    obtain ⟨⟨value, t⟩, hr, h⟩ := Option.bind_eq_some_iff.mp h
    obtain ⟨rest, hrest, rfl⟩ := Option.map_eq_some_iff.mp h
    have hsum : (((w.name, value) :: rest).map (cost g)).sum =
        weight g w.name + 1 + weight g value + (rest.map (cost g)).sum := by
      rw [List.map_cons, List.sum_cons, cost]
    dsimp only at hrest ⊢
    rw [hsum]
    by_cases hw : Plain g w.value
    · rw [readValue_plain w.hvalue hw hends] at hr
      cases hr
      rw [parse_ends hends] at hrest
      have hlost := ih (fun w hm => hs w (List.mem_of_mem_tail hm))
        (fun hws => hp (List.forall_mem_cons.mpr ⟨hw, hws⟩)) hrest
      rw [weight_append]
      omega
    · have hlost := readValue_lost w.hvalue hw hr
      have hle := parse_weight g hrest
      dsimp only at hlost
      omega

/-- The settings are read back, each with its value, exactly when every value is plain. -/
theorem carried_iff {ws : List (Written g)} (hs : ∀ w ∈ ws.tail, w.before ≠ [])
    (hn : (ws.map Written.name).Nodup) :
    (∃ settings, parse g (textOf ws) = some settings ∧
      ∀ name value, lastWrite settings name = some value ↔ (name, value) ∈ ws.map Written.pair) ↔
      ∀ w ∈ ws, Plain g w.value := by
  have hkeys : ((ws.map Written.pair).map Prod.fst).Nodup := by
    rw [List.map_map]
    exact hn
  apply Iff.intro
  · rintro ⟨settings, h, hc⟩
    by_contra hp
    have hlost := parse_lost hs hp h
    -- All the settings of the text would be among the ones read, which cost less than the text has.
    have hsub : ws.map Written.pair ⊆ settings := by
      rintro ⟨name, value⟩ hm
      obtain ⟨before, after, rfl, -⟩ := lastWrite_eq_some_iff.mp ((hc name value).mpr hm)
      exact List.mem_append_right before List.mem_cons_self
    obtain ⟨read, hperm, hread⟩ := (List.Nodup.of_map _ hkeys).subperm hsub
    have hle : (read.map (cost g)).sum ≤ (settings.map (cost g)).sum :=
      (hread.map (cost g)).sum_le_sum fun n _ => Nat.zero_le n
    rw [(hperm.map (cost g)).sum_eq, ← weight_textOf] at hle
    omega
  · intro hp
    exact ⟨_, parse_textOf hs hp, fun name value => lastWrite_nodup hkeys⟩

end SpiderSearch.KeywordValue
