import Mathlib.Data.List.Basic
import Mathlib.Data.List.TakeWhile

namespace SpiderSearch.LetterRuns

variable {α : Type}

/-- A run of marked elements, and what stands around it. -/
structure Run (α : Type) where
  before : List α
  word : List α
  after : List α

def endsIn (p : α → Bool) (s : List α) : Bool := s.getLast?.any p

/-- The runs that start in a list which stands behind `before`. -/
def runsFrom (p : α → Bool) (before : List α) : List α → List (Run α)
  | [] => []
  | c :: s =>
    if p c && !endsIn p before then
      ⟨before, (c :: s).takeWhile p, (c :: s).dropWhile p⟩ :: runsFrom p (before ++ [c]) s
    else runsFrom p (before ++ [c]) s

def runs (p : α → Bool) (s : List α) : List (Run α) := runsFrom p [] s

/-- A run that cannot be made longer. -/
structure Maximal (p : α → Bool) (s : List α) (r : Run α) : Prop where
  text : s = r.before ++ (r.word ++ r.after)
  nonempty : r.word ≠ []
  marked : ∀ c ∈ r.word, p c = true
  left : endsIn p r.before = false
  right : ∀ c ∈ r.after.head?, p c = false

variable {p : α → Bool} {a b s t v : List α} {c : α}

@[simp] theorem endsIn_nil : endsIn p [] = false := rfl

@[simp] theorem endsIn_concat : endsIn p (s ++ [c]) = p c := by
  rw [endsIn, List.getLast?_concat, Option.any_some]

theorem endsIn_append_of_ne_nil (a : List α) (h : b ≠ []) : endsIn p (a ++ b) = endsIn p b := by
  obtain ⟨b, c, rfl⟩ := (List.eq_nil_or_concat' b).resolve_left h
  rw [← List.append_assoc, endsIn_concat, endsIn_concat]

theorem endsIn_of_all (hne : v ≠ []) (hv : ∀ c ∈ v, p c = true) : endsIn p v = true := by
  obtain ⟨v, c, rfl⟩ := (List.eq_nil_or_concat' v).resolve_left hne
  rw [endsIn_concat]
  exact hv c (by simp)

theorem takeWhile_run (hv : ∀ c ∈ v, p c = true) (ht : ∀ c ∈ t.head?, p c = false) :
    (v ++ t).takeWhile p = v ∧ (v ++ t).dropWhile p = t := by
  rw [List.takeWhile_append_of_pos hv, List.dropWhile_append_of_pos hv]
  cases t with
  | nil => simp
  | cons c t =>
    have hc : ¬ p c = true := by rw [ht c rfl]; exact Bool.false_ne_true
    rw [List.takeWhile_cons_of_neg hc, List.dropWhile_cons_of_neg hc, List.append_nil]
    exact ⟨rfl, rfl⟩

/-- What stands before the first `d`, and from there on. -/
theorem takeWhile_ne [DecidableEq α] {d : α} (hd : d ∉ v) (s : List α) :
    (v ++ d :: s).takeWhile (· ≠ d) = v ∧ (v ++ d :: s).dropWhile (· ≠ d) = d :: s := by
  apply takeWhile_run
  · intro c hc
    exact decide_eq_true fun he => hd (he ▸ hc)
  · intro c hc
    rw [← Option.some.inj hc]
    exact decide_eq_false (not_not.mpr rfl)

/-- No run starts at an unmarked element, nor behind a marked one. -/
theorem runsFrom_skip (h : p c = false ∨ endsIn p b = true) :
    runsFrom p b (c :: s) = runsFrom p (b ++ [c]) s := by
  rw [runsFrom, if_neg]
  obtain h | h := h
  · simp [h]
  · simp [h]

theorem runsFrom_inside (hv : ∀ c ∈ v, p c = true) (hb : endsIn p b = true) :
    runsFrom p b (v ++ t) = runsFrom p (b ++ v) t := by
  induction v generalizing b with
  | nil => rw [List.nil_append, List.append_nil]
  | cons c v ih =>
    obtain ⟨hc, hv⟩ := List.forall_mem_cons.mp hv
    rw [List.cons_append, runsFrom_skip (.inr hb), ih hv (by rw [endsIn_concat, hc]),
      List.append_assoc, List.singleton_append]

theorem runsFrom_word (hne : v ≠ []) (hv : ∀ c ∈ v, p c = true)
    (hb : endsIn p b = false) (ht : ∀ c ∈ t.head?, p c = false) :
    runsFrom p b (v ++ t) = ⟨b, v, t⟩ :: runsFrom p (b ++ v) t := by
  obtain ⟨htake, hdrop⟩ := takeWhile_run hv ht
  obtain ⟨c, v, rfl⟩ := List.exists_cons_of_ne_nil hne
  obtain ⟨hc, hv'⟩ := List.forall_mem_cons.mp hv
  rw [List.cons_append] at htake hdrop ⊢
  rw [runsFrom, if_pos (by simp [hc, hb]), htake, hdrop,
    runsFrom_inside hv' (by rw [endsIn_concat, hc]), List.append_assoc, List.singleton_append]

theorem mem_runsFrom {r : Run α} :
    r ∈ runsFrom p b s ↔ Maximal p (b ++ s) r ∧ b.length ≤ r.before.length := by
  induction s generalizing b with
  | nil =>
    refine iff_of_false List.not_mem_nil ?_
    rintro ⟨h, hl⟩
    have ht := congrArg List.length h.text
    have hw := List.length_pos_iff.mpr h.nonempty
    simp only [List.length_append, List.length_nil] at ht
    omega
  | cons c s ih =>
    have hnext : r ∈ runsFrom p (b ++ [c]) s ↔
        Maximal p (b ++ c :: s) r ∧ b.length < r.before.length := by
      rw [ih, List.append_assoc, List.singleton_append, List.length_append, List.length_singleton,
        Nat.succ_le_iff]
    have hfirst : Maximal p (b ++ c :: s) r ∧ r.before.length = b.length ↔
        (p c && !endsIn p b) = true ∧ r = ⟨b, (c :: s).takeWhile p, (c :: s).dropWhile p⟩ := by
      apply Iff.intro
      · rintro ⟨h, hl⟩
        obtain ⟨before, word, after⟩ := r
        obtain ⟨rfl, hcs⟩ := List.append_inj h.text hl.symm
        obtain ⟨htake, hdrop⟩ := takeWhile_run h.marked h.right
        obtain ⟨d, word, rfl⟩ := List.exists_cons_of_ne_nil h.nonempty
        obtain rfl : c = d := (List.cons.inj hcs).1
        rw [hcs]
        dsimp only at htake hdrop ⊢
        rw [htake, hdrop]
        exact ⟨by simp [h.marked c List.mem_cons_self, h.left], rfl⟩
      · rintro ⟨hc, rfl⟩
        rw [Bool.and_eq_true, Bool.not_eq_true'] at hc
        refine ⟨⟨?_, ?_, fun d hd => List.mem_takeWhile_imp hd, hc.2, ?_⟩, rfl⟩
        · rw [List.takeWhile_append_dropWhile]
        · rw [List.takeWhile_cons_of_pos hc.1]
          exact List.cons_ne_nil _ _
        · intro d hd
          have hn := List.head?_dropWhile_not p (c :: s)
          rw [Option.mem_def.mp hd] at hn
          simpa using hn
    rw [runsFrom]
    split_ifs with hc
    · rw [List.mem_cons, hnext]
      apply Iff.intro
      · rintro (hr | ⟨h, hl⟩)
        · obtain ⟨h, hl⟩ := hfirst.mpr ⟨hc, hr⟩
          exact ⟨h, hl.ge⟩
        · exact ⟨h, hl.le⟩
      · rintro ⟨h, hl⟩
        obtain hl | hl := hl.eq_or_lt
        · exact .inl (hfirst.mp ⟨h, hl.symm⟩).2
        · exact .inr ⟨h, hl⟩
    · rw [hnext]
      apply and_congr_right
      intro h
      apply Iff.intro Nat.le_of_lt
      intro hl
      exact hl.lt_of_ne fun he => hc (hfirst.mp ⟨h, he.symm⟩).1

/-- `runs` lists the maximal runs. -/
theorem mem_runs {r : Run α} : r ∈ runs p s ↔ Maximal p s r := by
  rw [runs, mem_runsFrom, List.nil_append]
  exact and_iff_left (Nat.zero_le _)

/-- It lists them in the order of the text, each one once. -/
theorem runsFrom_sorted (p : α → Bool) (b s : List α) :
    (runsFrom p b s).Pairwise fun r q => r.before.length < q.before.length := by
  induction s generalizing b with
  | nil => exact .nil
  | cons c s ih =>
    rw [runsFrom]
    split_ifs
    · refine .cons (fun q hq => ?_) (ih (b ++ [c]))
      have hl := (mem_runsFrom.mp hq).2
      rw [List.length_append, List.length_singleton] at hl
      exact hl
    · exact ih (b ++ [c])

theorem runs_nodup (p : α → Bool) (s : List α) : (runs p s).Nodup := by
  refine (runsFrom_sorted p [] s).imp ?_
  rintro r q h rfl
  exact lt_irrefl _ h

/-- One run at most ends a text. -/
theorem Maximal.eq_of_last {r q : Run α} (hr : Maximal p s r) (hq : Maximal p s q)
    (hra : r.after = []) (hqa : q.after = []) : r = q := by
  obtain ⟨b₁, w₁, a₁⟩ := r
  obtain ⟨b₂, w₂, a₂⟩ := q
  dsimp only at hra hqa
  subst hra hqa
  have ht := hr.text.symm.trans hq.text
  rw [List.append_nil, List.append_nil] at ht
  have hstop : ∀ {b w a : List α}, (∀ c ∈ a ++ w, p c = true) → endsIn p (b ++ a) = false →
      a = [] := by
    intro b w a hm he
    by_contra hne
    rw [endsIn_append_of_ne_nil b hne,
      endsIn_of_all hne fun c hc => hm c (List.mem_append_left w hc)] at he
    cases he
  obtain ⟨a, hb, hw⟩ | ⟨a, hb, hw⟩ := List.append_eq_append_iff.mp ht
  · have hm := hr.marked
    have he := hq.left
    dsimp only at hb hw hm he
    rw [hw] at hm
    rw [hb] at he
    rw [hb, hw, hstop hm he, List.append_nil, List.nil_append]
  · have hm := hq.marked
    have he := hr.left
    dsimp only at hb hw hm he
    rw [hw] at hm
    rw [hb] at he
    rw [hb, hw, hstop hm he, List.append_nil, List.nil_append]

theorem takeWhile_append_cut (hne : s ≠ []) (hs : endsIn p s = false) (t : List α) :
    (s ++ t).takeWhile p = s.takeWhile p ∧ (s ++ t).dropWhile p = s.dropWhile p ++ t := by
  have hd : s.dropWhile p ≠ [] := by
    intro he
    rw [endsIn_of_all hne (List.dropWhile_eq_nil_iff.mp he)] at hs
    cases hs
  have hl : (s.takeWhile p).length ≠ s.length := by
    intro he
    have happ := congrArg List.length (List.takeWhile_append_dropWhile (p := p) (l := s))
    rw [List.length_append, he] at happ
    exact hd (List.length_eq_zero_iff.mp (by omega))
  rw [List.takeWhile_append, if_neg hl, List.dropWhile_append, if_neg (by simpa using hd)]
  exact ⟨rfl, rfl⟩

def Run.extend (r : Run α) (t : List α) : Run α := ⟨r.before, r.word, r.after ++ t⟩

def Run.shift (a : List α) (r : Run α) : Run α := ⟨a ++ r.before, r.word, r.after⟩

/-- Behind an unmarked element the runs of a text start afresh. -/
theorem runsFrom_append (hs : endsIn p (b ++ s) = false) (t : List α) :
    runsFrom p b (s ++ t) = (runsFrom p b s).map (·.extend t) ++ runsFrom p (b ++ s) t := by
  induction s generalizing b with
  | nil => rw [List.nil_append, List.append_nil, runsFrom, List.map_nil, List.nil_append]
  | cons c s ih =>
    have hb : b ++ c :: s = (b ++ [c]) ++ s := by simp
    rw [hb] at hs ⊢
    rw [List.cons_append, runsFrom, runsFrom, ih hs]
    split_ifs with hc
    · have hcs : endsIn p (c :: s) = false := by
        rwa [← hb, endsIn_append_of_ne_nil b (List.cons_ne_nil c s)] at hs
      obtain ⟨htake, hdrop⟩ := takeWhile_append_cut (List.cons_ne_nil c s) hcs t
      rw [List.cons_append] at htake hdrop
      rw [htake, hdrop]
      rfl
    · rfl

theorem runsFrom_shift (a : List α) (h : endsIn p (a ++ b) = endsIn p b) (s : List α) :
    runsFrom p (a ++ b) s = (runsFrom p b s).map (·.shift a) := by
  induction s generalizing b with
  | nil => rfl
  | cons c s ih =>
    have hc : endsIn p (a ++ (b ++ [c])) = endsIn p (b ++ [c]) :=
      endsIn_append_of_ne_nil a (by simp)
    rw [runsFrom, runsFrom, List.append_assoc, ih hc, h]
    split_ifs
    · rfl
    · rfl

end SpiderSearch.LetterRuns
