import Mathlib.Data.List.Infix
import Mathlib.Logic.Function.Basic

namespace SpiderSearch.Regex

variable {α β : Type}

/-- Regular expressions in the reading of ECMAScript: `opt` and a greedy `star` try to take
first, the alternatives are tried in turn and the groups keep what they took. -/
inductive Pattern (α : Type) where
  | empty
  | sym (p : α → Bool)
  | seq (r q : Pattern α)
  | opt (r : Pattern α)
  | star (greedy : Bool) (p : α → Bool)
  | group (i : Nat) (r : Pattern α)
  | atEnd

/-- The text of each group, empty for a group that took no part. -/
abbrev Groups (α : Type) := Nat → List α

def starAt (greedy : Bool) (p : α → Bool) (k : List α → Option β) : List α → Option β
  | [] => k []
  | x :: s =>
    if p x then
      if greedy then (starAt greedy p k s).or (k (x :: s)) else (k (x :: s)).or (starAt greedy p k s)
    else k (x :: s)

def taken (s t : List α) : List α := s.take (s.length - t.length)

/-- Match at the start of the text and go on with `k`, going back to the last choice where
`k` fails. -/
def matchAt : Pattern α → List α → Groups α → (List α → Groups α → Option β) → Option β
  | .empty, s, c, k => k s c
  | .sym p, s, c, k =>
    match s with
    | [] => none
    | x :: t => if p x then k t c else none
  | .seq r q, s, c, k => matchAt r s c fun t d => matchAt q t d k
  | .opt r, s, c, k => (matchAt r s c k).or (k s c)
  | .star greedy p, s, c, k => starAt greedy p (fun t => k t c) s
  | .group i r, s, c, k => matchAt r s c fun t d => k t (Function.update d i (taken s t))
  | .atEnd, s, c, k => if s.isEmpty then k s c else none

structure Match (α : Type) where
  text : List α
  groups : Groups α
  rest : List α

def searchAt (r : Pattern α) (s : List α) : Option (Match α) :=
  matchAt r s (fun _ => []) fun t c => some ⟨taken s t, c, t⟩

/-- The leftmost match. -/
def search (r : Pattern α) : List α → Option (Match α)
  | [] => searchAt r []
  | x :: s => (searchAt r (x :: s)).or (search r s)

/-- The successive matches of a pattern that does not match the empty text. -/
def searchAll (r : Pattern α) : Nat → List α → List (Match α)
  | 0, _ => []
  | k + 1, s =>
    match search r s with
    | none => []
    | some m => m :: searchAll r k m.rest

def iterator (r : Pattern α) (s : List α) : List (Match α) := searchAll r (s.length + 1) s

def lit [DecidableEq α] : List α → Pattern α
  | [] => .empty
  | x :: w => .seq (.sym (· = x)) (lit w)

def plus (greedy : Bool) (p : α → Bool) : Pattern α := .seq (.sym p) (.star greedy p)

/-- What a pattern can take, whatever is tried first. -/
def Parses : Pattern α → List α → Groups α → List α → Groups α → Prop
  | .empty, s, c, t, d => t = s ∧ d = c
  | .sym p, s, c, t, d => ∃ x, s = x :: t ∧ p x = true ∧ d = c
  | .seq r q, s, c, t, d => ∃ u e, Parses r s c u e ∧ Parses q u e t d
  | .opt r, s, c, t, d => Parses r s c t d ∨ t = s ∧ d = c
  | .star _ p, s, c, t, d => ∃ w, s = w ++ t ∧ (∀ x ∈ w, p x = true) ∧ d = c
  | .group i r, s, c, t, d => ∃ w e, s = w ++ t ∧ Parses r s c t e ∧ d = Function.update e i w
  | .atEnd, s, c, t, d => s = [] ∧ t = s ∧ d = c

/-- The groups that occur in a pattern. -/
def indices : Pattern α → List Nat
  | .empty | .sym _ | .star _ _ | .atEnd => []
  | .seq r q => indices r ++ indices q
  | .opt r => indices r
  | .group i r => i :: indices r

@[simp] theorem taken_append (w t : List α) : taken (w ++ t) t = w := by
  simp [taken]

@[simp] theorem indices_lit [DecidableEq α] (w : List α) : indices (lit w) = [] := by
  induction w with
  | nil => rfl
  | cons x w ih => simpa [lit, indices] using ih

@[simp] theorem indices_plus (greedy : Bool) (p : α → Bool) : indices (plus greedy p) = [] := rfl

theorem parses_append {r : Pattern α} {s t : List α} {c d : Groups α} (h : Parses r s c t d) :
    ∃ w, s = w ++ t := by
  induction r generalizing s c t d with
  | empty => exact ⟨[], h.1.symm⟩
  | sym p =>
    obtain ⟨x, rfl, -⟩ := h
    exact ⟨[x], rfl⟩
  | seq r q ihr ihq =>
    obtain ⟨u, e, hr, hq⟩ := h
    obtain ⟨v, rfl⟩ := ihr hr
    obtain ⟨w, rfl⟩ := ihq hq
    exact ⟨v ++ w, (List.append_assoc v w t).symm⟩
  | opt r ih =>
    obtain h | ⟨rfl, -⟩ := h
    · exact ih h
    · exact ⟨[], rfl⟩
  | star greedy p =>
    obtain ⟨w, rfl, -⟩ := h
    exact ⟨w, rfl⟩
  | group i r ih =>
    obtain ⟨w, e, rfl, -⟩ := h
    exact ⟨w, rfl⟩
  | atEnd => exact ⟨[], h.2.1.symm⟩

theorem parses_frame {r : Pattern α} {s t : List α} {c d : Groups α} (h : Parses r s c t d)
    {i : Nat} (hi : i ∉ indices r) : d i = c i := by
  induction r generalizing s c t d with
  | empty => rw [h.2]
  | sym p =>
    obtain ⟨x, -, -, rfl⟩ := h
    rfl
  | seq r q ihr ihq =>
    obtain ⟨u, e, hr, hq⟩ := h
    rw [indices, List.mem_append, not_or] at hi
    rw [ihq hq hi.2, ihr hr hi.1]
  | opt r ih =>
    obtain h | ⟨-, rfl⟩ := h
    · exact ih h hi
    · rfl
  | star greedy p =>
    obtain ⟨w, -, -, rfl⟩ := h
    rfl
  | group j r ih =>
    obtain ⟨w, e, -, hr, rfl⟩ := h
    rw [indices, List.mem_cons, not_or] at hi
    rw [Function.update_of_ne hi.1, ih hr hi.2]
  | atEnd => rw [h.2.2]

theorem starAt_sound {greedy : Bool} {p : α → Bool} {k : List α → Option β} {s : List α} {b : β}
    (h : starAt greedy p k s = some b) :
    ∃ w t, s = w ++ t ∧ (∀ x ∈ w, p x = true) ∧ k t = some b := by
  induction s with
  | nil => exact ⟨[], [], rfl, nofun, h⟩
  | cons x s ih =>
    have further : starAt greedy p k s = some b → p x = true →
        ∃ w t, x :: s = w ++ t ∧ (∀ y ∈ w, p y = true) ∧ k t = some b := by
      intro hs hp
      obtain ⟨w, t, rfl, hw, hk⟩ := ih hs
      exact ⟨x :: w, t, rfl, by simpa [hp] using hw, hk⟩
    have here : k (x :: s) = some b → ∃ w t, x :: s = w ++ t ∧ (∀ y ∈ w, p y = true) ∧ k t = some b :=
      fun hk => ⟨[], x :: s, rfl, nofun, hk⟩
    rw [starAt] at h
    split_ifs at h with hp hg
    · obtain h | ⟨-, h⟩ := Option.or_eq_some_iff.mp h
      · exact further h hp
      · exact here h
    · obtain h | ⟨-, h⟩ := Option.or_eq_some_iff.mp h
      · exact here h
      · exact further h hp
    · exact here h

/-- Backtracking finds nothing that the pattern cannot take. -/
theorem matchAt_sound {r : Pattern α} {s : List α} {c : Groups α}
    {k : List α → Groups α → Option β} {b : β} (h : matchAt r s c k = some b) :
    ∃ t d, Parses r s c t d ∧ k t d = some b := by
  induction r generalizing s c k with
  | empty => exact ⟨s, c, ⟨rfl, rfl⟩, h⟩
  | sym p =>
    cases s with
    | nil => cases h
    | cons x t =>
      rw [matchAt] at h
      split_ifs at h with hp
      exact ⟨t, c, ⟨x, rfl, hp, rfl⟩, h⟩
  | seq r q ihr ihq =>
    obtain ⟨u, e, hr, h⟩ := ihr h
    obtain ⟨t, d, hq, h⟩ := ihq h
    exact ⟨t, d, ⟨u, e, hr, hq⟩, h⟩
  | opt r ih =>
    obtain h | ⟨-, h⟩ := Option.or_eq_some_iff.mp h
    · obtain ⟨t, d, hr, h⟩ := ih h
      exact ⟨t, d, .inl hr, h⟩
    · exact ⟨s, c, .inr ⟨rfl, rfl⟩, h⟩
  | star greedy p =>
    obtain ⟨w, t, rfl, hw, h⟩ := starAt_sound h
    exact ⟨t, c, ⟨w, rfl, hw, rfl⟩, h⟩
  | group i r ih =>
    obtain ⟨t, e, hr, h⟩ := ih h
    obtain ⟨w, rfl⟩ := parses_append hr
    rw [taken_append] at h
    exact ⟨t, _, ⟨w, e, rfl, hr, rfl⟩, h⟩
  | atEnd =>
    rw [matchAt] at h
    split_ifs at h with hs
    exact ⟨s, c, ⟨List.isEmpty_iff.mp hs, rfl, rfl⟩, h⟩

theorem starAt_complete (greedy : Bool) {p : α → Bool} {k : List α → Option β} {w t : List α}
    (hw : ∀ x ∈ w, p x = true) (h : (k t).isSome) : (starAt greedy p k (w ++ t)).isSome := by
  induction w with
  | nil =>
    cases t with
    | nil => exact h
    | cons x s =>
      rw [List.nil_append, starAt]
      split_ifs
      · simp [h]
      · simp [h]
      · exact h
  | cons x w ih =>
    have hx : p x = true := hw x List.mem_cons_self
    have hr := ih fun y hy => hw y (List.mem_cons_of_mem x hy)
    rw [List.cons_append, starAt, if_pos hx]
    split_ifs
    · simp [hr]
    · simp [hr]

/-- Backtracking fails only where nothing the pattern can take lets the rest succeed. -/
theorem matchAt_complete {r : Pattern α} {s t : List α} {c d : Groups α}
    {k : List α → Groups α → Option β} (hr : Parses r s c t d) (h : (k t d).isSome) :
    (matchAt r s c k).isSome := by
  induction r generalizing s t c d k with
  | empty =>
    obtain ⟨rfl, rfl⟩ := hr
    exact h
  | sym p =>
    obtain ⟨x, rfl, hp, rfl⟩ := hr
    rw [matchAt, if_pos hp]
    exact h
  | seq r q ihr ihq =>
    obtain ⟨u, e, hr, hq⟩ := hr
    exact ihr hr (ihq hq h)
  | opt r ih =>
    obtain hr | ⟨rfl, rfl⟩ := hr
    · simp [matchAt, ih hr h]
    · simp [matchAt, h]
  | star greedy p =>
    obtain ⟨w, rfl, hw, rfl⟩ := hr
    exact starAt_complete greedy hw h
  | group i r ih =>
    obtain ⟨w, e, rfl, hr, rfl⟩ := hr
    exact ih hr (by rwa [taken_append])
  | atEnd =>
    obtain ⟨rfl, rfl, rfl⟩ := hr
    exact h

theorem starAt_stop {greedy : Bool} {p : α → Bool} {k : List α → Option β} {s : List α}
    (hs : ∀ x ∈ s.head?, p x = false) : starAt greedy p k s = k s := by
  cases s with
  | nil => rfl
  | cons x s => rw [starAt, hs x rfl, if_neg Bool.false_ne_true]

/-- A greedy star takes all it may, if the rest succeeds there. -/
theorem starAt_greedy {p : α → Bool} {k : List α → Option β} {w s : List α}
    (hw : ∀ x ∈ w, p x = true) (hs : ∀ x ∈ s.head?, p x = false) (h : (k s).isSome) :
    starAt true p k (w ++ s) = k s := by
  induction w with
  | nil => exact starAt_stop hs
  | cons x w ih =>
    have hr := ih fun y hy => hw y (List.mem_cons_of_mem x hy)
    obtain ⟨b, hb⟩ := Option.isSome_iff_exists.mp h
    rw [List.cons_append, starAt, if_pos (hw x List.mem_cons_self), if_pos rfl, hr, hb, Option.some_or]

/-- Of the places where the rest succeeds a greedy star stops at the last. -/
theorem starAt_longest {p : α → Bool} {k : List α → Option β} {s : List α} {b : β}
    (h : starAt true p k s = some b) :
    ∃ w t, s = w ++ t ∧ (∀ x ∈ w, p x = true) ∧ k t = some b ∧
      ∀ w' t', s = w' ++ t' → (∀ x ∈ w', p x = true) → (k t').isSome → w'.length ≤ w.length := by
  induction s with
  | nil =>
    refine ⟨[], [], rfl, nofun, h, fun w' t' he _ _ => ?_⟩
    rw [(List.append_eq_nil_iff.mp he.symm).1]
  | cons x s ih =>
    have here : (∀ w t, s = w ++ t → p x = true → (∀ y ∈ w, p y = true) → ¬ (k t).isSome) →
        k (x :: s) = some b → ∃ w t, x :: s = w ++ t ∧ (∀ x ∈ w, p x = true) ∧ k t = some b ∧
          ∀ w' t', x :: s = w' ++ t' → (∀ x ∈ w', p x = true) → (k t').isSome →
            w'.length ≤ w.length := by
      intro hno hk
      refine ⟨[], x :: s, rfl, nofun, hk, fun w' t' he hw' hs => ?_⟩
      cases w' with
      | nil => exact le_rfl
      | cons y w' =>
        obtain ⟨rfl, rfl⟩ := List.cons.inj he
        obtain ⟨hy, hw'⟩ := List.forall_mem_cons.mp hw'
        exact absurd hs (hno w' t' rfl hy hw')
    by_cases hx : p x = true
    · rw [starAt, if_pos hx, if_pos rfl, Option.or_eq_some_iff] at h
      obtain h | ⟨hnone, h⟩ := h
      · obtain ⟨w, t, rfl, hw, hk, hmax⟩ := ih h
        refine ⟨x :: w, t, rfl, List.forall_mem_cons.mpr ⟨hx, hw⟩, hk, fun w' t' he hw' hs => ?_⟩
        cases w' with
        | nil => exact Nat.zero_le _
        | cons y w' =>
          have he' : w ++ t = w' ++ t' := (List.cons.inj he).2
          exact Nat.succ_le_succ (hmax w' t' he' (List.forall_mem_cons.mp hw').2 hs)
      · refine here (fun w t he _ hw hs => ?_) h
        have hsome := starAt_complete true hw hs
        rw [← he, hnone] at hsome
        cases hsome
    · rw [starAt, if_neg hx] at h
      exact here (fun w t _ hp _ => absurd hp hx) h

theorem starAt_here {p : α → Bool} {k : List α → Option β} {s : List α} (h : (k s).isSome) :
    starAt false p k s = k s := by
  obtain ⟨b, hb⟩ := Option.isSome_iff_exists.mp h
  cases s with
  | nil => rfl
  | cons x s =>
    rw [starAt, hb]
    by_cases hx : p x = true
    · rw [if_pos hx, if_neg Bool.false_ne_true, Option.some_or]
    · rw [if_neg hx]

/-- Where the rest succeeds exactly before `q`, a lazy star stops at the first `q`. -/
theorem starAt_until [DecidableEq α] {p : α → Bool} {q : α} {k : List α → Option β}
    (hk : ∀ t, (k t).isSome ↔ t.head? = some q) (s : List α) :
    starAt false p k s = k (s.dropWhile fun x => p x && x != q) := by
  induction s with
  | nil => rfl
  | cons x s ih =>
    by_cases hx : x = q
    · rw [starAt_here ((hk (x :: s)).mpr (by rw [hx]; rfl)),
        List.dropWhile_cons_of_neg (by simp [hx])]
    have hnone : k (x :: s) = none := by
      rw [← Option.not_isSome_iff_eq_none, hk (x :: s)]
      simpa using hx
    cases hp : p x with
    | false =>
      rw [starAt, hp, if_neg Bool.false_ne_true, List.dropWhile_cons_of_neg (by simp [hp])]
    | true =>
      rw [starAt, hp, if_pos rfl, if_neg Bool.false_ne_true, hnone, Option.none_or, ih,
        List.dropWhile_cons_of_pos (by simp [hp, hx])]

/-- Where the rest succeeds exactly before `q`, which the star cannot take, so does a greedy one. -/
theorem starAt_before {p : α → Bool} {q : α} (hq : p q = false) {k : List α → Option β}
    (hk : ∀ t, (k t).isSome ↔ t.head? = some q) (s : List α) :
    starAt true p k s = k (s.dropWhile p) := by
  induction s with
  | nil => rfl
  | cons x s ih =>
    cases hp : p x with
    | false => rw [starAt_stop (by simp [hp]), List.dropWhile_cons_of_neg (by simp [hp])]
    | true =>
      have hnone : k (x :: s) = none := by
        rw [← Option.not_isSome_iff_eq_none, hk (x :: s), List.head?_cons, Option.some.injEq]
        rintro rfl
        rw [hp] at hq
        cases hq
      rw [starAt, if_pos hp, if_pos rfl, hnone, Option.or_none, ih, List.dropWhile_cons_of_pos hp]

theorem matchAt_lit [DecidableEq α] (w s : List α) (c : Groups α)
    (k : List α → Groups α → Option β) :
    matchAt (lit w) s c k = if w.isPrefixOf s then k (s.drop w.length) c else none := by
  induction w generalizing s with
  | nil => simp [lit, matchAt]
  | cons x w ih =>
    cases s with
    | nil => rfl
    | cons y s =>
      rw [lit, matchAt, matchAt]
      by_cases hx : y = x
      · simp [hx, ih]
      · simp [hx, Ne.symm hx]

/-- An optional part that lets the rest succeed is taken. -/
theorem matchAt_opt {r : Pattern α} {s : List α} {c : Groups α}
    {k : List α → Groups α → Option β} (h : (matchAt r s c k).isSome) :
    matchAt (.opt r) s c k = matchAt r s c k := by
  rw [matchAt]
  obtain ⟨b, hb⟩ := Option.isSome_iff_exists.mp h
  rw [hb, Option.some_or]

/-- Before `w ++ s` the first choice of the pattern is `w`, if the rest then succeeds. -/
def Takes (r : Pattern α) (w s : List α) (f : Groups α → Groups α) : Prop :=
  ∀ (β : Type) (c : Groups α) (k : List α → Groups α → Option β),
    (k s (f c)).isSome → matchAt r (w ++ s) c k = k s (f c)

/-- Of the texts in `Q` behind which the rest succeeds, which it does only in `S`, the pattern
takes the longest for group `i`. -/
def TakesLongest (r : Pattern α) (i : Nat) (Q S : List α → Prop) : Prop :=
  ∀ (β : Type) (s : List α) (c : Groups α) (k : List α → Groups α → Option β) (b : β), c i = [] →
    (∀ t d, (k t d).isSome → S t) → matchAt r s c k = some b →
      ∃ w t, s = w ++ t ∧ Q w ∧ k t (Function.update c i w) = some b ∧
        ∀ w' t', s = w' ++ t' → Q w' → (k t' (Function.update c i w')).isSome →
          w'.length ≤ w.length

theorem TakesLongest.opt {r : Pattern α} {i : Nat} {Q S : List α → Prop}
    (h : TakesLongest r i Q S)
    (hp : ∀ w t c, Q w → Parses r (w ++ t) c t (Function.update c i w)) :
    TakesLongest (.opt r) i (fun w => w = [] ∨ Q w) S := by
  intro β s c k b hc hk hm
  rw [matchAt, Option.or_eq_some_iff] at hm
  obtain hm | ⟨hnone, hm⟩ := hm
  · obtain ⟨w, t, he, hw, hb, hmax⟩ := h β s c k b hc hk hm
    refine ⟨w, t, he, .inr hw, hb, fun w' t' he' hw' hs => ?_⟩
    obtain rfl | hw' := hw'
    · exact Nat.zero_le _
    · exact hmax w' t' he' hw' hs
  · refine ⟨[], s, rfl, .inl rfl, by rwa [← hc, Function.update_eq_self], ?_⟩
    rintro w t rfl (rfl | hw) hs
    · exact le_rfl
    · have hsome := matchAt_complete (hp w t c hw) hs
      rw [hnone] at hsome
      cases hsome

theorem parses_lit [DecidableEq α] {w s t : List α} {c d : Groups α} :
    Parses (lit w) s c t d ↔ s = w ++ t ∧ d = c := by
  induction w generalizing s with
  | nil => simp [lit, Parses, eq_comm]
  | cons x w ih =>
    rw [lit, Parses]
    apply Iff.intro
    · rintro ⟨u, e, ⟨y, rfl, hy, rfl⟩, hr⟩
      obtain ⟨rfl, rfl⟩ := ih.mp hr
      obtain rfl : y = x := by simpa using hy
      exact ⟨rfl, rfl⟩
    · rintro ⟨rfl, rfl⟩
      exact ⟨w ++ t, d, ⟨x, rfl, by simp, rfl⟩, ih.mpr ⟨rfl, rfl⟩⟩

theorem parses_plus {greedy : Bool} {p : α → Bool} {s t : List α} {c d : Groups α} :
    Parses (plus greedy p) s c t d ↔
      ∃ x w, s = x :: (w ++ t) ∧ (∀ y ∈ x :: w, p y = true) ∧ d = c := by
  rw [plus, Parses]
  apply Iff.intro
  · rintro ⟨u, e, ⟨x, rfl, hx, rfl⟩, w, rfl, hw, rfl⟩
    exact ⟨x, w, rfl, by simpa [hx] using hw, rfl⟩
  · rintro ⟨x, w, rfl, hw, rfl⟩
    exact ⟨w ++ t, d, ⟨x, rfl, hw x List.mem_cons_self, rfl⟩, w, rfl,
      fun y hy => hw y (List.mem_cons_of_mem x hy), rfl⟩

theorem takes_lit [DecidableEq α] (w s : List α) : Takes (lit w) w s id := by
  intro β c k h
  induction w with
  | nil => rfl
  | cons x w ih => simpa [lit, matchAt] using ih

theorem takes_seq {r q : Pattern α} {v w s : List α} {f g : Groups α → Groups α}
    (hr : Takes r v (w ++ s) f) (hq : Takes q w s g) : Takes (.seq r q) (v ++ w) s (g ∘ f) := by
  intro β c k h
  have hk := hq β (f c) k h
  rw [List.append_assoc, matchAt, hr β c _ (by rwa [hk]), hk]
  rfl

theorem takes_star {p : α → Bool} {w s : List α} (hw : ∀ x ∈ w, p x = true)
    (hs : ∀ x ∈ s.head?, p x = false) : Takes (.star true p) w s id := by
  intro β c k h
  rw [matchAt, starAt_greedy hw hs h, id]

theorem takes_plus {p : α → Bool} {w s : List α} (hne : w ≠ []) (hw : ∀ x ∈ w, p x = true)
    (hs : ∀ x ∈ s.head?, p x = false) : Takes (plus true p) w s id := by
  obtain ⟨x, w, rfl⟩ := List.exists_cons_of_ne_nil hne
  obtain ⟨hx, hw⟩ := List.forall_mem_cons.mp hw
  intro β c k h
  rw [plus, List.cons_append, matchAt, matchAt, if_pos hx, matchAt, starAt_greedy hw hs h, id]

theorem takes_sym {p : α → Bool} {x : α} (hx : p x = true) (s : List α) :
    Takes (.sym p) [x] s id := by
  intro β c k h
  rw [List.singleton_append, matchAt, if_pos hx, id]

theorem takes_opt {r : Pattern α} {w s : List α} {f : Groups α → Groups α} (hr : Takes r w s f) :
    Takes (.opt r) w s f := by
  intro β c k h
  rw [matchAt_opt (by rwa [hr β c k h]), hr β c k h]

theorem takes_skip {r : Pattern α} {s : List α} (hr : ∀ t c d, ¬ Parses r s c t d) :
    Takes (.opt r) [] s id := by
  intro β c k h
  cases hm : matchAt r s c k with
  | none => rw [List.nil_append, matchAt, hm, Option.none_or, id]
  | some b =>
    obtain ⟨t, d, hp, -⟩ := matchAt_sound hm
    exact absurd hp (hr t c d)

theorem takes_group {r : Pattern α} {w s : List α} {f : Groups α → Groups α} (i : Nat)
    (hr : Takes r w s f) : Takes (.group i r) w s fun c => Function.update (f c) i w := by
  intro β c k h
  have ht : k s (Function.update (f c) i (taken (w ++ s) s)) = k s (Function.update (f c) i w) := by
    rw [taken_append]
  rw [matchAt, hr β c _ (by rwa [ht]), ht]

theorem searchAt_sound {r : Pattern α} {s : List α} {m : Match α} (h : searchAt r s = some m) :
    s = m.text ++ m.rest ∧ Parses r s (fun _ => []) m.rest m.groups := by
  obtain ⟨t, d, hr, hm⟩ := matchAt_sound h
  cases hm
  obtain ⟨w, rfl⟩ := parses_append hr
  exact ⟨by rw [taken_append], hr⟩

theorem search_sound {r : Pattern α} {s : List α} {m : Match α} (h : search r s = some m) :
    ∃ before, s = before ++ (m.text ++ m.rest) ∧
      Parses r (m.text ++ m.rest) (fun _ => []) m.rest m.groups := by
  induction s with
  | nil =>
    obtain ⟨he, hr⟩ := searchAt_sound h
    exact ⟨[], he, by rwa [← he]⟩
  | cons x s ih =>
    obtain h | ⟨-, h⟩ := Option.or_eq_some_iff.mp h
    · obtain ⟨he, hr⟩ := searchAt_sound h
      exact ⟨[], he, by rwa [← he]⟩
    · obtain ⟨before, rfl, hr⟩ := ih h
      exact ⟨x :: before, rfl, hr⟩

theorem searchAt_of_search {r : Pattern α} {s : List α} {m : Match α} (h : search r s = some m) :
    ∃ t, searchAt r t = some m := by
  induction s with
  | nil => exact ⟨[], h⟩
  | cons x s ih =>
    obtain h | ⟨-, h⟩ := Option.or_eq_some_iff.mp h
    · exact ⟨x :: s, h⟩
    · exact ih h

theorem search_of_searchAt {r : Pattern α} {s : List α} {m : Match α} (h : searchAt r s = some m) :
    search r s = some m := by
  cases s with
  | nil => exact h
  | cons x s => rw [search, h, Option.some_or]

theorem searchAt_isSome {r : Pattern α} {s t : List α} {d : Groups α}
    (h : Parses r s (fun _ => []) t d) : (searchAt r s).isSome :=
  matchAt_complete h rfl

theorem search_isSome {r : Pattern α} {s : List α} (h : (searchAt r s).isSome) (a : List α) :
    (search r (a ++ s)).isSome := by
  induction a with
  | nil =>
    obtain ⟨m, hm⟩ := Option.isSome_iff_exists.mp h
    rw [List.nil_append, search_of_searchAt hm]
    rfl
  | cons x a ih =>
    rw [List.cons_append, search, Option.isSome_or, ih, Bool.or_true]

theorem search_of_takes {r : Pattern α} {w s : List α} {f : Groups α → Groups α}
    (h : Takes r w s f) : search r (w ++ s) = some ⟨w, f fun _ => [], s⟩ := by
  apply search_of_searchAt
  have hm := h (Match α) (fun _ => []) (fun t c => some ⟨taken (w ++ s) t, c, t⟩) rfl
  rwa [taken_append] at hm

/-- A match starts at the first place where there is one. -/
theorem search_leftmost {r : Pattern α} {s : List α} {m : Match α} (h : search r s = some m) :
    ∃ before t, s = before ++ t ∧ searchAt r t = some m ∧
      ∀ a b, s = a ++ b → a.length < before.length → searchAt r b = none := by
  induction s with
  | nil => exact ⟨[], [], rfl, h, fun a b _ hl => absurd hl (Nat.not_lt_zero _)⟩
  | cons x s ih =>
    obtain h | ⟨hn, h⟩ := Option.or_eq_some_iff.mp h
    · exact ⟨[], x :: s, rfl, h, fun a b _ hl => absurd hl (Nat.not_lt_zero _)⟩
    · obtain ⟨before, t, rfl, ht, hfirst⟩ := ih h
      refine ⟨x :: before, t, rfl, ht, fun a b he hl => ?_⟩
      cases a with
      | nil =>
        rw [List.nil_append] at he
        rwa [← he]
      | cons y a =>
        rw [List.cons_append] at he
        exact hfirst a b (List.cons.inj he).2 (Nat.lt_of_succ_lt_succ hl)

/-- No symbol of the pattern can take the first symbol of `z`. -/
def Blocks (z : List α) : Pattern α → Prop
  | .empty => True
  | .sym p | .star _ p => ∀ x ∈ z.head?, p x = false
  | .seq r q => Blocks z r ∧ Blocks z q
  | .opt r | .group _ r => Blocks z r
  | .atEnd => z = []

theorem blocks_lit [DecidableEq α] {z w : List α} (h : ∀ x ∈ z.head?, x ∉ w) : Blocks z (lit w) := by
  induction w with
  | nil => trivial
  | cons y w ih =>
    refine ⟨fun x hx => ?_, ih fun x hx hm => h x hx (List.mem_cons_of_mem y hm)⟩
    exact decide_eq_false fun he => h x hx (he ▸ List.mem_cons_self)

theorem taken_append_append (s t z : List α) : taken (s ++ z) (t ++ z) = taken s t := by
  have hl : (s ++ z).length - (t ++ z).length = s.length - t.length := by
    rw [List.length_append, List.length_append]
    omega
  rw [taken, taken, hl, List.take_append_of_le_length (Nat.sub_le _ _)]

section Blocked

variable {β₁ β₂ γ : Type} {z : List α} {f : β₁ → γ} {g : β₂ → γ}

theorem starAt_blocked {greedy : Bool} {p : α → Bool} (hz : ∀ x ∈ z.head?, p x = false)
    {k₁ : List α → Option β₁} {k₂ : List α → Option β₂}
    (hk : ∀ t, (k₁ (t ++ z)).map f = (k₂ t).map g) (s : List α) :
    (starAt greedy p k₁ (s ++ z)).map f = (starAt greedy p k₂ s).map g := by
  induction s with
  | nil =>
    cases z with
    | nil => exact hk []
    | cons x z =>
      have hstop : starAt greedy p k₁ (x :: z) = k₁ (x :: z) := by
        rw [starAt, hz x rfl, if_neg Bool.false_ne_true]
      rw [List.nil_append, hstop]
      exact hk []
  | cons x s ih =>
    have hx := hk (x :: s)
    rw [List.cons_append] at hx ⊢
    rw [starAt, starAt]
    split_ifs
    · rw [Option.map_or, Option.map_or, ih, hx]
    · rw [Option.map_or, Option.map_or, ih, hx]
    · exact hx

/-- What stands behind a symbol that no part of the pattern can take does not matter, nor do the
groups that the rest does not look at. -/
theorem matchAt_blocked {r : Pattern α} (hz : Blocks z r) {R : Groups α → Groups α → Prop}
    (hR : ∀ c d i w, R c d → R (Function.update c i w) (Function.update d i w))
    {k₁ : List α → Groups α → Option β₁} {k₂ : List α → Groups α → Option β₂}
    (hk : ∀ t c d, R c d → (k₁ (t ++ z) c).map f = (k₂ t d).map g) {s : List α}
    {c d : Groups α} (hc : R c d) :
    (matchAt r (s ++ z) c k₁).map f = (matchAt r s d k₂).map g := by
  induction r generalizing s c d k₁ k₂ with
  | empty => exact hk s c d hc
  | sym p =>
    cases s with
    | nil =>
      cases z with
      | nil => rfl
      | cons x z => simp [matchAt, hz x rfl]
    | cons x s =>
      rw [List.cons_append, matchAt, matchAt]
      split_ifs
      · exact hk s c d hc
      · rfl
  | seq r q ihr ihq =>
    exact ihr hz.1 (fun t c d hc => ihq hz.2 hk hc) hc
  | opt r ih =>
    rw [matchAt, matchAt, Option.map_or, Option.map_or, ih hz hk hc, hk s c d hc]
  | star greedy p => exact starAt_blocked hz (fun t => hk t c d hc) s
  | group i r ih =>
    refine ih hz (fun t c d hc => ?_) hc
    rw [taken_append_append]
    exact hk t _ _ (hR c d i _ hc)
  | atEnd =>
    obtain rfl : z = [] := hz
    rw [List.append_nil, matchAt, matchAt]
    split_ifs
    · have h := hk s c d hc
      rwa [List.append_nil] at h
    · rfl

end Blocked

end SpiderSearch.Regex
