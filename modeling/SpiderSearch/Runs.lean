import Mathlib.Data.List.Infix
import Mathlib.Logic.Relation

namespace SpiderSearch.Runs

variable {σ τ α β : Type}

/-- The state a schedule leads to, `none` when one of its actions is not enabled. -/
def run (step : σ → α → Option σ) : σ → List α → Option σ
  | s, [] => some s
  | s, a :: as => (step s a).bind fun t => run step t as

/-- Every action of the schedule is taken in a state where `P` allows it. -/
def Along (step : σ → α → Option σ) (P : σ → α → Prop) : σ → List α → Prop
  | _, [] => True
  | s, a :: as => P s a ∧ ∀ t, step s a = some t → Along step P t as

/-- Every state the schedule passes through satisfies `Q`, the two ends included. -/
def Always (step : σ → α → Option σ) (Q : σ → Prop) (s : σ) (as : List α) : Prop :=
  ∀ bs t, bs <+: as → run step s bs = some t → Q t

variable {step : σ → α → Option σ}

instance decidableAlong {P : σ → α → Prop} [∀ s a, Decidable (P s a)] :
    ∀ (s : σ) (as : List α), Decidable (Along step P s as)
  | _, [] => isTrue trivial
  | s, a :: as =>
    match h : step s a with
    | none => decidable_of_iff (P s a) (by simp [Along, h])
    | some t =>
      have := decidableAlong (P := P) t as
      decidable_of_iff (P s a ∧ Along step P t as) (by simp [Along, h])

@[simp] theorem run_nil (s : σ) : run step s [] = some s := rfl

@[simp] theorem run_cons (s : σ) (a : α) (as : List α) :
    run step s (a :: as) = (step s a).bind fun t => run step t as := rfl

theorem run_append (s : σ) (as bs : List α) :
    run step s (as ++ bs) = (run step s as).bind fun t => run step t bs := by
  induction as generalizing s with
  | nil => rfl
  | cons a as ih =>
    cases h : step s a with
    | none => simp [h]
    | some t => simp [h, ih]

theorem run_cons_some {s t : σ} {a : α} {as : List α} (h : run step s (a :: as) = some t) :
    ∃ u, step s a = some u ∧ run step u as = some t := by
  simpa only [run_cons, Option.bind_eq_some_iff] using h

theorem along_true (s : σ) (as : List α) : Along step (fun _ _ => True) s as := by
  induction as generalizing s with
  | nil => trivial
  | cons a as ih => exact ⟨trivial, fun t _ => ih t⟩

/-- A property preserved by the permitted actions holds at the end of every permitted run. -/
theorem run_invariant_along {P : σ → α → Prop} {I : σ → Prop}
    (hstep : ∀ s a t, I s → P s a → step s a = some t → I t)
    {s t : σ} {as : List α} (hs : I s) (hp : Along step P s as) (h : run step s as = some t) :
    I t := by
  induction as generalizing s with
  | nil =>
    cases h
    exact hs
  | cons a as ih =>
    obtain ⟨u, hu, hr⟩ := run_cons_some h
    exact ih (hstep s a u hs hp.1 hu) (hp.2 u hu) hr

theorem run_invariant {I : σ → Prop} (hstep : ∀ s a t, I s → step s a = some t → I t)
    {s t : σ} {as : List α} (hs : I s) (h : run step s as = some t) : I t :=
  run_invariant_along (P := fun _ _ => True) (fun s a t hi _ => hstep s a t hi) hs
    (along_true s as) h

theorem along_initial {P : σ → α → Prop} {s : σ} {as bs : List α} (hp : Along step P s bs)
    (h : as <+: bs) : Along step P s as := by
  induction as generalizing s bs with
  | nil => trivial
  | cons a as ih =>
    obtain ⟨cs, rfl⟩ := h
    exact ⟨hp.1, fun t ht => ih (hp.2 t ht) (List.prefix_append as cs)⟩

/-- The invariant rule for every state on the way, not only the last one. -/
theorem always_of_along {P : σ → α → Prop} {I Q : σ → Prop}
    (hstep : ∀ s a t, I s → P s a → step s a = some t → I t) (hq : ∀ s, I s → Q s)
    {s : σ} {as : List α} (hs : I s) (hp : Along step P s as) : Always step Q s as := by
  intro bs t hb ht
  exact hq t (run_invariant_along hstep hs (along_initial hp hb) ht)

theorem always_tail {Q : σ → Prop} {s t : σ} {a : α} {as : List α}
    (h : Always step Q s (a :: as)) (ht : step s a = some t) : Always step Q t as := by
  intro bs u hb hu
  refine h (a :: bs) u ?_ (by simpa [ht] using hu)
  obtain ⟨cs, rfl⟩ := hb
  exact ⟨cs, rfl⟩

/-- Where an action that `P` forbids leads from an invariant state into one that violates `Q`,
a schedule that always satisfies `Q` takes permitted actions only. -/
theorem along_of_always {P : σ → α → Prop} {I Q : σ → Prop}
    (hstep : ∀ s a t, I s → step s a = some t → I t)
    (hbad : ∀ s a t, I s → step s a = some t → Q t → P s a)
    {s t : σ} {as : List α} (hs : I s) (hr : run step s as = some t)
    (hq : Always step Q s as) : Along step P s as := by
  induction as generalizing s with
  | nil => trivial
  | cons a as ih =>
    obtain ⟨u, hu, hr'⟩ := run_cons_some hr
    have hqu : Q u := hq [a] u ⟨as, rfl⟩ (by simp [hu])
    refine ⟨hbad s a u hs hu hqu, fun v hv => ?_⟩
    obtain rfl : u = v := Option.some.inj (hu.symm.trans hv)
    exact ih (hstep s a u hs hu) hr' (always_tail hq hu)

/-- Where an action that `P` forbids leaves a trace that no later action removes, a run that
ends without the trace takes permitted actions only. -/
theorem along_of_trace {P : σ → α → Prop} {I B : σ → Prop}
    (hstep : ∀ s a t, I s → step s a = some t → I t)
    (hbad : ∀ s a, I s → ¬ P s a → B s) (hkeep : ∀ s a t, I s → B s → step s a = some t → B t)
    {s t : σ} {as : List α} (hs : I s) (hr : run step s as = some t) (hb : ¬ B t) :
    Along step P s as := by
  induction as generalizing s with
  | nil => trivial
  | cons a as ih =>
    obtain ⟨u, hu, hr'⟩ := run_cons_some hr
    refine ⟨?_, fun v hv => ?_⟩
    · by_contra hp
      refine hb (run_invariant (I := fun s => I s ∧ B s) ?_ ⟨hs, hbad s a hs hp⟩ hr).2
      exact fun s a t h hst => ⟨hstep s a t h.1 hst, hkeep s a t h.1 h.2 hst⟩
    · obtain rfl : u = v := Option.some.inj (hu.symm.trans hv)
      exact ih (hstep s a u hs hu) hr'

/-- Forward simulation along `f`: on invariant states every action of the lower machine is
matched by one action of the upper machine or leaves the upper state alone. -/
theorem run_simulates {step' : τ → β → Option τ} {I : σ → Prop} (f : σ → τ)
    (hstep : ∀ s a t, I s → step s a = some t → I t)
    (hsim : ∀ s a t, I s → step s a = some t → f t = f s ∨ ∃ b, step' (f s) b = some (f t))
    {s t : σ} {as : List α} (hs : I s) (h : run step s as = some t) :
    ∃ bs, run step' (f s) bs = some (f t) := by
  induction as generalizing s with
  | nil =>
    cases h
    exact ⟨[], rfl⟩
  | cons a as ih =>
    obtain ⟨u, hu, hr⟩ := run_cons_some h
    obtain ⟨bs, hbs⟩ := ih (hstep s a u hs hu) hr
    obtain he | ⟨b, hb⟩ := hsim s a u hs hu
    · exact ⟨bs, by rw [← he]; exact hbs⟩
    · exact ⟨b :: bs, by simpa [hb] using hbs⟩

/-- A simulation that turns permitted actions of the lower machine into permitted ones of the
upper machine. -/
theorem run_simulates_along {step' : τ → β → Option τ} {I : σ → Prop} {P : σ → α → Prop}
    {P' : τ → β → Prop} (f : σ → τ)
    (hstep : ∀ s a t, I s → step s a = some t → I t)
    (hsim : ∀ s a t, I s → P s a → step s a = some t →
      f t = f s ∨ ∃ b, P' (f s) b ∧ step' (f s) b = some (f t))
    {s t : σ} {as : List α} (hs : I s) (hp : Along step P s as) (h : run step s as = some t) :
    ∃ bs, Along step' P' (f s) bs ∧ run step' (f s) bs = some (f t) := by
  induction as generalizing s with
  | nil =>
    cases h
    exact ⟨[], trivial, rfl⟩
  | cons a as ih =>
    obtain ⟨u, hu, hr⟩ := run_cons_some h
    obtain ⟨bs, hb, hbs⟩ := ih (hstep s a u hs hu) (hp.2 u hu) hr
    obtain he | ⟨b, hb', hstep'⟩ := hsim s a u hs hp.1 hu
    · rw [he] at hb hbs
      exact ⟨bs, hb, hbs⟩
    · refine ⟨b :: bs, ⟨hb', fun v hv => ?_⟩, by simpa [hstep'] using hbs⟩
      obtain rfl := Option.some.inj (hstep'.symm.trans hv)
      exact hb

theorem run_concat {s t u : σ} {as : List α} {a : α} (h : run step s as = some t)
    (ha : step t a = some u) : run step s (as ++ [a]) = some u := by
  rw [run_append, h, Option.bind_some, run_cons, ha]
  rfl

/-- The invariant rule with what is known of the states a run can reach. -/
theorem run_reachable {I : σ → Prop} {s₀ : σ}
    (hstep : ∀ as s a t, run step s₀ as = some s → I s → step s a = some t → I t)
    (h₀ : I s₀) {as : List α} {s : σ} (h : run step s₀ as = some s) : I s := by
  have hboth : (∃ bs, run step s₀ bs = some s) ∧ I s := by
    refine run_invariant (I := fun s => (∃ bs, run step s₀ bs = some s) ∧ I s) ?_ ⟨⟨[], rfl⟩, h₀⟩ h
    rintro s a t ⟨⟨bs, hr⟩, hi⟩ ha
    exact ⟨⟨bs ++ [a], run_concat hr ha⟩, hstep bs s a t hr hi ha⟩
  exact hboth.2

/-- Two machines that do the same in the states that the first one reaches have the same runs. -/
theorem run_congr {step' : σ → α → Option σ} {s₀ : σ}
    (h : ∀ as s a, run step s₀ as = some s → step' s a = step s a) (as : List α) :
    run step' s₀ as = run step s₀ as := by
  induction as generalizing s₀ with
  | nil => rfl
  | cons a as ih =>
    rw [run_cons, run_cons, h [] s₀ a rfl]
    cases ha : step s₀ a with
    | none => rfl
    | some t =>
      refine ih fun bs u b hu => h (a :: bs) u b ?_
      rwa [run_cons, ha]

/-- Nothing is enabled any more. -/
def Stuck (step : σ → α → Option σ) (s : σ) : Prop := ∀ a, step s a = none

/-- However it goes on from here, it comes to an end, and it ends in `Q`. -/
inductive Inevitable (step : σ → α → Option σ) (Q : σ → Prop) : σ → Prop
  | intro {s : σ} (stuck : Stuck step s → Q s)
      (next : ∀ a t, step s a = some t → Inevitable step Q t) : Inevitable step Q s

/-- A measure that every step makes smaller leads every run to an end. -/
theorem inevitable_of_descent {r : β → β → Prop} (hwf : WellFounded r) (m : σ → β) {Q : σ → Prop}
    {s₀ : σ} (hstep : ∀ s a t, step s a = some t → r (m t) (m s))
    (hstuck : ∀ as s, run step s₀ as = some s → Stuck step s → Q s) : Inevitable step Q s₀ := by
  have hall : ∀ as s, run step s₀ as = some s → Inevitable step Q s := by
    intro as s hr
    induction hm : m s using hwf.induction generalizing as s with
    | h b ih =>
      subst hm
      apply Inevitable.intro
      · exact hstuck as s hr
      · intro a t ht
        exact ih (m t) (hstep s a t ht) (as ++ [a]) t (run_concat hr ht) rfl
  exact hall [] s₀ rfl

theorem Inevitable.mono {Q Q' : σ → Prop} {s₀ : σ} (h : Inevitable step Q s₀)
    (hq : ∀ as s, run step s₀ as = some s → Q s → Q' s) : Inevitable step Q' s₀ := by
  induction h with
  | intro hstuck hnext ih =>
    apply Inevitable.intro
    · exact fun hs => hq [] _ rfl (hstuck hs)
    · intro a t ht
      exact ih a t ht fun as s hr => hq (a :: as) s (by rw [run_cons, ht]; exact hr)

/-- A machine whose steps are those of another one, or small steps in between that make `m` smaller,
comes to its end with it. -/
theorem Inevitable.refine {step' : τ → β → Option τ} {Q : σ → Prop} {Q' : τ → Prop} (f : τ → σ)
    (m : τ → Nat)
    (hstep : ∀ t b t', step' t b = some t' →
      (∃ a, step (f t) a = some (f t')) ∨ f t' = f t ∧ m t' < m t)
    (hstuck : ∀ t, Stuck step' t → (Stuck step (f t) → Q (f t)) → Q' t) {t : τ}
    (h : Inevitable step Q (f t)) : Inevitable step' Q' t := by
  generalize hs : f t = s at h
  induction h generalizing t with
  | @intro s hq hnext ih =>
    induction hm : m t using Nat.strong_induction_on generalizing t with
    | h k ihm =>
      subst hm hs
      apply Inevitable.intro
      · exact fun hst => hstuck t hst hq
      · intro b t' ht
        obtain ⟨a, ha⟩ | ⟨he, hlt⟩ := hstep t b t' ht
        · exact ih a (f t') ha rfl
        · exact ihm (m t') hlt he rfl

section Record

/-- What the actions of a run write down, in order. -/
def record (step : σ → α → Option σ) (out : σ → α → List β) : σ → List α → List β
  | _, [] => []
  | s, a :: as => out s a ++ ((step s a).map fun t => record step out t as).getD []

/-- The invariant rule for a state together with the record of the run that led to it. -/
theorem run_recorded {out : σ → α → List β} {I : σ → List β → Prop}
    (hstep : ∀ s a t bs, I s bs → step s a = some t → I t (bs ++ out s a))
    {s t : σ} {as : List α} {bs : List β} (hs : I s bs) (h : run step s as = some t) :
    I t (bs ++ record step out s as) := by
  induction as generalizing s bs with
  | nil =>
    obtain rfl := Option.some.inj h
    rwa [record, List.append_nil]
  | cons a as ih =>
    obtain ⟨u, hu, ht⟩ := run_cons_some h
    rw [record, hu, Option.map_some, Option.getD_some, ← List.append_assoc]
    exact ih (hstep s a u bs hs hu) ht

end Record

section Answers

variable {ι ο : Type}

/-- What a machine that never refuses answers to a sequence of requests. -/
def answers (step : σ → ι → σ × ο) : σ → List ι → List ο
  | _, [] => []
  | s, i :: is => (step s i).2 :: answers step (step s i).1 is

/-- Two machines that stay related and agree on every single request give the same answers. -/
theorem answers_eq {step : σ → ι → σ × ο} {step' : τ → ι → τ × ο} (R : σ → τ → Prop)
    (Valid : ι → Prop) (hstep : ∀ s t i, R s t → Valid i →
      R (step s i).1 (step' t i).1 ∧ (step s i).2 = (step' t i).2)
    {s : σ} {t : τ} {is : List ι} (hr : R s t) (hv : ∀ i ∈ is, Valid i) :
    answers step s is = answers step' t is := by
  induction is generalizing s t with
  | nil => rfl
  | cons i is ih =>
    obtain ⟨hi, his⟩ := List.forall_mem_cons.mp hv
    obtain ⟨hr', ho⟩ := hstep s t i hr hi
    rw [answers, answers, ho, ih hr' his]

end Answers

end SpiderSearch.Runs
