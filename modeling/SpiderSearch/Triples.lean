import Mathlib.Tactic.TypeStar

namespace SpiderSearch.Triples

variable {σ ε α β : Type}

/-- Computations over a state that survives an error. -/
abbrev Prog (σ ε α : Type) := ExceptT ε (StateM σ) α

def exec (x : Prog σ ε α) (s : σ) : Except ε α × σ := StateT.run (ExceptT.run x) s

/-- From a state in `P` the program returns in `Q`, or stops with an error in `E`. -/
def Triple (P : σ → Prop) (x : Prog σ ε α) (Q : α → σ → Prop) (E : σ → Prop) : Prop :=
  ∀ s, P s →
    match exec x s with
    | (.ok a, t) => Q a t
    | (.error _, t) => E t

@[simp] theorem exec_pure (a : α) (s : σ) : exec (pure a : Prog σ ε α) s = (.ok a, s) := rfl

@[simp] theorem exec_throw (e : ε) (s : σ) : exec (throw e : Prog σ ε α) s = (.error e, s) := rfl

@[simp] theorem exec_get (s : σ) : exec (get : Prog σ ε σ) s = (.ok s, s) := rfl

@[simp] theorem exec_set (s t : σ) : exec (set t : Prog σ ε PUnit) s = (.ok ⟨⟩, t) := rfl

@[simp] theorem exec_modify (f : σ → σ) (s : σ) :
    exec (modify f : Prog σ ε PUnit) s = (.ok ⟨⟩, f s) := rfl

theorem exec_bind (x : Prog σ ε α) (f : α → Prog σ ε β) (s : σ) :
    exec (x >>= f) s =
      match exec x s with
      | (.ok a, t) => exec (f a) t
      | (.error e, t) => (.error e, t) := by
  change StateT.run (ExceptT.run x >>= ExceptT.bindCont f) s = _
  rw [StateT.run_bind]
  change (match exec x s with | (r, t) => StateT.run (ExceptT.bindCont f r) t) = _
  cases exec x s with
  | mk r t => cases r <;> rfl

theorem Triple.bind {P : σ → Prop} {Q : α → σ → Prop} {R : β → σ → Prop} {E : σ → Prop}
    {x : Prog σ ε α} {f : α → Prog σ ε β} (hx : Triple P x Q E)
    (hf : ∀ a, Triple (Q a) (f a) R E) : Triple P (x >>= f) R E := by
  intro s hs
  have h := hx s hs
  rw [exec_bind]
  cases hr : exec x s with
  | mk r t =>
    rw [hr] at h
    cases r with
    | ok a => exact hf a t h
    | error e => exact h

theorem Triple.pure {P : σ → Prop} {Q : α → σ → Prop} {E : σ → Prop} {a : α}
    (h : ∀ s, P s → Q a s) : Triple P (Pure.pure a : Prog σ ε α) Q E := h

theorem Triple.consequence {P P' : σ → Prop} {Q Q' : α → σ → Prop} {E E' : σ → Prop}
    {x : Prog σ ε α} (h : Triple P x Q E) (hp : ∀ s, P' s → P s) (hq : ∀ a s, Q a s → Q' a s)
    (he : ∀ s, E s → E' s) : Triple P' x Q' E' := by
  intro s hs
  have hx := h s (hp s hs)
  cases hr : exec x s with
  | mk r t =>
    rw [hr] at hx
    cases r with
    | ok a => exact hq a t hx
    | error e => exact he t hx

theorem Triple.ok {P : σ → Prop} {Q : α → σ → Prop} {E : σ → Prop} {x : Prog σ ε α}
    (h : Triple P x Q E) {s t : σ} {a : α} (hs : P s) (hr : exec x s = (.ok a, t)) : Q a t := by
  have hx := h s hs
  rwa [hr] at hx

end SpiderSearch.Triples
