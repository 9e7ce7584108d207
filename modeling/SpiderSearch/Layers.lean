import Mathlib.Order.Basic
import Mathlib.Data.Nat.Find

namespace SpiderSearch.Layers

variable {V : Type} {E : V → V → Prop}

/-- A chain of exactly `k` edges. -/
inductive Walk (E : V → V → Prop) : Nat → V → V → Prop
  | refl (a : V) : Walk E 0 a a
  | snoc {k : Nat} {a b c : V} : Walk E k a b → E b c → Walk E (k + 1) a c

def Within (E : V → V → Prop) (d : Nat) (a b : V) : Prop := ∃ k, k ≤ d ∧ Walk E k a b

/-- The distance from `a` to `b` is exactly `k`. -/
def Nearest (E : V → V → Prop) (k : Nat) (a b : V) : Prop :=
  Walk E k a b ∧ ∀ j < k, ¬ Walk E j a b

theorem Walk.nearest {k : Nat} {a b : V} (h : Walk E k a b) :
    ∃ j, j ≤ k ∧ Nearest E j a b := by
  classical
  have hex : ∃ j, Walk E j a b := ⟨k, h⟩
  exact ⟨Nat.find hex, Nat.find_le h, Nat.find_spec hex, fun j hj => Nat.find_min hex hj⟩

/-- The last but one vertex of a shortest chain is itself at its shortest distance. -/
theorem Nearest.parent {k : Nat} {a c : V} (h : Nearest E (k + 1) a c) :
    ∃ b, Nearest E k a b ∧ E b c := by
  obtain ⟨hw, hmin⟩ := h
  cases hw with
  | @snoc k a b c hb he =>
    exact ⟨b, ⟨hb, fun j hj hw => hmin (j + 1) (Nat.succ_lt_succ hj) (hw.snoc he)⟩, he⟩

theorem Walk.mono {F : V → V → Prop} (hle : ∀ a b, E a b → F a b) {k : Nat} {a b : V}
    (h : Walk E k a b) : Walk F k a b := by
  induction h with
  | refl a => exact .refl a
  | snoc _ he ih => exact ih.snoc (hle _ _ he)

/-- What a search has recorded, vertex by vertex with the level it was expanded at. An edge of an
expanded vertex may be skipped only when its target stands at no deeper level already. -/
structure Explored (E : V → V → Prop) (start : V) (d : Nat) (R : V → Nat → Prop) : Prop where
  source : R start 0
  sound : ∀ v k, R v k → Walk E k start v
  expand : ∀ u v k, R u k → k < d → E u v → R v (k + 1) ∨ ∃ j, j ≤ k ∧ R v j

/-- Every vertex is recorded at its distance from the start, down to the search depth. -/
theorem Explored.nearest {start : V} {d : Nat} {R : V → Nat → Prop} (h : Explored E start d R)
    {k : Nat} (hk : k ≤ d) {v : V} (hv : Nearest E k start v) : R v k := by
  induction k generalizing v with
  | zero =>
    cases hv.1
    exact h.source
  | succ k ih =>
    obtain ⟨u, hu, he⟩ := hv.parent
    have hr : R u k := ih (Nat.le_of_succ_le hk) hu
    obtain hnew | ⟨j, hj, hold⟩ := h.expand u v k hr hk he
    · exact hnew
    · exact absurd (h.sound v j hold) (hv.2 j (Nat.lt_succ_of_le hj))

theorem Explored.within_iff {start : V} {d : Nat} {R : V → Nat → Prop} (h : Explored E start d R)
    (v : V) : Within E d start v ↔ ∃ k, k ≤ d ∧ R v k := by
  apply Iff.intro
  · rintro ⟨k, hk, hw⟩
    obtain ⟨j, hj, hn⟩ := hw.nearest
    exact ⟨j, hj.trans hk, h.nearest (hj.trans hk) hn⟩
  · rintro ⟨k, hk, hr⟩
    exact ⟨k, hk, h.sound v k hr⟩

end SpiderSearch.Layers
