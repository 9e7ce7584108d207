import Mathlib.Algebra.BigOperators.Group.Finset.Basic
import Mathlib.Data.Multiset.DershowitzManna
import Mathlib.Order.WellFounded

namespace SpiderSearch.Descent

open Multiset

/-- What one summand of a family leaves of the sum when it is replaced. -/
theorem sum_update_split {ι κ A : Type} [Fintype ι] [DecidableEq ι] [AddCommMonoid A]
    (w : κ → A) (f : ι → κ) (i : ι) : ∃ R, ∑ j, w (f j) = R + w (f i) ∧
      ∀ x, ∑ j, w (Function.update f i x j) = R + w x := by
  refine ⟨∑ j ∈ Finset.univ.erase i, w (f j), ?_, fun x => ?_⟩
  · exact (Finset.sum_erase_add _ _ (Finset.mem_univ i)).symm
  · rw [← Finset.sum_erase_add _ _ (Finset.mem_univ i), Function.update_self]
    congr 1
    refine Finset.sum_congr rfl fun j hj => ?_
    rw [Function.update_of_ne (Finset.ne_of_mem_erase hj)]

variable {α : Type} [Preorder α] {M N P Y : Multiset α} {a : α}

theorem dershowitzManna_add_left (P : Multiset α) (h : IsDershowitzMannaLT M N) :
    IsDershowitzMannaLT (P + M) (P + N) := by
  obtain ⟨X, Y, Z, hz, rfl, rfl, hlt⟩ := h
  exact ⟨P + X, Y, Z, hz, (add_assoc P X Y).symm, (add_assoc P X Z).symm, hlt⟩

theorem dershowitzManna_add_right (P : Multiset α) (h : IsDershowitzMannaLT M N) :
    IsDershowitzMannaLT (M + P) (N + P) := by
  rw [add_comm M, add_comm N]
  exact dershowitzManna_add_left P h

/-- One element gives way to any number of smaller ones. -/
theorem dershowitzManna_of_lt (h : ∀ y ∈ Y, y < a) (M : Multiset α) :
    IsDershowitzMannaLT Y (a ::ₘ M) :=
  ⟨0, Y, a ::ₘ M, cons_ne_zero, (zero_add Y).symm, (zero_add _).symm,
    fun y hy => ⟨a, mem_cons_self a M, h y hy⟩⟩

theorem dershowitzManna_singleton (h : ∀ y ∈ Y, y < a) : IsDershowitzMannaLT Y {a} :=
  dershowitzManna_of_lt h 0

theorem dershowitzManna_cons (h : ∀ y ∈ Y, y < a) : IsDershowitzMannaLT (Y + M) (a ::ₘ M) := by
  rw [← singleton_add]
  exact dershowitzManna_add_right M (dershowitzManna_singleton h)

theorem dershowitzManna_erase (a : α) (M : Multiset α) : IsDershowitzMannaLT M (a ::ₘ M) := by
  have h : IsDershowitzMannaLT (0 + M) (a ::ₘ M) := dershowitzManna_cons nofun
  rwa [zero_add] at h

theorem no_infinite_descent [WellFoundedLT α] (f : ℕ → Multiset α) :
    ¬ ∀ k, IsDershowitzMannaLT (f (k + 1)) (f k) := by
  intro h
  have hwf : IsWellFounded (Multiset α) IsDershowitzMannaLT := ⟨wellFounded_isDershowitzMannaLT⟩
  obtain ⟨k, hk⟩ := WellFounded.not_rel_apply_succ (r := IsDershowitzMannaLT) f
  exact hk (h k)

end SpiderSearch.Descent
