import Mathlib.Algebra.BigOperators.Group.Finset.Basic
import Mathlib.Algebra.Order.BigOperators.Group.Finset
import Mathlib.Data.Finset.Sort
import Mathlib.Data.Multiset.Count

namespace SpiderSearch.SearchIndex

/-- What a search engine knows: finitely many pages, each with the bag of its words. -/
structure Corpus (W D : Type) where
  pages : Finset D
  text : D → Multiset W
  blank : ∀ d ∉ pages, text d = 0

variable {W D : Type}

def Corpus.empty : Corpus W D := ⟨∅, fun _ => 0, fun _ _ => rfl⟩

section Add

variable [DecidableEq D]

/-- The first text given for a page is the one that stays. -/
def Corpus.add (c : Corpus W D) (d : D) (t : Multiset W) : Corpus W D :=
  if d ∈ c.pages then c
  else
    { pages := insert d c.pages
      text := Function.update c.text d t
      blank := by
        intro e he
        have hne : e ≠ d := fun h => he (h ▸ Finset.mem_insert_self d c.pages)
        rw [Function.update_of_ne hne]
        exact c.blank e fun h => he (Finset.mem_insert_of_mem h) }

theorem Corpus.add_of_mem {c : Corpus W D} {d : D} (h : d ∈ c.pages) (t : Multiset W) :
    c.add d t = c := if_pos h

theorem Corpus.add_pages (c : Corpus W D) (d : D) (t : Multiset W) :
    (c.add d t).pages = insert d c.pages := by
  rw [add]
  split_ifs with h
  · exact (Finset.insert_eq_of_mem h).symm
  · rfl

theorem Corpus.add_text_self {c : Corpus W D} {d : D} (h : d ∉ c.pages) (t : Multiset W) :
    (c.add d t).text d = t := by
  rw [add, if_neg h]
  exact Function.update_self ..

theorem Corpus.add_text_other {c : Corpus W D} {d e : D} (h : e ≠ d) (t : Multiset W) :
    (c.add d t).text e = c.text e := by
  rw [add]
  split_ifs with hd
  · rfl
  · exact Function.update_of_ne h ..

end Add

variable [DecidableEq W]

/-- The pages with at least one of the words. -/
def Corpus.hits (c : Corpus W D) (ws : Finset W) : Finset D :=
  c.pages.filter fun d => ∃ w ∈ ws, w ∈ c.text d

/-- How often the words occur on a page, all together. -/
def Corpus.total (c : Corpus W D) (ws : Finset W) (d : D) : Nat := ∑ w ∈ ws, (c.text d).count w

theorem Corpus.total_le_card (c : Corpus W D) (ws : Finset W) (d : D) :
    c.total ws d ≤ (c.text d).card := by
  rw [← Multiset.toFinset_sum_count_eq]
  refine Finset.sum_le_sum_of_ne_zero fun w _ hw => ?_
  exact Multiset.mem_toFinset.mpr (Multiset.count_ne_zero.mp hw)

theorem Corpus.mem_hits {c : Corpus W D} {ws : Finset W} {d : D} :
    d ∈ c.hits ws ↔ ∃ w ∈ ws, w ∈ c.text d := by
  rw [hits, Finset.mem_filter]
  refine and_iff_right_of_imp fun ⟨w, _, hw⟩ => ?_
  by_contra hd
  rw [c.blank d hd] at hw
  exact Multiset.notMem_zero w hw

section Ranking

variable [Ord D] [Std.TransOrd D] [Std.LawfulEqOrd D]

/-- `d` stands at least as high as `e`: a greater total, or the same total and the smaller page. -/
def Corpus.AtLeast (c : Corpus W D) (ws : Finset W) (d e : D) : Prop :=
  c.total ws e < c.total ws d ∨ c.total ws d = c.total ws e ∧ (compare d e).isLE = true

variable (c : Corpus W D) (ws : Finset W)

instance : DecidableRel (c.AtLeast ws) := fun _ _ => inferInstanceAs (Decidable (_ ∨ _))

instance : IsTrans D (c.AtLeast ws) where
  trans a b d hab hbd := by
    obtain hab | ⟨hab, hle⟩ := hab
    · obtain hbd | ⟨hbd, -⟩ := hbd
      · exact .inl (hbd.trans hab)
      · exact .inl (hbd ▸ hab)
    · obtain hbd | ⟨hbd, hle'⟩ := hbd
      · exact .inl (hab ▸ hbd)
      · exact .inr ⟨hab.trans hbd, Std.TransCmp.isLE_trans hle hle'⟩

instance : Std.Antisymm (c.AtLeast ws) where
  antisymm a b hab hba := by
    obtain hab | ⟨hab, hle⟩ := hab
    · obtain hba | ⟨hba, -⟩ := hba <;> omega
    · obtain hba | ⟨-, hge⟩ := hba
      · omega
      · exact Std.LawfulEqOrd.eq_of_compare (Std.OrientedCmp.isLE_antisymm hle hge)

instance : Std.Total (c.AtLeast ws) where
  total a b := by
    obtain h | h | h := Nat.lt_trichotomy (c.total ws a) (c.total ws b)
    · exact .inr (.inl h)
    · cases hc : (compare a b).isLE with
      | true => exact .inl (.inr ⟨h, hc⟩)
      | false =>
        refine .inr (.inr ⟨h.symm, ?_⟩)
        have hs : compare b a = (compare a b).swap := Std.OrientedCmp.eq_swap
        cases hab : compare a b with
        | lt | eq => simp [hab] at hc
        | gt => rw [hs, hab]; rfl
    · exact .inl (.inl h)

/-- The pages that are hit, in the order of a result list. -/
def Corpus.ranked : List D := (c.hits ws).sort (c.AtLeast ws)

/-- The first `n` lines of the result list. -/
def Corpus.answer (n : Nat) : List (Nat × D) :=
  ((c.ranked ws).take n).map fun d => (c.total ws d, d)

/-- The result list is the only one with its members in its order. -/
theorem Corpus.eq_ranked {l : List D} (hnodup : l.Nodup) (hmem : ∀ d, d ∈ l ↔ d ∈ c.hits ws)
    (hord : l.Pairwise (c.AtLeast ws)) : l = c.ranked ws := by
  refine List.Perm.eq_of_pairwise (fun a b _ _ hab hba => Std.Antisymm.antisymm a b hab hba) hord
    (Finset.pairwise_sort _ _) ?_
  refine (List.perm_ext_iff_of_nodup hnodup (Finset.sort_nodup _ _)).mpr fun d => ?_
  rw [hmem, Finset.mem_sort]

end Ranking

end SpiderSearch.SearchIndex
