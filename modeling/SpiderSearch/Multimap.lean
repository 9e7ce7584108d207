import Mathlib.Data.Set.Card

namespace SpiderSearch.Multimap

section Insert

variable {κ ν : Type} (lt : κ → κ → Bool)

/-- `std::multimap::insert`: behind every entry whose key is not ordered after the new one. -/
def insert (kv : κ × ν) : List (κ × ν) → List (κ × ν)
  | [] => [kv]
  | x :: xs => if lt kv.1 x.1 then kv :: x :: xs else x :: insert kv xs

def insertAll (rows xs : List (κ × ν)) : List (κ × ν) :=
  rows.foldl (fun xs kv => insert lt kv xs) xs

/-- Entries stand by key, and those of one key by `S`. -/
def Before (S : ν → ν → Prop) (a b : κ × ν) : Prop := lt a.1 b.1 = true ∨ a.1 = b.1 ∧ S a.2 b.2

variable {lt}

theorem insert_perm (kv : κ × ν) (xs : List (κ × ν)) : (insert lt kv xs).Perm (kv :: xs) := by
  induction xs with
  | nil => exact .refl _
  | cons x xs ih =>
    rw [insert]
    split
    · exact .refl _
    · exact (ih.cons x).trans (.swap kv x xs)

theorem insertAll_perm (rows xs : List (κ × ν)) : (insertAll lt rows xs).Perm (rows ++ xs) := by
  induction rows generalizing xs with
  | nil => exact .refl _
  | cons kv rows ih =>
    have h := ih (insert lt kv xs)
    exact h.trans (((insert_perm kv xs).append_left rows).trans List.perm_middle)

variable {S : ν → ν → Prop}

theorem insert_before (htrans : ∀ a b c, lt a b = true → lt b c = true → lt a c = true)
    (htotal : ∀ a b, lt a b = true ∨ a = b ∨ lt b a = true) {kv : κ × ν} {xs : List (κ × ν)}
    (hx : xs.Pairwise (Before lt S)) (hs : ∀ x ∈ xs, S x.2 kv.2) :
    (insert lt kv xs).Pairwise (Before lt S) := by
  induction xs with
  | nil => exact List.pairwise_singleton _ _
  | cons x xs ih =>
    obtain ⟨hhead, htail⟩ := List.pairwise_cons.mp hx
    rw [insert]
    by_cases hlt : lt kv.1 x.1 = true
    · rw [if_pos hlt]
      refine List.pairwise_cons.mpr ⟨fun y hy => ?_, hx⟩
      obtain rfl | hy := List.mem_cons.mp hy
      · exact .inl hlt
      · obtain h | ⟨h, -⟩ := hhead y hy
        · exact .inl (htrans _ _ _ hlt h)
        · exact .inl (h ▸ hlt)
    · rw [if_neg hlt]
      refine List.pairwise_cons.mpr ⟨fun y hy => ?_,
        ih htail fun y hy => hs y (List.mem_cons_of_mem x hy)⟩
      obtain rfl | hy := List.mem_cons.mp ((insert_perm kv xs).mem_iff.mp hy)
      · obtain h | h | h := htotal y.1 x.1
        · exact absurd h hlt
        · exact .inr ⟨h.symm, hs x List.mem_cons_self⟩
        · exact .inl h
      · exact hhead y hy

/-- Entries inserted in the order `S` keep it among equal keys. -/
theorem insertAll_before (htrans : ∀ a b c, lt a b = true → lt b c = true → lt a c = true)
    (htotal : ∀ a b, lt a b = true ∨ a = b ∨ lt b a = true) {rows xs : List (κ × ν)}
    (hx : xs.Pairwise (Before lt S)) (hr : rows.Pairwise fun a b => S a.2 b.2)
    (hs : ∀ x ∈ xs, ∀ kv ∈ rows, S x.2 kv.2) : (insertAll lt rows xs).Pairwise (Before lt S) := by
  induction rows generalizing xs with
  | nil => exact hx
  | cons kv rows ih =>
    obtain ⟨hhead, htail⟩ := List.pairwise_cons.mp hr
    refine ih (insert_before htrans htotal hx fun x hm => hs x hm kv List.mem_cons_self) htail ?_
    intro x hm row hrow
    obtain rfl | hm := List.mem_cons.mp ((insert_perm kv xs).mem_iff.mp hm)
    · exact hhead row hrow
    · exact hs x hm row (List.mem_cons_of_mem kv hrow)

end Insert

section Take

variable {α : Type} {R : α → α → Prop}

theorem nodup_of_asymm (hasymm : ∀ a b, R a b → ¬ R b a) {l : List α} (hl : l.Pairwise R) :
    l.Nodup := by
  apply hl.imp
  rintro a b h rfl
  exact hasymm a a h h

/-- An ordered list is determined by its members. -/
theorem eq_of_mem_iff (hasymm : ∀ a b, R a b → ¬ R b a) {l l' : List α} (hl : l.Pairwise R)
    (hl' : l'.Pairwise R) (h : ∀ a, a ∈ l ↔ a ∈ l') : l = l' := by
  refine List.Perm.eq_of_pairwise (fun a b _ _ hab hba => absurd hba (hasymm a b hab)) hl hl' ?_
  exact (List.perm_ext_iff_of_nodup (nodup_of_asymm hasymm hl) (nodup_of_asymm hasymm hl')).mpr h

/-- An element of an ordered list is among the first `n` when fewer than `n` stand above it. -/
theorem mem_take_iff (hasymm : ∀ a b, R a b → ¬ R b a) {l : List α} (hl : l.Pairwise R) {a : α}
    (ha : a ∈ l) (n : Nat) : a ∈ l.take n ↔ {b | b ∈ l ∧ R b a}.ncard < n := by
  classical
  have hnodup := nodup_of_asymm hasymm hl
  obtain ⟨s, t, rfl⟩ := List.append_of_mem ha
  obtain ⟨-, ht, hst⟩ := List.pairwise_append.mp hl
  have hset : {b | b ∈ s ++ a :: t ∧ R b a} = (s.toFinset : Set α) := by
    ext b
    simp only [Set.mem_ofPred_eq, List.mem_append, List.mem_cons, List.coe_toFinset]
    apply Iff.intro
    · rintro ⟨hb | rfl | hb, hr⟩
      · exact hb
      · exact absurd hr (hasymm b b hr)
      · exact absurd hr (hasymm a b ((List.pairwise_cons.mp ht).1 b hb))
    · intro hb
      exact ⟨.inl hb, hst b hb a List.mem_cons_self⟩
  have hns : a ∉ s := fun h => (List.nodup_append.mp hnodup).2.2 a h a List.mem_cons_self rfl
  rw [hset, Set.ncard_coe_finset, List.toFinset_card_of_nodup (List.nodup_append.mp hnodup).1]
  apply Iff.intro
  · intro h
    by_contra hle
    rw [List.take_append_of_le_length (Nat.not_lt.mp hle)] at h
    exact hns (List.mem_of_mem_take h)
  · intro h
    rw [List.take_append]
    refine List.mem_append_right _ ?_
    obtain ⟨k, hk⟩ : ∃ k, n - s.length = k + 1 := ⟨n - s.length - 1, by omega⟩
    rw [hk, List.take_succ_cons]
    exact List.mem_cons_self

end Take

end SpiderSearch.Multimap
