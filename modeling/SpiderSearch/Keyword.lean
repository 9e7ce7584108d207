import Mathlib.Data.List.Basic
import Mathlib.Data.List.Nodup
import SpiderSearch.CppTypes

namespace SpiderSearch.Keyword

open CppTypes

/-- `sub_str.find_first_not_of(letters) == std::string::npos && sub_str.length() > 3`. -/
def accepted (sub_str : Str) : Bool := sub_str.all isAlpha && decide (3 < sub_str.length)

def addKeyword (sub_str : Str) (result : List Str) : List Str :=
  if accepted sub_str = true ∧ sub_str ∉ result then result ++ [sub_str] else result

/-- The `do` loop of `getKeyword`, `none` where `substr` throws `std::out_of_range`. -/
def getKeywordLoop (value : Str) : Nat → Nat → List Str → Option (List Str)
  | 0, _, _ => none
  | fuel + 1, pos_begin, result =>
    let pos_end := find value (ch '+') pos_begin
    match substr value pos_begin (sizeSub pos_end pos_begin) with
    | none => none
    | some sub_str =>
      if pos_end = npos then some (addKeyword sub_str result)
      else getKeywordLoop value fuel (sizeAdd pos_end 1) (addKeyword sub_str result)

def getKeyword (value : Str) : Option (List Str) :=
  getKeywordLoop (toLower value) (value.length + 1) 0 []

theorem addKeyword_nodup {sub_str : Str} {result : List Str} (h : result.Nodup) :
    (addKeyword sub_str result).Nodup := by
  rw [addKeyword]
  split
  next hc => exact List.nodup_append.mpr ⟨h, List.nodup_singleton _, by
    rintro a ha b hb rfl
    exact hc.2 (List.mem_singleton.mp hb ▸ ha)⟩
  · exact h

theorem getKeywordLoop_nodup {value : Str} {fuel pos : Nat} {result ks : List Str}
    (hr : result.Nodup) (h : getKeywordLoop value fuel pos result = some ks) : ks.Nodup := by
  induction fuel generalizing pos result with
  | zero => cases h
  | succ fuel ih =>
    rw [getKeywordLoop] at h
    split at h
    · cases h
    next sub_str _ =>
      split at h
      · cases h
        exact addKeyword_nodup hr
      · exact ih (addKeyword_nodup hr) h

theorem getKeyword_nodup {value : Str} {ks : List Str} (h : getKeyword value = some ks) : ks.Nodup :=
  getKeywordLoop_nodup List.nodup_nil h

theorem find_bounds (s : Str) (c : UInt8) (pos : Nat) :
    find s c pos = npos ∨ pos ≤ find s c pos ∧ find s c pos < s.length := by
  rw [find]
  split
  next i hi =>
    obtain ⟨hlt, -⟩ := List.findIdx?_eq_some_iff_getElem.mp hi
    rw [List.length_drop] at hlt
    exact .inr ⟨Nat.le_add_right pos i, by omega⟩
  · exact .inl rfl

/-- A string shorter than `npos` is split without an exception, one piece a turn. -/
theorem getKeywordLoop_total {value : Str} (hlen : value.length < npos) (fuel pos : Nat)
    (result : List Str) (hp : pos ≤ value.length) (hf : value.length < fuel + pos) :
    ∃ ks, getKeywordLoop value fuel pos result = some ks := by
  induction fuel generalizing pos result with
  | zero => omega
  | succ fuel ih =>
    rw [getKeywordLoop]
    simp only [substr, if_pos hp]
    obtain hn | ⟨hle, hlt⟩ := find_bounds value (ch '+') pos
    · exact ⟨_, if_pos hn⟩
    · have hne : find value (ch '+') pos ≠ npos := by omega
      have hadd : sizeAdd (find value (ch '+') pos) 1 = find value (ch '+') pos + 1 := by
        rw [npos, sizeTypeModulus] at hlen
        rw [sizeAdd, sizeTypeModulus]
        omega
      rw [if_neg hne, hadd]
      exact ih _ _ (by omega) (by omega)

theorem getKeyword_total {value : Str} (hlen : value.length < npos) :
    ∃ ks, getKeyword value = some ks := by
  have hl : (toLower value).length = value.length := List.length_map _
  exact getKeywordLoop_total (hl.symm ▸ hlen) _ 0 [] (Nat.zero_le _) (by omega)

theorem find_of_notMem {s : Str} {c : UInt8} {pos : Nat} (h : c ∉ s.drop pos) :
    find s c pos = npos := by
  have hn : (s.drop pos).findIdx? (· == c) = none := by
    refine List.findIdx?_eq_none_iff.mpr fun x hx => ?_
    exact beq_eq_false_iff_ne.mpr fun he => h (he ▸ hx)
  rw [find, hn]

theorem find_of_append {s v t : Str} {c : UInt8} {pos : Nat} (hs : s.drop pos = v ++ c :: t)
    (hv : c ∉ v) : find s c pos = pos + v.length := by
  have hi : (s.drop pos).findIdx? (· == c) = some v.length := by
    rw [hs, List.findIdx?_append, List.findIdx?_eq_none_iff.mpr, Option.none_or]
    · simp [List.findIdx?_cons]
    · exact fun x hx => beq_eq_false_iff_ne.mpr fun he => hv (he ▸ hx)
  rw [find, hi]

/-- The keywords among the pieces of a text, each once, behind those found before. -/
def addPieces (pieces : List Str) (result : List Str) : List Str :=
  pieces.foldl (fun result sub_str => addKeyword sub_str result) result

/-- One turn of the loop takes the piece up to the next separator. -/
theorem getKeywordLoop_eq {value : Str} (hlen : value.length < npos) (fuel pos : Nat)
    (result : List Str) (hp : pos ≤ value.length) (hf : value.length < fuel + pos) :
    getKeywordLoop value fuel pos result =
      some (addPieces ((value.drop pos).splitOn (ch '+')) result) := by
  have hM : sizeTypeModulus = npos + 1 := by decide
  induction fuel generalizing pos result with
  | zero => omega
  | succ fuel ih =>
    rw [getKeywordLoop]
    simp only [substr, if_pos hp]
    by_cases hc : ch '+' ∈ value.drop pos
    · obtain ⟨v, t, hs, hv⟩ := List.eq_append_cons_of_mem hc
      have hl : value.length - pos = v.length + (t.length + 1) := by
        rw [← List.length_drop, hs, List.length_append, List.length_cons]
      have hsub : sizeSub (pos + v.length) pos = v.length := by
        rw [sizeSub, hM, show pos + v.length + (npos + 1 - pos) = v.length + (npos + 1) by omega,
          Nat.add_mod_right, Nat.mod_eq_of_lt (by omega)]
      have hadd : sizeAdd (pos + v.length) 1 = pos + v.length + 1 := by
        rw [sizeAdd, hM, Nat.mod_eq_of_lt (by omega)]
      have hdrop : value.drop (pos + v.length + 1) = t := by
        rw [Nat.add_assoc, ← List.drop_drop, hs, ← List.drop_drop, List.drop_left]
        rfl
      rw [find_of_append hs hv, hsub, if_neg (by omega), hadd, hs, List.take_left,
        ih _ _ (by omega) (by omega), hdrop, List.splitOn_append_cons_self_of_not_mem hv]
      rfl
    · have hsub : sizeSub npos pos = npos - pos := by
        rw [sizeSub, hM, show npos + (npos + 1 - pos) = npos - pos + (npos + 1) by omega,
          Nat.add_mod_right, Nat.mod_eq_of_lt (by omega)]
      rw [find_of_notMem hc, hsub, if_pos rfl, List.splitOn_eq_singleton hc,
        List.take_of_length_le (by rw [List.length_drop]; omega)]
      rfl

theorem getKeyword_eq {value : Str} (hlen : value.length < npos) :
    getKeyword value = some (addPieces ((toLower value).splitOn (ch '+')) []) := by
  have hl : (toLower value).length = value.length := List.length_map _
  exact getKeywordLoop_eq (hl.symm ▸ hlen) _ 0 [] (Nat.zero_le _) (by omega)

theorem mem_addKeyword {w sub_str : Str} {result : List Str} :
    w ∈ addKeyword sub_str result ↔ w ∈ result ∨ w = sub_str ∧ accepted w = true := by
  rw [addKeyword]
  split
  next h =>
    rw [List.mem_append, List.mem_singleton]
    exact or_congr_right ⟨fun he => ⟨he, he ▸ h.1⟩, And.left⟩
  next h =>
    refine ⟨Or.inl, fun hw => hw.elim id ?_⟩
    rintro ⟨rfl, ha⟩
    exact Decidable.not_not.mp fun hn => h ⟨ha, hn⟩

theorem mem_addPieces {w : Str} {pieces result : List Str} :
    w ∈ addPieces pieces result ↔ w ∈ result ∨ w ∈ pieces ∧ accepted w = true := by
  induction pieces generalizing result with
  | nil => simp [addPieces]
  | cons p pieces ih =>
    have h : w ∈ addPieces pieces (addKeyword p result) ↔ _ := ih
    rw [addPieces] at h ⊢
    rw [List.foldl_cons, h, mem_addKeyword, or_assoc, ← or_and_right, List.mem_cons]

/-- The keywords are the pieces between the separators that are long enough and all letters. -/
theorem mem_getKeyword {value : Str} {ks : List Str} (hlen : value.length < npos)
    (h : getKeyword value = some ks) (w : Str) :
    w ∈ ks ↔ w ∈ (toLower value).splitOn (ch '+') ∧ accepted w = true := by
  rw [getKeyword_eq hlen] at h
  cases h
  rw [mem_addPieces]
  simp

theorem getKeywordLoop_word {value : Str} {fuel pos : Nat} {result ks : List Str} {w : Str}
    (h : getKeywordLoop value fuel pos result = some ks) (hw : w ∈ ks) :
    w ∈ result ∨ accepted w = true ∧ ∀ c ∈ w, c ∈ value := by
  induction fuel generalizing pos result with
  | zero => cases h
  | succ fuel ih =>
    rw [getKeywordLoop] at h
    split at h
    · cases h
    next sub_str hs =>
      have hadd : w ∈ addKeyword sub_str result →
          w ∈ result ∨ accepted w = true ∧ ∀ c ∈ w, c ∈ value := by
        intro hm
        obtain hm | ⟨rfl, ha⟩ := mem_addKeyword.mp hm
        · exact .inl hm
        · refine .inr ⟨ha, fun c hc => ?_⟩
          rw [substr] at hs
          split_ifs at hs
          cases hs
          exact List.mem_of_mem_drop (List.mem_of_mem_take hc)
      split at h
      · cases h
        exact hadd hw
      · obtain hm | hm := ih h
        · exact hadd hm
        · exact .inr hm

theorem getKeyword_word {value : Str} {ks : List Str} {w : Str} (h : getKeyword value = some ks)
    (hw : w ∈ ks) : accepted w = true ∧ ∀ c ∈ w, c ∈ toLower value :=
  (getKeywordLoop_word h hw).resolve_left List.not_mem_nil

example : getKeyword (str "Spider++web2+robot+spider") = some [str "spider", str "robot"] := by decide

end SpiderSearch.Keyword
