import Mathlib.Data.List.Induction
import Mathlib.Logic.Function.Basic

namespace SpiderSearch.LastWriter

variable {ι σ κ β : Type}

section Lookup

variable [DecidableEq ι]

/-- The value that was written last. -/
def lastWrite (ws : List (ι × β)) (i : ι) : Option β := ws.reverse.lookup i

theorem lastWrite_append (ws ws' : List (ι × β)) (i : ι) :
    lastWrite (ws ++ ws') i = (lastWrite ws' i).or (lastWrite ws i) := by
  rw [lastWrite, List.reverse_append, List.lookup_append]
  rfl

theorem lastWrite_single (i j : ι) (b : β) :
    lastWrite [(i, b)] j = if j = i then some b else none := by
  rw [lastWrite, List.reverse_singleton, List.lookup_cons, List.lookup_nil]
  by_cases h : j = i
  · rw [if_pos h, beq_iff_eq.mpr h]
  · rw [if_neg h, beq_eq_false_iff_ne.mpr h]

theorem lastWrite_eq_none {ws : List (ι × β)} {i : ι} (h : ∀ b, (i, b) ∉ ws) :
    lastWrite ws i = none := by
  apply List.lookup_eq_none_iff.mpr
  rintro ⟨j, b⟩ hm
  refine bne_iff_ne.mpr ?_
  rintro rfl
  exact h b (List.mem_reverse.mp hm)

theorem lastWrite_isSome {ws : List (ι × β)} {i : ι} {b : β} (h : (i, b) ∈ ws) :
    (lastWrite ws i).isSome := by
  rw [lastWrite, List.lookup_isSome_iff]
  exact ⟨(i, b), List.mem_reverse.mpr h, beq_self_eq_true i⟩

theorem lastWrite_eq_some_iff {ws : List (ι × β)} {i : ι} {b : β} :
    lastWrite ws i = some b ↔
      ∃ before after, ws = before ++ (i, b) :: after ∧ ∀ b', (i, b') ∉ after := by
  apply Iff.intro
  · intro h
    obtain ⟨after, before, he, hafter⟩ := List.lookup_eq_some_iff.mp h
    refine ⟨before.reverse, after.reverse, ?_, ?_⟩
    · rw [← List.reverse_reverse ws, he]
      simp
    · intro b' hm
      exact bne_iff_ne.mp (hafter (i, b') (List.mem_reverse.mp hm)) rfl
  · rintro ⟨before, after, rfl, hafter⟩
    rw [List.append_cons, lastWrite_append, lastWrite_eq_none hafter, Option.none_or,
      lastWrite_append, lastWrite_single, if_pos rfl]
    rfl

theorem lastWrite_nodup {ws : List (ι × β)} (hn : (ws.map Prod.fst).Nodup) {i : ι} {b : β} :
    lastWrite ws i = some b ↔ (i, b) ∈ ws := by
  rw [lastWrite_eq_some_iff, List.mem_iff_append]
  apply Iff.intro
  · rintro ⟨before, after, he, -⟩
    exact ⟨before, after, he⟩
  · rintro ⟨before, after, rfl⟩
    refine ⟨before, after, rfl, fun b' hm => ?_⟩
    rw [List.map_append, List.map_cons, List.nodup_append, List.nodup_cons] at hn
    exact hn.2.1.1 (List.mem_map.mpr ⟨(i, b'), hm, rfl⟩)

/-- Another value is seen in the end exactly where it is not written over. -/
theorem lastWrite_replace {ws ws' : List (ι × β)} {i : ι} {b b' : β}
    (h : b = b' ∨ ∃ c, (i, c) ∈ ws') (j : ι) :
    lastWrite (ws ++ (i, b) :: ws') j = lastWrite (ws ++ (i, b') :: ws') j := by
  obtain rfl | ⟨c, hc⟩ := h
  · rfl
  rw [List.append_cons, List.append_cons ws (i, b'), lastWrite_append,
    lastWrite_append (ws ++ [(i, b')])]
  by_cases hj : j = i
  · obtain ⟨d, hd⟩ := Option.isSome_iff_exists.mp (lastWrite_isSome hc)
    rw [hj, hd, Option.some_or, Option.some_or]
  · rw [lastWrite_append, lastWrite_append, lastWrite_single, lastWrite_single, if_neg hj, if_neg hj]

end Lookup

/-- What a step does to a store of places: it goes to a place, writes in the current one, or
does nothing. -/
inductive Event (σ κ β : Type) where
  | nothing
  | enter (s : σ)
  | write (k : κ) (b : β)

def Event.next (s : σ) : Event σ κ β → σ
  | .enter t => t
  | _ => s

/-- The place that was entered last. -/
def current (s : σ) (es : List (Event σ κ β)) : σ := es.foldl Event.next s

/-- The writes, each with its place. -/
def writes (s : σ) : List (Event σ κ β) → List ((σ × κ) × β)
  | [] => []
  | .nothing :: es => writes s es
  | .enter t :: es => writes t es
  | .write k b :: es => ((s, k), b) :: writes s es

/-- The places that were entered or written in. -/
def entered (s : σ) : List (Event σ κ β) → List σ
  | [] => []
  | .nothing :: es => entered s es
  | .enter t :: es => t :: entered t es
  | .write _ _ :: es => s :: entered s es

theorem current_append (s : σ) (es es' : List (Event σ κ β)) :
    current s (es ++ es') = current (current s es) es' :=
  List.foldl_append

theorem writes_append (s : σ) (es es' : List (Event σ κ β)) :
    writes s (es ++ es') = writes s es ++ writes (current s es) es' := by
  induction es generalizing s with
  | nil => rfl
  | cons e es ih =>
    cases e with
    | nothing => exact ih s
    | enter t => exact ih t
    | write k b => exact congrArg (((s, k), b) :: ·) (ih s)

theorem entered_append (s : σ) (es es' : List (Event σ κ β)) :
    entered s (es ++ es') = entered s es ++ entered (current s es) es' := by
  induction es generalizing s with
  | nil => rfl
  | cons e es ih =>
    cases e with
    | nothing => exact ih s
    | enter t => exact congrArg (t :: ·) (ih t)
    | write k b => exact congrArg (s :: ·) (ih s)

theorem current_of_noEnter {s : σ} {es : List (Event σ κ β)} (h : ∀ t, .enter t ∉ es) :
    current s es = s := by
  induction es with
  | nil => rfl
  | cons e es ih =>
    have hes : current s es = s := ih fun t hm => h t (List.mem_cons_of_mem e hm)
    cases e with
    | nothing | write k b => exact hes
    | enter t => exact absurd List.mem_cons_self (h t)

/-- The current place is the one of the last entry, or still the first place. -/
theorem current_eq_iff {s t : σ} {es : List (Event σ κ β)} :
    current s es = t ↔ (∃ a c, es = a ++ .enter t :: c ∧ ∀ u, .enter u ∉ c) ∨
      t = s ∧ ∀ u, .enter u ∉ es := by
  apply Iff.intro
  · rintro rfl
    induction es generalizing s with
    | nil => exact .inr ⟨rfl, fun u => List.not_mem_nil⟩
    | cons e es ih =>
      obtain ⟨a, c, he, hc⟩ | ⟨he, hes⟩ := ih (s := e.next s)
      · exact .inl ⟨e :: a, c, congrArg (e :: ·) he, hc⟩
      · cases e with
        | nothing | write k b =>
          refine .inr ⟨he, fun u hm => ?_⟩
          obtain hu | hu := List.mem_cons.mp hm
          · cases hu
          · exact hes u hu
        | enter t =>
          refine .inl ⟨[], es, ?_, hes⟩
          rw [List.nil_append]
          exact congrArg (Event.enter · :: es) he.symm
  · rintro (⟨a, c, rfl, hc⟩ | ⟨rfl, hes⟩)
    · rw [current_append]
      exact current_of_noEnter hc
    · exact current_of_noEnter hes

/-- A write in the list comes from an event, with what was written before and after it. -/
theorem writes_eq_append_iff {s t : σ} {k : κ} {b : β} {es : List (Event σ κ β)}
    {before after : List ((σ × κ) × β)} :
    writes s es = before ++ ((t, k), b) :: after ↔ ∃ a c, es = a ++ .write k b :: c ∧
      current s a = t ∧ writes s a = before ∧ writes t c = after := by
  apply Iff.intro
  · intro h
    induction es generalizing s before with
    | nil =>
      rw [writes] at h
      exact absurd h.symm (by simp)
    | cons e es ih =>
      cases e with
      | nothing =>
        obtain ⟨a, c, rfl, hcur, hbefore, hafter⟩ := ih (s := s) h
        exact ⟨.nothing :: a, c, rfl, hcur, hbefore, hafter⟩
      | enter u =>
        obtain ⟨a, c, rfl, hcur, hbefore, hafter⟩ := ih (s := u) h
        exact ⟨.enter u :: a, c, rfl, hcur, hbefore, hafter⟩
      | write k' b' =>
        rw [writes] at h
        cases before with
        | nil =>
          obtain ⟨he, rfl⟩ := List.cons.inj h
          cases he
          exact ⟨[], es, rfl, rfl, rfl, rfl⟩
        | cons w before =>
          obtain ⟨rfl, hes⟩ := List.cons.inj h
          obtain ⟨a, c, rfl, hcur, rfl, hafter⟩ := ih (s := s) hes
          exact ⟨.write k' b' :: a, c, rfl, hcur, rfl, hafter⟩
  · rintro ⟨a, c, rfl, rfl, rfl, rfl⟩
    exact writes_append s a _

theorem mem_writes {s t : σ} {k : κ} {b : β} {es : List (Event σ κ β)} :
    ((t, k), b) ∈ writes s es ↔ ∃ a c, es = a ++ .write k b :: c ∧ current s a = t := by
  rw [List.mem_iff_append]
  simp only [writes_eq_append_iff]
  apply Iff.intro
  · rintro ⟨-, -, a, c, he, hcur, -⟩
    exact ⟨a, c, he, hcur⟩
  · rintro ⟨a, c, he, hcur⟩
    exact ⟨_, _, a, c, he, hcur, rfl, rfl⟩

theorem mem_entered {s t : σ} {es : List (Event σ κ β)} :
    t ∈ entered s es ↔ .enter t ∈ es ∨ ∃ k b, ((t, k), b) ∈ writes s es := by
  induction es generalizing s with
  | nil => simp [entered, writes]
  | cons e es ih =>
    cases e with
    | nothing =>
      rw [entered, writes, ih, List.mem_cons]
      exact or_congr_left (or_iff_right nofun).symm
    | enter u =>
      rw [entered, writes, List.mem_cons, List.mem_cons, ih, Event.enter.injEq, or_assoc]
    | write k b =>
      rw [entered, writes, List.mem_cons, List.mem_cons, ih]
      simp only [List.mem_cons, Prod.mk.injEq, reduceCtorEq, false_or]
      apply Iff.intro
      · rintro (rfl | h | ⟨k', b', h⟩)
        · exact .inr ⟨k, b, .inl ⟨⟨rfl, rfl⟩, rfl⟩⟩
        · exact .inl h
        · exact .inr ⟨k', b', .inr h⟩
      · rintro (h | ⟨k', b', ⟨⟨rfl, -⟩, -⟩ | h⟩)
        · exact .inr (.inl h)
        · exact .inl rfl
        · exact .inr (.inr ⟨k', b', h⟩)

variable [DecidableEq σ] [DecidableEq κ]

/-- The last write is the last event that writes to the key while its place is the current one. -/
theorem lastWrite_writes {s t : σ} {k : κ} {b : β} {es : List (Event σ κ β)} :
    lastWrite (writes s es) (t, k) = some b ↔ ∃ a c, es = a ++ .write k b :: c ∧
      current s a = t ∧ ∀ b' a' c', c = a' ++ .write k b' :: c' → current t a' ≠ t := by
  rw [lastWrite_eq_some_iff]
  simp only [writes_eq_append_iff]
  apply Iff.intro
  · rintro ⟨-, -, ⟨a, c, he, hcur, rfl, rfl⟩, hafter⟩
    refine ⟨a, c, he, hcur, fun b' a' c' hc hcur' => ?_⟩
    exact hafter b' (mem_writes.mpr ⟨a', c', hc, hcur'⟩)
  · rintro ⟨a, c, he, hcur, hafter⟩
    refine ⟨_, _, ⟨a, c, he, hcur, rfl, rfl⟩, fun b' hm => ?_⟩
    obtain ⟨a', c', hc, hcur'⟩ := mem_writes.mp hm
    exact hafter b' a' c' hc hcur'

/-- A map for each place that is there. -/
abbrev Store (σ κ β : Type) := σ → Option (κ → Option β)

def Store.enter (m : Store σ κ β) (s : σ) : Store σ κ β :=
  Function.update m s (some ((m s).getD fun _ => none))

def Store.write (m : Store σ κ β) (s : σ) (k : κ) (b : β) : Store σ κ β :=
  Function.update m s (some (Function.update ((m s).getD fun _ => none) k (some b)))

def step (m : Store σ κ β) (s : σ) : Event σ κ β → Store σ κ β
  | .nothing => m
  | .enter t => m.enter t
  | .write k b => m.write s k b

/-- The store after the events. -/
def run (m : Store σ κ β) (s : σ) : List (Event σ κ β) → Store σ κ β
  | [] => m
  | e :: es => run (step m s e) (e.next s) es

/-- The places that were entered, each with the last writes in it. -/
def seen (s : σ) (es : List (Event σ κ β)) : Store σ κ β := fun t =>
  if t ∈ entered s es then some fun k => lastWrite (writes s es) (t, k) else none

theorem seen_eq_none {s t : σ} {es : List (Event σ κ β)} (h : t ∉ entered s es) (k : κ) :
    lastWrite (writes s es) (t, k) = none :=
  lastWrite_eq_none fun b hm => h (mem_entered.mpr (.inr ⟨k, b, hm⟩))

theorem seen_bind (s t : σ) (k : κ) (es : List (Event σ κ β)) :
    (seen s es t).bind (· k) = lastWrite (writes s es) (t, k) := by
  rw [seen]
  split_ifs with h
  · rfl
  · exact (seen_eq_none h k).symm

theorem seen_getD (s t : σ) (es : List (Event σ κ β)) :
    ((seen s es t).getD fun _ => none) = fun k => lastWrite (writes s es) (t, k) := by
  rw [seen]
  split_ifs with h
  · rfl
  · funext k
    exact (seen_eq_none h k).symm

/-- One event more is one step more. -/
theorem seen_concat (s : σ) (es : List (Event σ κ β)) (e : Event σ κ β) :
    seen s (es ++ [e]) = step (seen s es) (current s es) e := by
  have hw := writes_append s es [e]
  have he := entered_append s es [e]
  cases e with
  | nothing =>
    rw [writes, writes, List.append_nil] at hw
    rw [entered, entered, List.append_nil] at he
    funext t
    rw [seen, hw, he]
    rfl
  | enter u =>
    rw [writes, writes, List.append_nil] at hw
    rw [entered, entered] at he
    funext t
    rw [seen, hw, he, step, Store.enter, seen_getD]
    by_cases ht : t = u
    · rw [if_pos (by simp [ht]), ht, Function.update_self]
    · rw [Function.update_of_ne ht, seen]
      simp [ht]
  | write k b =>
    rw [writes, writes] at hw
    rw [entered, entered] at he
    funext t
    rw [seen, hw, he, step, Store.write, seen_getD]
    simp only [lastWrite_append, lastWrite_single, Prod.mk.injEq]
    by_cases ht : t = current s es
    · rw [if_pos (by simp [ht]), ht, Function.update_self, Option.some.injEq]
      funext j
      by_cases hj : j = k
      · simp [hj]
      · simp [hj]
    · rw [Function.update_of_ne ht, seen]
      simp [ht]

theorem run_concat (m : Store σ κ β) (s : σ) (es : List (Event σ κ β)) (e : Event σ κ β) :
    run m s (es ++ [e]) = step (run m s es) (current s es) e := by
  induction es generalizing m s with
  | nil => rfl
  | cons e' es ih => exact ih (step m s e') (e'.next s)

/-- What is in the store in the end are the last writes. -/
theorem run_eq_seen (s : σ) (es : List (Event σ κ β)) : run (fun _ => none) s es = seen s es := by
  induction es using List.reverseRecOn with
  | nil => rfl
  | append_singleton es e ih => rw [run_concat, ih, seen_concat]

theorem seen_nothing (s : σ) (a c : List (Event σ κ β)) :
    seen s (a ++ .nothing :: c) = seen s (a ++ c) := by
  have hw : writes s (a ++ .nothing :: c) = writes s (a ++ c) := by
    rw [writes_append, writes_append, writes]
  have he : entered s (a ++ .nothing :: c) = entered s (a ++ c) := by
    rw [entered_append, entered_append, entered]
  funext t
  rw [seen, seen, hw, he]

/-- Another value for one write changes the store exactly where no later write covers it. -/
theorem seen_replace {s : σ} {a c : List (Event σ κ β)} {k : κ} {b b' : β} :
    seen s (a ++ .write k b :: c) = seen s (a ++ .write k b' :: c) ↔ b = b' ∨
      ∃ d a' c', c = a' ++ .write k d :: c' ∧ current (current s a) a' = current s a := by
  have hw : ∀ x, writes s (a ++ .write k x :: c) =
      writes s a ++ ((current s a, k), x) :: writes (current s a) c :=
    fun x => writes_append s a (.write k x :: c)
  have he : ∀ x, entered s (a ++ .write k x :: c) =
      entered s a ++ current s a :: entered (current s a) c :=
    fun x => entered_append s a (.write k x :: c)
  have hmem : (∃ d a' c', c = a' ++ .write k d :: c' ∧ current (current s a) a' = current s a) ↔
      ∃ d, ((current s a, k), d) ∈ writes (current s a) c := by
    simp only [mem_writes]
  rw [hmem]
  apply Iff.intro
  · intro h
    by_contra hno
    obtain ⟨hne, hlater⟩ := not_or.mp hno
    have hlast : ∀ x, lastWrite (writes s (a ++ .write k x :: c)) (current s a, k) = some x := by
      intro x
      rw [hw]
      exact lastWrite_eq_some_iff.mpr ⟨_, _, rfl, fun d hd => hlater ⟨d, hd⟩⟩
    have hx := hlast b
    rw [← seen_bind, h, seen_bind, hlast] at hx
    exact hne (Option.some.inj hx).symm
  · intro h
    funext t
    rw [seen, seen, hw, hw, he, he]
    simp only [lastWrite_replace h]

end SpiderSearch.LastWriter
