import Mathlib.Tactic.Abel
import SpiderSearch.Descent
import SpiderSearch.PoolRefines

namespace SpiderSearch.Termination

open CppTypes DoWork WorkerPool PoolLock Descent Multiset

variable {σ : Type} {n : Nat} {env : Env σ} {start : TqueueItem}

/-- What a queued link of the given depth may still cause, as an element of a multiset. -/
def queued (dept : Int) : Nat := 4 * dept.toNat + 7

def links (work : TqueueItem) (rest : List Str) : Multiset Nat :=
  replicate rest.length (queued (work.dept - 1) + 2)

/-- The elements below 4 are left for a worker that is outside the loop body. -/
def stageWeight : Stage → Multiset Nat
  | .visit work => {4 * work.dept.toNat + 6}
  | .findUrl work _ rest => (queued (work.dept - 1) + 2) ::ₘ 4 ::ₘ links work rest
  | .push work _ rest => (queued (work.dept - 1) + 1) ::ₘ 4 ::ₘ links work rest
  | .unlock _ => {4}

def nextWeight : Option Stage → Multiset Nat
  | some st => stageWeight st
  | none => {3}

def pcWeight : Pc → Multiset Nat
  | .absent | .left => 0
  | .empty => {3}
  | .lock => {2}
  | .pop => {1}
  | .locked st => stageWeight st

def mainWeight (n : Nat) (start : TqueueItem) : MainPc → Multiset Nat
  | .creating k => (queued start.dept + 1) ::ₘ replicate (n - k) 4
  | .joining k => replicate (n - k + 1) 0
  | .done => 0

def queueWeight (items : List TqueueItem) : Multiset Nat :=
  (items.map fun item => queued item.dept : List Nat)

def globalsWeight (g : Globals σ) : Multiset Nat :=
  (if g.terminated then 0 else {0}) + queueWeight g.queue

def weight (start : TqueueItem) (s : Pool n σ) : Multiset Nat :=
  globalsWeight s.globals + mainWeight n start s.main + ∑ i, pcWeight (s.pc i)

theorem queueWeight_push (items : List TqueueItem) (item : TqueueItem) :
    queueWeight (SafeQueue.push items item) = queued item.dept ::ₘ queueWeight items := by
  rw [queueWeight, SafeQueue.push, List.map_append, ← coe_add, add_comm]
  rfl

theorem queueWeight_cons (item : TqueueItem) (items : List TqueueItem) :
    queueWeight (item :: items) = queued item.dept ::ₘ queueWeight items := rfl

theorem globalsWeight_push (g : Globals σ) (item : TqueueItem) :
    globalsWeight (g.push item) = queued item.dept ::ₘ globalsWeight g := by
  rw [globalsWeight, Globals.push, queueWeight_push, add_cons]
  rfl

theorem stageWeight_forSubLinks (work : TqueueItem) (subLinks : List Str) :
    stageWeight (forSubLinks work subLinks) = 4 ::ₘ links work subLinks := by
  cases subLinks with
  | nil => rfl
  | cons link rest =>
    rw [forSubLinks, stageWeight, links, links, List.length_cons, replicate_succ, cons_swap]

/-- A page that is expanded lies one level above the links found on it. -/
theorem links_lt_visit {work : TqueueItem} (hd : 0 < work.dept) (subLinks : List Str) :
    ∀ y ∈ 4 ::ₘ links work subLinks, y < 4 * work.dept.toNat + 6 := by
  intro y hy
  obtain rfl | hy := mem_cons.mp hy
  · omega
  · obtain rfl := eq_of_mem_replicate hy
    rw [queued]
    omega

/-- Every step of the loop body makes the multiset smaller. -/
theorem body_descends {g g' : Globals σ} {st : Stage} {next : Option Stage}
    (h : BodyStep env g st g' next) (ht : g.terminated = false) :
    IsDershowitzMannaLT (globalsWeight g' + nextWeight next) (globalsWeight g + stageWeight st) := by
  have alive : globalsWeight g = 0 ::ₘ queueWeight g.queue := by simp [globalsWeight, ht]
  have ended : ∀ w : σ, globalsWeight { g with world := w, terminated := true } =
      queueWeight g.queue := by
    intro w
    simp [globalsWeight]
  have same : ∀ w : σ, globalsWeight { g with world := w } = globalsWeight g := fun w => rfl
  cases h with
  | thrown work w h =>
    rw [ended, alive, cons_add]
    exact dershowitzManna_erase 0 _
  | failed work link rest h =>
    rw [ended g.world, alive, cons_add]
    exact dershowitzManna_erase 0 _
  | rejected work w h =>
    rw [same]
    exact dershowitzManna_add_left _ (dershowitzManna_singleton (by simp [nextWeight, stageWeight]))
  | expand work w subLinks h hd =>
    rw [same, nextWeight, stageWeight_forSubLinks]
    exact dershowitzManna_add_left _ (dershowitzManna_singleton (links_lt_visit hd subLinks))
  | leaf work w subLinks h hd =>
    rw [same]
    exact dershowitzManna_add_left _ (dershowitzManna_singleton (by simp [nextWeight, stageWeight]))
  | known work link rest w h =>
    rw [same, nextWeight, stageWeight_forSubLinks]
    exact dershowitzManna_add_left _ (dershowitzManna_erase _ _)
  | unknown work link rest w h =>
    rw [same]
    refine dershowitzManna_add_left _ ?_
    rw [nextWeight, stageWeight, stageWeight, ← singleton_add]
    exact dershowitzManna_cons (by simp)
  | push work link rest =>
    rw [globalsWeight_push, nextWeight, stageWeight_forSubLinks, stageWeight, cons_add, ← add_cons]
    refine dershowitzManna_add_left _ ?_
    rw [← singleton_add]
    exact dershowitzManna_cons (by simp)
  | unlock work =>
    exact dershowitzManna_add_left _ (dershowitzManna_singleton (by simp [nextWeight]))

/-- A worker that moves leaves the other workers' elements alone. -/
theorem weight_lt_goto {s : Pool n σ} (i : Fin n) (p : Pc) (g : Globals σ) (m : MainPc)
    (o : Option (Fin n))
    (h : IsDershowitzMannaLT (mainWeight n start m + (globalsWeight g + pcWeight p))
      (mainWeight n start s.main + (globalsWeight s.globals + pcWeight (s.pc i)))) :
    IsDershowitzMannaLT (weight start ⟨g, o, (s.goto i p).pc, m⟩) (weight start s) := by
  obtain ⟨R, hs, hu⟩ := sum_update_split pcWeight s.pc i
  have before : weight start s =
      R + (mainWeight n start s.main + (globalsWeight s.globals + pcWeight (s.pc i))) := by
    rw [weight, hs]
    abel
  have after : weight start ⟨g, o, (s.goto i p).pc, m⟩ =
      R + (mainWeight n start m + (globalsWeight g + pcWeight p)) := by
    rw [weight]
    simp only [Pool.goto, hu]
    abel
  rw [before, after]
  exact dershowitzManna_add_left R h

theorem weight_lt_main {s : Pool n σ} (g : Globals σ) (m : MainPc)
    (h : IsDershowitzMannaLT (globalsWeight g + mainWeight n start m)
      (globalsWeight s.globals + mainWeight n start s.main)) :
    IsDershowitzMannaLT (weight start { s with globals := g, main := m }) (weight start s) :=
  dershowitzManna_add_right _ h

theorem mainWeight_creating {k : Nat} (h : k < n) :
    mainWeight n start (.creating k) = 4 ::ₘ mainWeight n start (.creating (k + 1)) := by
  rw [mainWeight, mainWeight, cons_swap, ← replicate_succ]
  congr 2
  omega

theorem mainWeight_joining {k : Nat} (h : k < n) :
    mainWeight n start (.joining k) = 0 ::ₘ mainWeight n start (.joining (k + 1)) := by
  rw [mainWeight, mainWeight, ← replicate_succ]
  congr 1
  omega

theorem pool_descends {s t : Pool n σ} {a : Thread n} (ht : s.globals.terminated = false)
    (h : PoolStep env start s a t) : IsDershowitzMannaLT (weight start t) (weight start s) := by
  cases h with
  | create k hm hk =>
    refine weight_lt_goto ⟨k, hk⟩ .empty s.globals (.creating (k + 1)) s.mutex ?_
    rw [hm, mainWeight_creating hk]
    refine ⟨mainWeight n start (.creating (k + 1)) + globalsWeight s.globals, {3},
      4 ::ₘ pcWeight (s.pc ⟨k, hk⟩), cons_ne_zero, ?_, ?_, by simp⟩
    · exact (add_assoc _ _ _).symm
    · rw [cons_add, add_cons, add_assoc]
  | seed k hm hk =>
    refine weight_lt_main _ (.joining 0) ?_
    rw [hm, globalsWeight_push, mainWeight, mainWeight, Nat.sub_eq_zero_of_le hk, cons_add,
      ← add_cons]
    refine dershowitzManna_add_left _ (dershowitzManna_singleton fun y hy => ?_)
    obtain rfl | hy := mem_cons.mp hy
    · exact Nat.lt_succ_self _
    · rw [eq_of_mem_replicate hy]
      exact Nat.succ_pos _
  | join k hm hk hl =>
    refine weight_lt_main s.globals (.joining (k + 1)) ?_
    rw [hm, mainWeight_joining hk]
    exact dershowitzManna_add_left _ (dershowitzManna_erase 0 _)
  | exit k hm hk =>
    refine weight_lt_main s.globals .done ?_
    rw [hm, mainWeight, mainWeight, Nat.sub_eq_zero_of_le hk]
    exact dershowitzManna_add_left _ (dershowitzManna_erase 0 0)
  | leave i hi hq =>
    refine weight_lt_goto i .left s.globals s.main s.mutex ?_
    rw [hi]
    exact dershowitzManna_add_left _ (dershowitzManna_add_left _ (dershowitzManna_erase 3 0))
  | enter i hi hq =>
    refine weight_lt_goto i .lock s.globals s.main s.mutex ?_
    rw [hi]
    exact dershowitzManna_add_left _ (dershowitzManna_add_left _
      (dershowitzManna_singleton (by simp [pcWeight])))
  | acquire i hi hm =>
    refine weight_lt_goto i .pop s.globals s.main (some i) ?_
    rw [hi]
    exact dershowitzManna_add_left _ (dershowitzManna_add_left _
      (dershowitzManna_singleton (by simp [pcWeight])))
  | pop i work rest hi hq =>
    refine weight_lt_goto i _ { s.globals with queue := rest, popped := s.globals.popped ++ [work] }
      s.main s.mutex (dershowitzManna_add_left _ ?_)
    rw [hi, globalsWeight, globalsWeight, hq, queueWeight_cons, add_assoc, add_assoc, cons_add]
    refine dershowitzManna_add_left _ ?_
    rw [← add_cons]
    have hlt : ∀ y ∈ pcWeight (.locked (.visit work)), y < queued work.dept := by
      simp [pcWeight, stageWeight, queued]
    exact dershowitzManna_add_left _ (dershowitzManna_of_lt hlt _)
  | body i st st' g hi hb =>
    refine weight_lt_goto i _ g s.main s.mutex (dershowitzManna_add_left _ ?_)
    rw [hi]
    exact body_descends hb ht
  | unlock i st g hi hb =>
    refine weight_lt_goto i _ g s.main none (dershowitzManna_add_left _ ?_)
    rw [hi]
    exact body_descends hb ht

theorem pushUnseen_queue {work : TqueueItem} {g g' : Globals σ} {subLinks : List Str}
    (h : Sequential.pushUnseen env work g subLinks = some g') :
    ∃ items, g'.queue = g.queue ++ items ∧ ∀ p ∈ items, p.dept = work.dept - 1 := by
  induction subLinks generalizing g with
  | nil =>
    cases h
    exact ⟨[], by simp, nofun⟩
  | cons link rest ih =>
    rw [Sequential.pushUnseen] at h
    split at h
    · cases h
    · have hr := ih h
      exact hr
    · obtain ⟨items, hq, hd⟩ := ih h
      refine ⟨⟨link, work.dept - 1⟩ :: items, ?_, ?_⟩
      · rw [hq, Globals.push, SafeQueue.push, List.append_assoc]
        rfl
      · intro p hp
        obtain rfl | hp := List.mem_cons.mp hp
        · rfl
        · exact hd p hp

/-- A turn replaces the link it takes by links of the next level only. -/
theorem iteration_queue {g g' : Globals σ} (h : Sequential.iteration env g = some g') :
    ∃ work rest items, g.queue = work :: rest ∧ g'.queue = rest ++ items ∧
      ∀ p ∈ items, 0 < work.dept ∧ p.dept = work.dept - 1 := by
  rw [Sequential.iteration] at h
  split at h
  · cases h
  next work rest hq =>
    obtain ⟨g₁, hp, rfl⟩ := Option.map_eq_some_iff.mp h
    rw [Sequential.parse] at hp
    split at hp
    · cases hp
    · cases hp
      exact ⟨work, rest, [], hq, by simp [Sequential.record], List.forall_mem_nil _⟩
    · split at hp
      next hd =>
        obtain ⟨items, hi, he⟩ := pushUnseen_queue hp
        exact ⟨work, rest, items, hq, hi, fun p hm => ⟨hd, he p hm⟩⟩
      · cases hp
        exact ⟨work, rest, [], hq, by simp [Sequential.record], List.forall_mem_nil _⟩

theorem iteration_descends {g g' : Globals σ} (h : Sequential.iteration env g = some g') :
    IsDershowitzMannaLT (queueWeight g'.queue) (queueWeight g.queue) := by
  obtain ⟨work, rest, items, hq, hq', hi⟩ := iteration_queue h
  have hsum : queueWeight g'.queue = queueWeight items + queueWeight rest := by
    rw [hq', queueWeight, List.map_append, ← coe_add, add_comm]
    rfl
  rw [hsum, hq, queueWeight_cons]
  refine dershowitzManna_cons fun y hy => ?_
  obtain ⟨p, hp, rfl⟩ := List.mem_map.mp (mem_coe.mp hy)
  obtain ⟨hd, he⟩ := hi p hp
  rw [queued, queued, he]
  omega

/-- Neither the turns of the loop nor the steps of the pool go on forever, whatever the web and
the database answer at each of them. -/
theorem crawl_terminates (σ : Type) (env : Nat → Env σ) :
    (∀ g : Nat → Globals σ, ¬ ∀ k, Sequential.iteration (env k) (g k) = some (g (k + 1))) ∧
    (∀ (start : TqueueItem) (n : Nat) (s : Nat → Pool n σ) (a : Nat → Thread n),
      ¬ ∀ k, step (env k) start (s k) (a k) = some (s (k + 1))) := by
  apply And.intro
  · intro g h
    exact no_infinite_descent (fun k => queueWeight (g k).queue) fun k => iteration_descends (h k)
  · intro start n s a h
    refine no_infinite_descent (fun k => weight start (s k)) fun k => ?_
    obtain ⟨ht, hs⟩ := step_cases (h k)
    exact pool_descends ht hs

end SpiderSearch.Termination
