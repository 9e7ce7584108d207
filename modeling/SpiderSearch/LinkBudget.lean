import Mathlib.Algebra.BigOperators.Ring.Finset
import Mathlib.Algebra.GroupWithZero.Nat
import SpiderSearch.BreadthFirst

namespace SpiderSearch.LinkBudget

open CppTypes DoWork Runs CrawlLoop WorkerPool PoolLock PoolRefines

variable {σ : Type} {n : Nat} {env : Env σ} {start : TqueueItem} {b : Nat}

/-- The links of a complete tree of the given depth in which a page has `b` links. -/
def tree (b : Nat) : Nat → Nat
  | 0 => 1
  | d + 1 => 1 + b * tree b d

/-- The links that may be queued below a link with `dept` left. -/
def below (b : Nat) (dept : Int) : Nat := if 0 < dept then b * tree b (dept - 1).toNat else 0

def stageBudget (b : Nat) : Stage → Nat
  | .visit work => below b work.dept
  | .findUrl work _ rest | .push work _ rest => (rest.length + 1) * tree b (work.dept - 1).toNat
  | .unlock _ => 0

/-- The links that may still be queued. -/
def budget (b : Nat) (c : Loop σ) : Nat :=
  (c.globals.queue.map fun item => below b item.dept).sum + (c.stage.map (stageBudget b)).getD 0

theorem tree_eq (b d : Nat) : tree b d = ∑ i ∈ Finset.range (d + 1), b ^ i := by
  induction d with
  | zero => simp [tree]
  | succ d ih =>
    rw [tree, ih, Finset.sum_range_succ' _ (d + 1), Finset.mul_sum, Nat.add_comm]
    simp only [pow_zero, pow_succ']

theorem tree_below (b : Nat) (dept : Int) : tree b dept.toNat = 1 + below b dept := by
  rw [below]
  split_ifs with hd
  · have he : dept.toNat = (dept - 1).toNat + 1 := by omega
    rw [he, tree]
  · have he : dept.toNat = 0 := by omega
    rw [he, tree]

@[simp] theorem stageBudget_visit (b : Nat) (work : TqueueItem) :
    stageBudget b (.visit work) = below b work.dept := rfl

@[simp] theorem stageBudget_findUrl (b : Nat) (work : TqueueItem) (subLink : Str) (rest : List Str) :
    stageBudget b (.findUrl work subLink rest) =
      (rest.length + 1) * tree b (work.dept - 1).toNat := rfl

@[simp] theorem stageBudget_push (b : Nat) (work : TqueueItem) (subLink : Str) (rest : List Str) :
    stageBudget b (.push work subLink rest) =
      (rest.length + 1) * tree b (work.dept - 1).toNat := rfl

@[simp] theorem stageBudget_unlock (b : Nat) (work : TqueueItem) :
    stageBudget b (.unlock work) = 0 := rfl

@[simp] theorem stageBudget_forSubLinks (b : Nat) (work : TqueueItem) (links : List Str) :
    stageBudget b (forSubLinks work links) = links.length * tree b (work.dept - 1).toNat := by
  cases links with
  | nil => simp [forSubLinks, stageBudget]
  | cons link rest => rfl

/-- A step of the loop body queues no link that its budget has not set aside. -/
theorem body_budget {g g' : Globals σ} {st : Stage} {next : Option Stage}
    (hb : ∀ w url w' links, env.visit w url = .parsed w' links → links.length ≤ b)
    (h : BodyStep env g st g' next) :
    g'.pushed.length + ((g'.queue.map fun item => below b item.dept).sum +
        (next.map (stageBudget b)).getD 0) ≤
      g.pushed.length + ((g.queue.map fun item => below b item.dept).sum + stageBudget b st) := by
  cases h with
  | thrown | failed => exact Nat.le_refl _
  | rejected work | leaf work | unlock work => simp
  | expand work w subLinks h hd =>
    have hle := Nat.mul_le_mul_right (tree b (work.dept - 1).toNat) (hb _ _ _ _ h)
    simp only [Option.map_some, Option.getD_some, stageBudget_forSubLinks, stageBudget_visit]
    rw [below.eq_def b work.dept, if_pos hd]
    omega
  | known work subLink rest w h =>
    simp only [Option.map_some, Option.getD_some, stageBudget_forSubLinks, stageBudget_findUrl,
      Nat.add_mul]
    omega
  | unknown work subLink rest w h => exact Nat.le_refl _
  | push work subLink rest =>
    have ht := tree_below b (work.dept - 1)
    simp only [Globals.push, SafeQueue.push, List.length_append, List.length_singleton,
      List.map_append, List.sum_append, List.map_singleton, List.sum_singleton, Option.map_some,
      Option.getD_some, stageBudget_forSubLinks, stageBudget_push, Nat.add_mul]
    omega

/-- What has been queued and what may still be queued fits into the tree of the start link. -/
theorem budget_step {c c' : Loop σ}
    (hb : ∀ w url w' links, env.visit w url = .parsed w' links → links.length ≤ b)
    (hh : History c)
    (hi : c.started = true → c.globals.pushed.length + budget b c ≤ tree b start.dept.toNat)
    (h : LoopStep env start c c') :
    c'.started = true → c'.globals.pushed.length + budget b c' ≤ tree b start.dept.toNat := by
  intro hs
  cases h with
  | seed hfresh =>
    obtain ⟨hstage, hpushed⟩ := hh.fresh hfresh
    have hqueue : c.globals.queue = [] := by
      have hp := hh.pushed
      rw [hpushed] at hp
      exact (List.append_eq_nil_iff.mp hp.symm).2
    simp [budget, Globals.push, SafeQueue.push, hpushed, hqueue, hstage, tree_below]
  | pop work rest hstage hq =>
    have hle := hi hs
    simp only [budget, hstage, hq, List.map_cons, List.sum_cons, Option.map_none, Option.map_some,
      Option.getD_none, Option.getD_some, stageBudget_visit] at hle ⊢
    omega
  | body st g next hstage hbody =>
    have hle := hi hs
    have hstep := body_budget hb hbody
    simp only [budget, hstage, Option.map_some, Option.getD_some] at hle ⊢
    omega

/-- Where no page has more than `b` links, no run queues, and so downloads, more links than a
complete tree of the depth of the crawl has. -/
theorem pushed_le_tree (env : Env σ) (start : TqueueItem) (b : Nat)
    (hb : ∀ w url w' links, env.visit w url = .parsed w' links → links.length ≤ b) (world : σ)
    (n : Nat) (as : List (Thread n)) (s : Pool n σ)
    (h : run (WorkerPool.step env start) (.initial n world) as = some s) :
    s.globals.popped.length ≤ s.globals.pushed.length ∧
      s.globals.pushed.length ≤ ∑ i ∈ Finset.range (start.dept.toNat + 1), b ^ i := by
  obtain ⟨ts, hr⟩ := core_run h
  have hh := history_run hr
  have hp : s.globals.pushed = s.globals.popped ++ s.globals.queue := hh.pushed
  refine ⟨by rw [hp, List.length_append]; omega, ?_⟩
  have hbudget := run_reachable
    (I := fun c : Loop σ => c.started = true →
      c.globals.pushed.length + budget b c ≤ tree b start.dept.toNat)
    (fun ts c t c' hc hi hst => budget_step hb (history_run hc) hi (CrawlLoop.step_cases hst)) nofun hr
  rw [← tree_eq]
  cases hs : (core s).started with
  | false =>
    rw [show s.globals.pushed = [] from (hh.fresh hs).2]
    exact Nat.zero_le _
  | true => exact (Nat.le_add_right _ _).trans (hbudget hs)

open BreadthFirst (halfExpanded) in
theorem halfExpanded_pushed : ∃ s, run (WorkerPool.step fork ⟨home.url, 2⟩) (.initial 1 ())
    halfExpanded = some s ∧ s.globals.pushed.length = 4 ∧ s.globals.pushed.length ≤ 1 + 2 + 4 := by
  refine ⟨_, rfl, rfl, (pushed_le_tree fork ⟨home.url, 2⟩ 2 ?_ () 1 halfExpanded _ rfl).2⟩
  intro w url w' links h
  cases h
  exact Nat.le_refl 2

end SpiderSearch.LinkBudget
