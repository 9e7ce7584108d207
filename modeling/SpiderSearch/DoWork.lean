import SpiderSearch.CppTypes

namespace SpiderSearch.DoWork

open CppTypes

section SafeQueue

variable {T : Type}

/-- The member functions of `Safe_Queue` act on its `works`. Each runs under the queue's own
mutex, so each is one atomic step; `pop` is `none` where the caller waits. -/
def SafeQueue.push (works : List T) (work : T) : List T := works ++ [work]

def SafeQueue.pop : List T → Option (T × List T)
  | [] => none
  | work :: works => some (work, works)

def SafeQueue.empty (works : List T) : Bool := works.isEmpty

end SafeQueue

structure TqueueItem where
  url : Str
  dept : Int
  deriving DecidableEq

/-- How `HTML_Parser parser(db, url)` followed by `parser.parse()` ends, with the state the
database and the web are left in: an exception leaves the worker, `false`, or `true` with
`getSubLinks()`. -/
inductive Visit (σ : Type) where
  | thrown (world : σ)
  | rejected (world : σ)
  | parsed (world : σ) (subLinks : List Str)

/-- The database and the web when the visit is over. -/
def Visit.world {σ : Type} : Visit σ → σ
  | .thrown world | .rejected world | .parsed world _ => world

/-- The database and the web as a worker meets them. `findUrl` is `none` when it throws. -/
structure Env (σ : Type) where
  visit : σ → Str → Visit σ
  findUrl : σ → Str → Option (Bool × σ)

/-- What the threads of the crawler share. `terminated` is set when an exception leaves a
thread, which ends the process. The last three lists record the run and are never read. -/
structure Globals (σ : Type) where
  queue : List TqueueItem
  world : σ
  terminated : Bool
  pushed : List TqueueItem
  popped : List TqueueItem
  processed : List TqueueItem
  deriving DecidableEq

/-- Where a worker stands between its `pop` and its `unlock`. -/
inductive Stage where
  | visit (work : TqueueItem)
  | findUrl (work : TqueueItem) (subLink : Str) (rest : List Str)
  | push (work : TqueueItem) (subLink : Str) (rest : List Str)
  | unlock (work : TqueueItem)
  deriving DecidableEq

def Stage.work : Stage → TqueueItem
  | .visit work | .findUrl work _ _ | .push work _ _ | .unlock work => work

variable {σ : Type}

def Globals.initial (world : σ) : Globals σ := ⟨[], world, false, [], [], []⟩

def Globals.push (g : Globals σ) (item : TqueueItem) : Globals σ :=
  { g with queue := SafeQueue.push g.queue item, pushed := g.pushed ++ [item] }

def Globals.pop (g : Globals σ) : Option (TqueueItem × Globals σ) :=
  (SafeQueue.pop g.queue).map fun (work, works) =>
    (work, { g with queue := works, popped := g.popped ++ [work] })

/-- `for (auto& subLink : parser.getSubLinks())`. -/
def forSubLinks (work : TqueueItem) : List Str → Stage
  | [] => .unlock work
  | subLink :: rest => .findUrl work subLink rest

/-- The next step of a worker that has popped `work`; no stage is left after `lock.unlock()`. -/
def body (env : Env σ) (g : Globals σ) : Stage → Globals σ × Option Stage
  | .visit work =>
    match env.visit g.world work.url with
    -- the exception leaves the thread function and ends the process
    | .thrown w => ({ g with world := w, terminated := true }, some (.visit work))
    | .rejected w => ({ g with world := w }, some (.unlock work))
    | .parsed w subLinks =>
      ({ g with world := w },
        some (if work.dept > 0 then forSubLinks work subLinks else .unlock work))
  | .findUrl work subLink rest =>
    match env.findUrl g.world subLink with
    | none => ({ g with terminated := true }, some (.findUrl work subLink rest))
    | some (true, w) => ({ g with world := w }, some (forSubLinks work rest))
    | some (false, w) => ({ g with world := w }, some (.push work subLink rest))
  | .push work subLink rest =>
    (g.push ⟨subLink, work.dept - 1⟩, some (forSubLinks work rest))
  | .unlock work => ({ g with processed := g.processed ++ [work] }, none)

/-- The cases of `body`. -/
inductive BodyStep (env : Env σ) (g : Globals σ) : Stage → Globals σ → Option Stage → Prop
  | thrown (work : TqueueItem) (w : σ) (h : env.visit g.world work.url = .thrown w) :
      BodyStep env g (.visit work) { g with world := w, terminated := true } (some (.visit work))
  | rejected (work : TqueueItem) (w : σ) (h : env.visit g.world work.url = .rejected w) :
      BodyStep env g (.visit work) { g with world := w } (some (.unlock work))
  | expand (work : TqueueItem) (w : σ) (subLinks : List Str)
      (h : env.visit g.world work.url = .parsed w subLinks) (hd : 0 < work.dept) :
      BodyStep env g (.visit work) { g with world := w } (some (forSubLinks work subLinks))
  | leaf (work : TqueueItem) (w : σ) (subLinks : List Str)
      (h : env.visit g.world work.url = .parsed w subLinks) (hd : work.dept ≤ 0) :
      BodyStep env g (.visit work) { g with world := w } (some (.unlock work))
  | failed (work : TqueueItem) (subLink : Str) (rest : List Str)
      (h : env.findUrl g.world subLink = none) :
      BodyStep env g (.findUrl work subLink rest) { g with terminated := true }
        (some (.findUrl work subLink rest))
  | known (work : TqueueItem) (subLink : Str) (rest : List Str) (w : σ)
      (h : env.findUrl g.world subLink = some (true, w)) :
      BodyStep env g (.findUrl work subLink rest) { g with world := w }
        (some (forSubLinks work rest))
  | unknown (work : TqueueItem) (subLink : Str) (rest : List Str) (w : σ)
      (h : env.findUrl g.world subLink = some (false, w)) :
      BodyStep env g (.findUrl work subLink rest) { g with world := w }
        (some (.push work subLink rest))
  | push (work : TqueueItem) (subLink : Str) (rest : List Str) :
      BodyStep env g (.push work subLink rest) (g.push ⟨subLink, work.dept - 1⟩)
        (some (forSubLinks work rest))
  | unlock (work : TqueueItem) :
      BodyStep env g (.unlock work) { g with processed := g.processed ++ [work] } none

@[simp] theorem visit_work (work : TqueueItem) : (Stage.visit work).work = work := rfl

@[simp] theorem findUrl_work (work : TqueueItem) (link : Str) (rest : List Str) :
    (Stage.findUrl work link rest).work = work := rfl

@[simp] theorem push_work (work : TqueueItem) (link : Str) (rest : List Str) :
    (Stage.push work link rest).work = work := rfl

@[simp] theorem unlock_work (work : TqueueItem) : (Stage.unlock work).work = work := rfl

@[simp] theorem forSubLinks_work (work : TqueueItem) (links : List Str) :
    (forSubLinks work links).work = work := by
  cases links <;> rfl

theorem forSubLinks_ne_push (work : TqueueItem) (links : List Str) (work' : TqueueItem)
    (subLink : Str) (rest : List Str) : forSubLinks work links ≠ .push work' subLink rest := by
  cases links <;> simp [forSubLinks]

theorem body_step (env : Env σ) (g : Globals σ) (st : Stage) :
    BodyStep env g st (body env g st).1 (body env g st).2 := by
  cases st with
  | visit work =>
    cases h : env.visit g.world work.url with
    | thrown w => simpa only [body, h] using BodyStep.thrown work w h
    | rejected w => simpa only [body, h] using BodyStep.rejected work w h
    | parsed w links =>
      by_cases hd : 0 < work.dept
      · simpa only [body, h, gt_iff_lt, hd, if_true] using BodyStep.expand work w links h hd
      · simpa only [body, h, gt_iff_lt, hd, if_false] using
          BodyStep.leaf work w links h (Int.not_lt.mp hd)
  | findUrl work link rest =>
    cases h : env.findUrl g.world link with
    | none => simpa only [body, h] using BodyStep.failed work link rest h
    | some r =>
      obtain ⟨b, w⟩ := r
      cases b with
      | false => simpa only [body, h] using BodyStep.unknown work link rest w h
      | true => simpa only [body, h] using BodyStep.known work link rest w h
  | push work link rest => exact .push work link rest
  | unlock work => exact .unlock work

theorem BodyStep.body_eq {env : Env σ} {g g' : Globals σ} {st : Stage} {next : Option Stage}
    (h : BodyStep env g st g' next) : body env g st = (g', next) := by
  cases h with
  | expand work w links h hd => simp [body, h, hd]
  | leaf work w links h hd => simp [body, h, Int.not_lt.mpr hd]
  | push work link rest => rfl
  | unlock work => rfl
  | _ => simp [body, *]

/-- A worker keeps its link until it unlocks. -/
theorem BodyStep.work_eq {env : Env σ} {g g' : Globals σ} {st st' : Stage}
    (h : BodyStep env g st g' (some st')) : st'.work = st.work := by
  cases h <;> simp

theorem Globals.forall_pushed {g : Globals σ} {item : TqueueItem} {P : TqueueItem → Prop}
    (hg : ∀ p ∈ g.pushed, P p) (hitem : P item) : ∀ p ∈ (g.push item).pushed, P p := by
  rw [Globals.push, List.forall_mem_append, List.forall_mem_singleton]
  exact ⟨hg, hitem⟩

theorem Globals.pop_eq_some {g g' : Globals σ} {work : TqueueItem}
    (h : g.pop = some (work, g')) :
    ∃ rest, g.queue = work :: rest ∧ g' = { g with queue := rest, popped := g.popped ++ [work] } := by
  cases hq : g.queue with
  | nil => simp [Globals.pop, hq, SafeQueue.pop] at h
  | cons item rest =>
    simp only [Globals.pop, hq, SafeQueue.pop, Option.map_some, Option.some.injEq,
      Prod.mk.injEq] at h
    obtain ⟨rfl, rfl⟩ := h
    exact ⟨rest, rfl, rfl⟩

end SpiderSearch.DoWork
