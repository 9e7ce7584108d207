import SpiderSearch.CrawlLoop

namespace SpiderSearch.Sequential

open CppTypes DoWork Runs CrawlLoop

variable {σ : Type}

def pushUnseen (env : Env σ) (work : TqueueItem) (g : Globals σ) : List Str → Option (Globals σ)
  | [] => some g
  | subLink :: rest =>
    match env.findUrl g.world subLink with
    | none => none
    | some (true, w) => pushUnseen env work { g with world := w } rest
    | some (false, w) =>
      pushUnseen env work (Globals.push { g with world := w } ⟨subLink, work.dept - 1⟩) rest

def parse (env : Env σ) (work : TqueueItem) (g : Globals σ) : Option (Globals σ) :=
  match env.visit g.world work.url with
  | .thrown _ => none
  | .rejected w => some { g with world := w }
  | .parsed w subLinks =>
    if work.dept > 0 then pushUnseen env work { g with world := w } subLinks
    else some { g with world := w }

def record (work : TqueueItem) (g : Globals σ) : Globals σ :=
  { g with processed := g.processed ++ [work] }

/-- One turn of `while (!queue.empty()) { pop; parse; push the unseen sub-links }` in one
thread, `none` when the queue is empty or a call throws. -/
def iteration (env : Env σ) (g : Globals σ) : Option (Globals σ) :=
  match g.queue with
  | [] => none
  | work :: rest =>
    (parse env work { g with queue := rest, popped := g.popped ++ [work] }).map (record work)

def loop (env : Env σ) : Nat → Globals σ → Option (Globals σ)
  | 0, g => some g
  | k + 1, g => (loop env k g).bind (iteration env)

/-- What is left of the current turn. -/
def finish (env : Env σ) (g : Globals σ) : Option Stage → Option (Globals σ)
  | none => some g
  | some (.visit work) => (parse env work g).map (record work)
  | some (.findUrl work subLink rest) => (pushUnseen env work g (subLink :: rest)).map (record work)
  | some (.push work subLink rest) =>
    (pushUnseen env work (g.push ⟨subLink, work.dept - 1⟩) rest).map (record work)
  | some (.unlock work) => some (record work g)

theorem finish_forSubLinks (env : Env σ) (work : TqueueItem) (g : Globals σ) (links : List Str) :
    finish env g (some (forSubLinks work links)) =
      (pushUnseen env work g links).map (record work) := by
  cases links <;> rfl

/-- A step of `body` leaves the outcome of the turn as it was, unless it ends the process. -/
theorem BodyStep.finish_eq {env : Env σ} {g g' : Globals σ} {st : Stage} {next : Option Stage}
    (h : BodyStep env g st g' next) (ht : g'.terminated = false) :
    finish env g' next = finish env g (some st) := by
  cases h with
  | thrown work w h => simp at ht
  | rejected work w h => simp [finish, parse, h]
  | expand work w links h hd =>
    rw [finish_forSubLinks]
    simp [finish, parse, h, hd]
  | leaf work w links h hd => simp [finish, parse, h, Int.not_lt.mpr hd]
  | failed work link rest h => simp at ht
  | known work link rest w h =>
    rw [finish_forSubLinks]
    simp [finish, pushUnseen, h]
  | unknown work link rest w h => simp [finish, pushUnseen, h]
  | push work link rest => rw [finish_forSubLinks, finish]
  | unlock work => rfl

theorem BodyStep.popped_eq {env : Env σ} {g g' : Globals σ} {st : Stage} {next : Option Stage}
    (h : BodyStep env g st g' next) : g'.popped = g.popped := by
  cases h <;> rfl

def seeded (world : σ) (start : TqueueItem) : Globals σ := (Globals.initial world).push start

/-- The small steps of the loop agree with its turns: as many turns as links were popped, the
last of them still to be finished. -/
structure Tracks (env : Env σ) (start : TqueueItem) (world : σ) (c : Loop σ) : Prop where
  fresh : c.started = false → c = .initial world
  turn : c.started = true → c.globals.terminated = false →
    finish env c.globals c.stage = loop env c.globals.popped.length (seeded world start)
  stage : c.globals.terminated = true → c.stage ≠ none

theorem tracks_initial (env : Env σ) (start : TqueueItem) (world : σ) :
    Tracks env start world (.initial world) :=
  ⟨fun _ => rfl, nofun, nofun⟩

theorem tracks_step {env : Env σ} {start : TqueueItem} {world : σ} {c c' : Loop σ}
    (hi : Tracks env start world c) (ht : c.globals.terminated = false)
    (h : LoopStep env start c c') : Tracks env start world c' := by
  cases h with
  | seed hs =>
    obtain rfl := hi.fresh hs
    exact ⟨fun h => by simp at h, fun _ _ => rfl, fun h => by cases h⟩
  | pop work rest hs hq =>
    have hc : c.started = true := by
      cases hst : c.started with
      | true => rfl
      | false =>
        rw [hi.fresh hst] at hq
        cases hq
    refine ⟨fun h => by simp [hc] at h, fun _ _ => ?_, fun h => by simp [ht] at h⟩
    have hf := hi.turn hc ht
    rw [hs, Sequential.finish] at hf
    rw [List.length_append, List.length_singleton, loop, ← hf]
    simp [iteration, hq, Sequential.finish]
  | body st g next hs hb =>
    have hc : c.started = true := by
      cases hst : c.started with
      | true => rfl
      | false =>
        rw [hi.fresh hst] at hs
        cases hs
    refine ⟨fun h => by simp [hc] at h, fun _ hg => ?_, fun hg => ?_⟩
    · have hf := hi.turn hc ht
      rw [hs] at hf
      rw [BodyStep.finish_eq hb hg, BodyStep.popped_eq hb, hf]
    · cases hb <;> simp_all

theorem tracks_run {env : Env σ} {start : TqueueItem} {world : σ} {ts : List Turn} {c : Loop σ}
    (h : run (step env start) (.initial world) ts = some c) : Tracks env start world c := by
  refine run_invariant (fun c t c' hi hs => ?_) (tracks_initial env start world) h
  refine tracks_step hi ?_ (step_cases hs)
  cases ht : c.globals.terminated with
  | false => rfl
  | true => simp [step, ht] at hs

/-- Between two turns the loop stands exactly where its turns have led it. -/
theorem loop_of_run {env : Env σ} {start : TqueueItem} {world : σ} {ts : List Turn} {c : Loop σ}
    (h : run (step env start) (.initial world) ts = some c) (hs : c.started = true)
    (hq : c.stage = none) :
    loop env c.globals.popped.length (seeded world start) = some c.globals := by
  have hi := tracks_run h
  have ht : c.globals.terminated = false := by
    cases ht : c.globals.terminated with
    | false => rfl
    | true => exact absurd hq (hi.stage ht)
  rw [← hi.turn hs ht, hq, Sequential.finish]

theorem loop_add (env : Env σ) (j k : Nat) (g : Globals σ) :
    loop env (j + k) g = (loop env j g).bind (loop env k) := by
  induction k with
  | zero => simp [loop]
  | succ k ih =>
    rw [← Nat.add_assoc, loop, ih]
    cases h : loop env j g <;> simp [loop]

theorem loop_of_queue_nil (env : Env σ) {g g' : Globals σ} (hg : g.queue = []) {k : Nat}
    (h : loop env k g = some g') : g' = g := by
  cases k with
  | zero => exact (Option.some.inj h).symm
  | succ k =>
    have hn : loop env 1 g = none := by simp [loop, iteration, hg]
    rw [Nat.add_comm, loop_add, hn] at h
    cases h

theorem loop_drained_unique (env : Env σ) {g g₁ g₂ : Globals σ} {k₁ k₂ : Nat}
    (h₁ : loop env k₁ g = some g₁) (h₂ : loop env k₂ g = some g₂)
    (hq₁ : g₁.queue = []) (hq₂ : g₂.queue = []) : g₁ = g₂ := by
  obtain ⟨k, rfl⟩ | ⟨k, rfl⟩ := (Nat.le_total k₁ k₂).imp Nat.exists_eq_add_of_le Nat.exists_eq_add_of_le
  · rw [loop_add, h₁, Option.bind_some] at h₂
    exact (loop_of_queue_nil env hq₁ h₂).symm
  · rw [loop_add, h₂, Option.bind_some] at h₁
    exact loop_of_queue_nil env hq₂ h₁

end SpiderSearch.Sequential
