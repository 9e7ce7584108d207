import SpiderSearch.Coverage

namespace SpiderSearch.Distance

open CppTypes Tables DbClient DoWork Runs CrawlLoop WorkerPool PoolLock PoolRefines WebCrawl Layers
  LinkDepth BreadthFirst Coverage
open SpiderSearch.LoneWorker (twoVisits)

variable {server : Server} {web : Web} {start : Str} {d : Nat}

/-- No page is taken with more depth left than its distance from the start leaves. -/
theorem dept_le_of_nearest {item : TqueueItem} {k : Nat} (ha : AtLevel web start d item)
    (hv : Nearest (Follows web) k start item.url) : item.dept ≤ d - k := by
  obtain ⟨j, hj, hdept, hw⟩ := ha
  have hkj : k ≤ j := by
    by_contra hlt
    cases hw' : hv.1 with
    | refl => omega
    | snoc _ he => exact hv.2 j (by omega) (walk_follows hw he.2).2
  omega

/-- Among links that stand by depth the first one to a page is as deep as any. -/
theorem find_deepest {items : List TqueueItem} (hd : Descending items) {item : TqueueItem}
    (hi : item ∈ items) (hle : ∀ q ∈ items, q.url = item.url → q.dept ≤ item.dept) :
    items.find? (fun q => q.url = item.url) = some item := by
  cases hf : items.find? (fun q => q.url = item.url) with
  | none =>
    have hn := List.find?_eq_none.mp hf item hi
    simp at hn
  | some first =>
    obtain ⟨hurl, before, after, rfl, hbefore⟩ := List.find?_eq_some_iff_append.mp hf
    have hurl' : first.url = item.url := of_decide_eq_true hurl
    have hge : item.dept ≤ first.dept := by
      obtain hm | hm := List.mem_append.mp hi
      · have hn := hbefore item hm
        simp at hn
      · obtain rfl | hm := List.mem_cons.mp hm
        · exact Int.le_refl _
        · rw [Descending, List.map_append, List.pairwise_append] at hd
          exact Descending.le_head hd.2.1 hm
    have hle' := hle first (by simp) hurl'
    have hdept : first.dept = item.dept := by omega
    obtain ⟨url, dept⟩ := first
    obtain rfl : url = item.url := hurl'
    obtain rfl : dept = item.dept := hdept
    rfl

/-- A crawl that is drained has taken every page within its depth at the distance of the page. -/
theorem taken_of_nearest (hurl : SameUrl web start) (hans : FindUrlSucceeds server web start)
    {ts : List Turn} {c : Loop Database}
    (h : run (CrawlLoop.step (webEnv server web) ⟨start, d⟩) (.initial .empty) ts = some c)
    (hs : c.started = true) (hq : c.globals.queue = []) (hstage : c.stage = none) {k : Nat}
    (hk : k ≤ d) {v : Str} (hv : Nearest (Follows web) k start v) :
    ⟨v, d - k⟩ ∈ c.globals.popped := by
  have hh := history_run h
  have hpop : c.globals.pushed = c.globals.popped := by rw [hh.pushed, hq, List.append_nil]
  have hstart := start_pushed h hs
  rw [hpop] at hstart
  by_cases hp : Parses web start
  · have ht : c.globals.terminated = false := by
      cases htc : c.globals.terminated with
      | false => rfl
      | true => exact absurd hstage ((Sequential.tracks_run h).stage htc)
    have hx := explored_of_drained hh (levels_run h) (expanded_run hurl hans h ht) hstage hq
      (start_pushed h hs) hp
    obtain ⟨-, -, ⟨url, dept⟩, hm, rfl, hdept⟩ := hx.nearest hk hv
    have hm' : (⟨url, dept⟩ : TqueueItem) ∈ c.globals.popped := by
      rw [hh.processed]
      exact List.mem_append_left _ hm
    rwa [show dept = d - k from hdept] at hm'
  · cases hv.1 with
    | refl => simpa using hstart
    | snoc hw he =>
      exact absurd (walk_follows ((hw.mono fun _ _ => And.left).snoc he.1) he.2).1 hp

/-- The first time a page is taken it is taken at its distance from the start. -/
theorem first_taken (server : Server) (web : Web) (start : Str) (d : Nat) (hurl : SameUrl web start)
    (hans : FindUrlSucceeds server web start) (n : Nat) (as : List (Thread n)) (s : Pool n Database)
    (h : run (WorkerPool.step (webEnv server web) ⟨start, d⟩) (.initial n .empty) as = some s)
    (hp : s.pushed = true) (hq : s.globals.queue = []) (hquiet : s.Quiet) (k : Nat) (hk : k ≤ d)
    (v : Str) (hv : Nearest (Follows web) k start v) :
    s.globals.popped.find? (fun item => item.url = v) = some ⟨v, d - k⟩ := by
  obtain ⟨ts, hr⟩ := core_run h
  have hm := taken_of_nearest hurl hans hr hp hq (core_stage_of_quiet hquiet) hk hv
  obtain ⟨e, hlay⟩ := layered_run hr
  have hle : ∀ q ∈ s.globals.popped, q.url = v → q.dept ≤ d - k := by
    intro q hqm hqv
    have ha := (levels_run hr).pushed q ((history_run hr).popped_subset hqm)
    exact dept_le_of_nearest ha (by rwa [hqv])
  exact find_deepest hlay.popped hm hle

theorem twoPages_distance : ∃ s,
    run (WorkerPool.step (webEnv strict twoPages) home) (.initial 1 .empty) twoVisits = some s ∧
    s.globals.popped.find? (fun item => item.url = second) = some ⟨second, 0⟩ := by
  obtain ⟨db, -, hr⟩ := twoPages_run
  have hnear : Nearest (Follows twoPages) 1 home.url second := by
    refine ⟨.snoc (.refl _) ⟨?_, ?_⟩, fun j hj hw => ?_⟩
    · simp [Links, subLinks, twoPages]
    · exact ⟨second, AddLink.oneWord, [], by simp [twoPages, second_ne_home]⟩
    · obtain rfl : j = 0 := by omega
      cases hw
  refine ⟨_, hr, first_taken strict twoPages home.url 1 twoPages_same twoPages_findUrl 1 twoVisits _ hr
    rfl rfl (fun i st hl => ?_) 1 (Nat.le_refl 1) second hnear⟩
  cases hl

end SpiderSearch.Distance
