import SpiderSearch.StoredRows
import SpiderSearch.Triples

namespace SpiderSearch.DbSession

open CppTypes Tables Triples

/-- A connection with its transaction object: `work` is what the open transaction sees and is
`none` once it is committed. After `cut` more statements execution stops. -/
structure Session where
  committed : Database
  work : Option Database
  cut : Option Nat

abbrev DbM (α : Type) := Prog Session SqlError α

/-- Every statement may be the one at which execution fails or stops. -/
def statement : DbM Unit := do
  match (← get).cut with
  | none => pure ()
  | some 0 => throw .stopped
  | some (k + 1) => modify fun s => { s with cut := some k }

/-- A query on a connection of its own sees the committed tables. -/
def query {α : Type} (q : Database → Except SqlError α) : DbM α := do
  statement
  match q (← get).committed with
  | .ok a => pure a
  | .error e => throw e

/-- `pqxx::work transact{ conn }`. -/
def beginWork : DbM Unit := do
  statement
  modify fun s => { s with work := some s.committed }

/-- `transact.exec_params`. After the commit the statement runs outside the transaction and
commits on its own. -/
def execParams (insert : Database → Except SqlError Database) : DbM Unit := do
  statement
  let s ← get
  match insert (s.work.getD s.committed) with
  | .error e => throw e
  | .ok db => set (if s.work.isSome then { s with work := some db } else { s with committed := db })

/-- `transact.commit()`. A second commit does nothing. -/
def commit : DbM Unit := do
  statement
  modify fun s => { s with committed := s.work.getD s.committed, work := none }

/-- The committed tables after the program has run, or has been cut off, on `db`. An open
transaction is lost. -/
def tablesAfter {α : Type} (x : DbM α) (db : Database) (cut : Option Nat) : Database :=
  (exec x ⟨db, none, cut⟩).2.committed

def completes {α : Type} (x : DbM α) (db : Database) (cut : Option Nat) : Bool :=
  match (exec x ⟨db, none, cut⟩).1 with
  | .ok _ => true
  | .error _ => false

@[simp] theorem exec_statement_none (c : Database) (w : Option Database) :
    exec statement ⟨c, w, none⟩ = (.ok (), ⟨c, w, none⟩) := rfl

@[simp] theorem exec_statement_zero (c : Database) (w : Option Database) :
    exec statement ⟨c, w, some 0⟩ = (.error .stopped, ⟨c, w, some 0⟩) := rfl

@[simp] theorem exec_statement_succ (c : Database) (w : Option Database) (k : Nat) :
    exec statement ⟨c, w, some (k + 1)⟩ = (.ok (), ⟨c, w, some k⟩) := rfl

theorem exec_query_uncut {α : Type} {q : Database → Except SqlError α} {a : α} {c : Database}
    (h : q c = .ok a) (w : Option Database) :
    exec (query q) ⟨c, w, none⟩ = (.ok a, ⟨c, w, none⟩) := by
  simp [query, exec_bind, h]

theorem exec_execParams_uncut {insert : Database → Except SqlError Database} {c c' : Database}
    (h : insert c = .ok c') :
    exec (execParams insert) ⟨c, none, none⟩ = (.ok (), ⟨c', none, none⟩) := by
  simp [execParams, exec_bind, h]

theorem exec_commit_uncut (c : Database) (w : Option Database) :
    exec commit ⟨c, w, none⟩ = (.ok (), ⟨w.getD c, none, none⟩) := by
  simp [commit, exec_bind]

variable {α : Type} {P E : Database → Option Database → Prop}

/-- A condition on the tables that does not look at the number of statements left. -/
abbrev Holds (P : Database → Option Database → Prop) (s : Session) : Prop := P s.committed s.work

theorem statement_triple (h : ∀ c w, P c w → E c w) :
    Triple (Holds P) statement (fun _ => Holds P) (Holds E) := by
  intro s hs
  cases hc : s.cut with
  | none => simpa [statement, exec_bind, hc] using hs
  | some k =>
    cases k with
    | zero => simpa [statement, exec_bind, hc] using h _ _ hs
    | succ k => simpa [statement, exec_bind, hc] using hs

theorem query_triple {q : Database → Except SqlError α} (h : ∀ c w, P c w → E c w) :
    Triple (Holds P) (query q) (fun a s => Holds P s ∧ q s.committed = .ok a) (Holds E) := by
  refine Triple.bind (statement_triple h) fun _ s hs => ?_
  rw [exec_bind, exec_get]
  cases hq : q s.committed with
  | ok a => simpa [hq] using hs
  | error e => simpa [hq] using h _ _ hs

theorem beginWork_triple {Q : Database → Option Database → Prop} (h : ∀ c w, P c w → E c w)
    (hq : ∀ c w, P c w → Q c (some c)) :
    Triple (Holds P) beginWork (fun _ => Holds Q) (Holds E) :=
  Triple.bind (statement_triple h) fun _ s hs => hq s.committed s.work hs

theorem execParams_triple {Q : Database → Option Database → Prop}
    {f : Database → Except SqlError Database} (h : ∀ c w, P c w → E c w)
    (hopen : ∀ c w db, P c (some w) → f w = .ok db → Q c (some db))
    (hclosed : ∀ c db, P c none → f c = .ok db → Q db none) :
    Triple (Holds P) (execParams f) (fun _ => Holds Q) (Holds E) := by
  refine Triple.bind (statement_triple h) fun _ s hs => ?_
  obtain ⟨c, w, cut⟩ := s
  rw [exec_bind, exec_get]
  cases w with
  | none =>
    cases hi : f c with
    | ok db => simpa [hi] using hclosed c db hs hi
    | error e => simpa [hi] using h c none hs
  | some w =>
    cases hi : f w with
    | ok db => simpa [hi] using hopen c w db hs hi
    | error e => simpa [hi] using h c (some w) hs

theorem commit_triple {Q : Database → Option Database → Prop} (h : ∀ c w, P c w → E c w)
    (hq : ∀ c w, P c w → Q (w.getD c) none) :
    Triple (Holds P) commit (fun _ => Holds Q) (Holds E) :=
  Triple.bind (statement_triple h) fun _ s hs => hq s.committed s.work hs

theorem tablesAfter_of_triple {x : DbM α} {Q : α → Session → Prop}
    {R : Database → Prop} (h : Triple (Holds P) x Q (Holds fun c _ => R c))
    (hq : ∀ a s, Q a s → R s.committed) {db : Database} (hp : P db none) (cut : Option Nat) :
    R (tablesAfter x db cut) := by
  have hx := h ⟨db, none, cut⟩ hp
  rw [tablesAfter]
  cases hr : exec x ⟨db, none, cut⟩ with
  | mk r t =>
    rw [hr] at hx
    cases r with
    | ok a => exact hq a t hx
    | error e => exact hx

theorem tablesAfter_of_completes {x : DbM α} {Q : α → Session → Prop}
    {E : Session → Prop} {R : Database → Prop} (h : Triple (Holds P) x Q E)
    (hq : ∀ a s, Q a s → R s.committed) {db : Database} (hp : P db none) {cut : Option Nat}
    (hc : completes x db cut = true) : R (tablesAfter x db cut) := by
  rw [completes] at hc
  rw [tablesAfter]
  cases hr : exec x ⟨db, none, cut⟩ with
  | mk r t =>
    rw [hr] at hc
    cases r with
    | ok a => exact hq a t (h.ok (s := ⟨db, none, cut⟩) hp hr)
    | error e => simp at hc

section AtMost

variable {β : Type}

/-- The program executes at most `k` statements: where it may execute these and `j` others, it does
what it does uncut. -/
def AtMost (k : Nat) (x : DbM α) : Prop := ∀ c w j, ∃ r c' w' j',
  exec x ⟨c, w, some (k + j)⟩ = (r, ⟨c', w', some (j + j')⟩) ∧
    exec x ⟨c, w, none⟩ = (r, ⟨c', w', none⟩)

theorem AtMost.mono {k l : Nat} {x : DbM α} (h : AtMost k x) (hkl : k ≤ l) : AtMost l x := by
  intro c w j
  obtain ⟨r, c', w', j', hcut, huncut⟩ := h c w (l - k + j)
  refine ⟨r, c', w', l - k + j', ?_, huncut⟩
  rw [show l + j = k + (l - k + j) by omega, hcut, show l - k + j + j' = j + (l - k + j') by omega]

theorem atMost_pure (a : α) : AtMost 0 (pure a : DbM α) := fun c w j =>
  ⟨.ok a, c, w, 0, by simp, rfl⟩

theorem AtMost.bind {k l : Nat} {x : DbM α} {f : α → DbM β} (hx : AtMost k x)
    (hf : ∀ a, AtMost l (f a)) : AtMost (k + l) (x >>= f) := by
  intro c w j
  obtain ⟨r, c', w', j', hcut, huncut⟩ := hx c w (l + j)
  rw [exec_bind, exec_bind, Nat.add_assoc, hcut, huncut]
  cases r with
  | error e => exact ⟨.error e, c', w', l + j', by rw [show l + j + j' = j + (l + j') by omega], rfl⟩
  | ok a =>
    obtain ⟨r', c'', w'', j'', hcut', huncut'⟩ := hf a c' w' (j + j')
    refine ⟨r', c'', w'', j' + j'', ?_, huncut'⟩
    dsimp only
    rw [Nat.add_assoc l, hcut', Nat.add_assoc]

theorem atMost_statement : AtMost 1 statement := fun c w j =>
  ⟨.ok (), c, w, 0, by rw [Nat.add_comm 1 j, exec_statement_succ, Nat.add_zero], rfl⟩

theorem atMost_query (q : Database → Except SqlError α) : AtMost 1 (query q) := by
  refine atMost_statement.bind (l := 0) fun _ c w j => ?_
  cases hq : q c with
  | ok a => exact ⟨.ok a, c, w, 0, by simp [exec_bind, hq], by simp [exec_bind, hq]⟩
  | error e => exact ⟨.error e, c, w, 0, by simp [exec_bind, hq], by simp [exec_bind, hq]⟩

theorem atMost_beginWork : AtMost 1 beginWork :=
  atMost_statement.bind (l := 0) fun _ c _ _ => ⟨.ok (), c, some c, 0, by simp, rfl⟩

theorem atMost_execParams (insert : Database → Except SqlError Database) :
    AtMost 1 (execParams insert) := by
  refine atMost_statement.bind (l := 0) fun _ c w j => ?_
  cases hi : insert (w.getD c) with
  | error e => exact ⟨.error e, c, w, 0, by simp [exec_bind, hi], by simp [exec_bind, hi]⟩
  | ok db =>
    cases w with
    | none => exact ⟨.ok (), db, none, 0, by simp_all [exec_bind], by simp_all [exec_bind]⟩
    | some d => exact ⟨.ok (), c, some db, 0, by simp_all [exec_bind], by simp_all [exec_bind]⟩

theorem atMost_commit : AtMost 1 commit :=
  atMost_statement.bind (l := 0) fun _ c w _ => ⟨.ok (), w.getD c, none, 0, by simp, rfl⟩

/-- From there on it makes no difference how many statements are left. -/
theorem AtMost.tablesAfter_eq {k : Nat} {x : DbM α} (h : AtMost k x) (db : Database) {j : Nat}
    (hj : k ≤ j) : tablesAfter x db (some j) = tablesAfter x db none := by
  obtain ⟨r, c', w', j', hcut, huncut⟩ := h db none (j - k)
  rw [Nat.add_sub_cancel' hj] at hcut
  rw [tablesAfter, tablesAfter, hcut, huncut]

end AtMost

end SpiderSearch.DbSession
