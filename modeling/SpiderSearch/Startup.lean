import SpiderSearch.ConnectionString
import SpiderSearch.RequestText

namespace SpiderSearch.Startup

open CppTypes DbClient IniFile LastWriter IniView ConnectionString
open IniSettings (ValueError readWord get_value get_value_dot)
open RequestText (skipSign)

/-- A thrown object: a pointer to a text, which is destroyed by then, or a `std::exception`. -/
inductive Thrown where
  | pointer (text : Str)
  | exception (what : Str)

/-- What ends the `try` block of `main` early. -/
inductive Failure where
  | ini (e : IniError)
  | value (e : ValueError)
  | standard (what : Str)

def Failure.text : Failure → Str
  | .ini e => e.text
  | .value e => e.text
  | .standard what => what

/-- The configuration throws `a.data()`. -/
def Failure.thrown : Failure → Thrown
  | .ini e => .pointer e.text
  | .value e => .pointer e.text
  | .standard what => .exception what

def Failure.FromIni : Failure → Prop
  | .ini _ | .value _ => True
  | .standard _ => False

/-- How the process ends; with `EXIT_FAILURE` a text has been printed. -/
inductive Exit where
  | success
  | failure (printed : Str)
  | terminated

inductive Program where
  | crawler
  | server

/-- What the handler prints. -/
def Program.report : Program → Str → Str
  | .crawler, what => what ++ str "\n"
  | .server, what => str "Error: " ++ what ++ str "\n"

/-- The database, and the rest of the two `try` blocks; a text is the `what()` of an exception. -/
structure Env where
  connect : Str → Except Str Unit
  crawl : Str → Int → Str → Except Str Exit
  serve : Nat → Str → Except Str Exit

def isDigit (c : UInt8) : Bool := 48 ≤ c && c ≤ 57

def ofDecimal (digits : Str) : Nat := digits.foldl (fun n c => 10 * n + (c.toNat - 48)) 0

/-- `std::stoi`. -/
def stoi (s : Str) : Except Failure Int :=
  let t := skipSign (s.dropWhile isSpace)
  let digits := t.2.takeWhile isDigit
  if digits = [] then .error (.standard (str "invalid stoi argument"))
  else
    let x : Int := if t.1 then -ofDecimal digits else ofDecimal digits
    if intMin ≤ x ∧ x ≤ intMax then .ok x
    else .error (.standard (str "stoi argument out of range"))

def getValue (values : MyINI) (sectionAndItem : Str) : Except Failure Str :=
  (get_value values sectionAndItem).mapError .value

/-- The `try` block of the crawler. -/
def crawler (env : Env) (file : Option Str) : Except Failure Exit := do
  let ini_file ← (new (str "../config.ini") file).mapError .ini
  let start_page ← getValue ini_file (str "Client.start_page")
  let depth ← getValue ini_file (str "Client.recursion_depth")
  let recursion_depth ← stoi depth
  let host ← getValue ini_file (str "DataBase.bd_host")
  let port ← getValue ini_file (str "DataBase.bd_port")
  let name ← getValue ini_file (str "DataBase.bd_name")
  let user ← getValue ini_file (str "DataBase.bd_user")
  let password ← getValue ini_file (str "DataBase.bd_pass")
  let connectionString := createConnectionString ⟨host, port, name, user, password⟩
  (env.connect connectionString).mapError .standard
  (env.crawl start_page recursion_depth connectionString).mapError .standard

/-- The `try` block of the server. -/
def server (env : Env) (file : Option Str) : Except Failure Exit := do
  let ini_file ← (new (str "../config.ini") file).mapError .ini
  let host ← getValue ini_file (str "DataBase.bd_host")
  let name ← getValue ini_file (str "DataBase.bd_name")
  let dbPort ← getValue ini_file (str "DataBase.bd_port")
  let user ← getValue ini_file (str "DataBase.bd_user")
  let pass ← getValue ini_file (str "DataBase.bd_pass")
  let connectionString := createConnectionString ⟨host, dbPort, name, user, pass⟩
  (env.connect connectionString).mapError .standard
  let server_port ← getValue ini_file (str "Server.server_port")
  let port ← stoi server_port
  (env.serve (port % 65536).toNat connectionString).mapError .standard

def body : Program → Env → Option Str → Except Failure Exit
  | .crawler => crawler
  | .server => server

/-- `catch (const std::exception& e)`; a pointer is not caught. -/
def main (program : Program) (env : Env) (file : Option Str) : Exit :=
  match body program env file with
  | .ok exit => exit
  | .error f =>
    match f.thrown with
    | .exception what => .failure (program.report what)
    | .pointer _ => .terminated

/-- A failure of the configuration is printed by the handler. -/
def Reported (program : Program) (env : Env) (file : Option Str) : Prop :=
  ∀ f, body program env file = .error f → f.FromIni →
    main program env file = .failure (program.report f.text)

/-- The first word of the value that the text assigns last. -/
def setting (text : Str) (S k : Str) : Option Str :=
  (lastWrite (writes [] ((lines text).map event)) (S, k)).bind readWord

/-- The text has the settings of the database. -/
structure Configures (text : Str) (db : DB_Client) : Prop where
  host : setting text (str "DataBase") (str "bd_host") = some db.DBHost
  port : setting text (str "DataBase") (str "bd_port") = some db.DBPort
  name : setting text (str "DataBase") (str "bd_name") = some db.DBName
  user : setting text (str "DataBase") (str "bd_user") = some db.DBUser
  password : setting text (str "DataBase") (str "bd_pass") = some db.DBPassword

/-- The text has every setting that the program comes to read. -/
def HasSettings (env : Env) (text : Str) : Program → Prop
  | .crawler => (setting text (str "Client") (str "start_page")).isSome ∧
      ∃ depth, setting text (str "Client") (str "recursion_depth") = some depth ∧
        ∀ n, stoi depth = .ok n → ∃ db, Configures text db
  | .server => ∃ db, Configures text db ∧
      (env.connect (createConnectionString db) = .ok () →
        (setting text (str "Server") (str "server_port")).isSome)

/-- The file can be read, and no setting is missed. -/
def Complete (program : Program) (env : Env) (file : Option Str) : Prop :=
  ∃ text, file = some text ∧ (∀ line ∈ lines text, ¬ Rejected line) ∧ HasSettings env text program

/-- A computation that does not fail in the given way. -/
def Avoids {ε α : Type} (P : ε → Prop) (x : Except ε α) : Prop := ∀ e, x = .error e → ¬ P e

theorem avoids_error {ε α : Type} {P : ε → Prop} {e : ε} :
    Avoids P (.error e : Except ε α) ↔ ¬ P e := by
  apply Iff.intro
  · intro h
    exact h e rfl
  · intro h e' he
    rwa [← Except.error.inj he]

theorem avoids_ok {ε α : Type} {P : ε → Prop} (a : α) : Avoids P (.ok a : Except ε α) := nofun

theorem avoids_bind {ε α β : Type} {P : ε → Prop} {x : Except ε α} {f : α → Except ε β} :
    Avoids P (x >>= f) ↔ Avoids P x ∧ ∀ a, x = .ok a → Avoids P (f a) := by
  cases x with
  | error e =>
    have he : Avoids P ((.error e : Except ε α) >>= f) ↔ ¬ P e := avoids_error
    rw [he, avoids_error]
    exact (and_iff_left nofun).symm
  | ok a =>
    rw [and_iff_right (avoids_ok a)]
    apply Iff.intro
    · rintro h b hb
      cases hb
      exact h
    · intro h
      exact h a rfl

theorem avoids_standard {α : Type} (x : Except Str α) :
    Avoids Failure.FromIni (x.mapError .standard) := by
  cases x with
  | ok a => exact avoids_ok a
  | error what => exact avoids_error.mpr not_false

theorem avoids_stoi (s : Str) : Avoids Failure.FromIni (stoi s) := by
  rw [stoi]
  dsimp only
  split_ifs
  · exact avoids_error.mpr not_false
  · exact avoids_ok _
  · exact avoids_error.mpr not_false
  · exact avoids_ok _
  · exact avoids_error.mpr not_false

/-- A failure of the configuration is always a pointer, so that it is not reported. -/
theorem reported_iff_avoids (program : Program) (env : Env) (file : Option Str) :
    Reported program env file ↔ Avoids Failure.FromIni (body program env file) := by
  apply Iff.intro
  · intro h f hf hini
    have hr := h f hf hini
    rw [main, hf] at hr
    cases f with
    | ini e | value e => cases hr
    | standard what => exact hini
  · intro h f hf hini
    exact absurd hini (h f hf)

theorem avoids_getValue {values : MyINI} {sectionAndItem : Str} :
    Avoids Failure.FromIni (getValue values sectionAndItem) ↔
      ∃ v, get_value values sectionAndItem = .ok v := by
  rw [getValue]
  cases get_value values sectionAndItem with
  | error e =>
    refine iff_of_false (fun h => avoids_error.mp h trivial) ?_
    rintro ⟨v, hv⟩
    cases hv
  | ok v => exact iff_of_true (avoids_ok v) ⟨v, rfl⟩

/-- What is looked up under the name is the setting of the text. -/
def Reads (values : MyINI) (text sectionAndItem S k : Str) : Prop :=
  ∀ v, get_value values sectionAndItem = .ok v ↔ setting text S k = some v

theorem reads_setting {fileName text : Str} {values : MyINI}
    (h : new fileName (some text) = .ok values) {sectionAndItem S k : Str}
    (hname : sectionAndItem = S ++ str "." ++ k) (hS : ch '.' ∉ S ∧ S.length < npos) :
    Reads values text sectionAndItem S k := by
  intro v
  rw [hname, get_value_dot hS.1 hS.2, ← view_bind, ((new_ok_iff _ _ _).mp h).2, seen_bind, setting]

/-- The names that the programs look up. -/
structure ReadsAll (values : MyINI) (text : Str) : Prop where
  start_page : Reads values text (str "Client.start_page") (str "Client") (str "start_page")
  recursion_depth : Reads values text (str "Client.recursion_depth") (str "Client")
    (str "recursion_depth")
  bd_host : Reads values text (str "DataBase.bd_host") (str "DataBase") (str "bd_host")
  bd_port : Reads values text (str "DataBase.bd_port") (str "DataBase") (str "bd_port")
  bd_name : Reads values text (str "DataBase.bd_name") (str "DataBase") (str "bd_name")
  bd_user : Reads values text (str "DataBase.bd_user") (str "DataBase") (str "bd_user")
  bd_pass : Reads values text (str "DataBase.bd_pass") (str "DataBase") (str "bd_pass")
  server_port : Reads values text (str "Server.server_port") (str "Server") (str "server_port")

theorem readsAll {fileName text : Str} {values : MyINI}
    (h : new fileName (some text) = .ok values) : ReadsAll values text := by
  have hclient : ch '.' ∉ str "Client" ∧ (str "Client").length < npos := by decide
  have hdata : ch '.' ∉ str "DataBase" ∧ (str "DataBase").length < npos := by decide
  have hserver : ch '.' ∉ str "Server" ∧ (str "Server").length < npos := by decide
  exact {
    start_page := reads_setting h (by decide) hclient
    recursion_depth := reads_setting h (by decide) hclient
    bd_host := reads_setting h (by decide) hdata
    bd_port := reads_setting h (by decide) hdata
    bd_name := reads_setting h (by decide) hdata
    bd_user := reads_setting h (by decide) hdata
    bd_pass := reads_setting h (by decide) hdata
    server_port := reads_setting h (by decide) hserver }

/-- A read goes well where the text has the setting. -/
theorem avoids_read {values : MyINI} {text sectionAndItem S k : Str}
    (h : Reads values text sectionAndItem S k) {α : Type} {f : Str → Except Failure α} :
    Avoids Failure.FromIni (getValue values sectionAndItem >>= f) ↔
      ∃ v, setting text S k = some v ∧ Avoids Failure.FromIni (f v) := by
  have hok : ∀ v, getValue values sectionAndItem = .ok v ↔ setting text S k = some v := by
    intro v
    rw [← h v, getValue]
    cases get_value values sectionAndItem with
    | error e => exact iff_of_false nofun nofun
    | ok w => rw [Except.mapError, Except.ok.injEq, Except.ok.injEq]
  rw [avoids_bind, avoids_getValue]
  simp only [h _, hok]
  apply Iff.intro
  · rintro ⟨⟨v, hv⟩, hf⟩
    exact ⟨v, hv, hf v hv⟩
  · rintro ⟨v, hv, hf⟩
    refine ⟨⟨v, hv⟩, fun w hw => ?_⟩
    rw [hv] at hw
    rwa [← Option.some.inj hw]

theorem avoids_stoi_bind {s : Str} {α : Type} {f : Int → Except Failure α} :
    Avoids Failure.FromIni (stoi s >>= f) ↔
      ∀ n, stoi s = .ok n → Avoids Failure.FromIni (f n) := by
  rw [avoids_bind, and_iff_right (avoids_stoi s)]

theorem avoids_standard_bind {α β : Type} {x : Except Str α} {f : α → Except Failure β} :
    Avoids Failure.FromIni (x.mapError .standard >>= f) ↔
      ∀ a, x = .ok a → Avoids Failure.FromIni (f a) := by
  rw [avoids_bind, and_iff_right (avoids_standard x)]
  cases x with
  | error what => exact iff_of_true nofun nofun
  | ok a => simp only [Except.mapError, Except.ok.injEq]

theorem new_bind {fileName : Str} {file : Option Str} {values : MyINI}
    (h : new fileName file = .ok values) {α : Type} (f : MyINI → Except Failure α) :
    ((new fileName file).mapError .ini >>= f) = f values := by
  rw [h]
  rfl

/-- Without the file, or behind a line that is rejected, nothing is read. -/
theorem not_avoids_new {fileName : Str} {file : Option Str} {e : IniError}
    (h : new fileName file = .error e) {α : Type} (f : MyINI → Except Failure α) :
    ¬ Avoids Failure.FromIni ((new fileName file).mapError .ini >>= f) := by
  rw [avoids_bind, h]
  intro ha
  exact ha.1 (.ini e) rfl trivial

theorem avoids_crawler {text : Str} {values : MyINI}
    (h : new (str "../config.ini") (some text) = .ok values) (env : Env) :
    Avoids Failure.FromIni (crawler env (some text)) ↔ HasSettings env text .crawler := by
  have hr := readsAll h
  rw [crawler, new_bind h]
  simp only [avoids_read hr.start_page, avoids_read hr.recursion_depth, avoids_read hr.bd_host,
    avoids_read hr.bd_port, avoids_read hr.bd_name, avoids_read hr.bd_user, avoids_read hr.bd_pass,
    avoids_stoi_bind, avoids_standard_bind, avoids_standard, implies_true, and_true]
  rw [HasSettings, Option.isSome_iff_exists]
  apply Iff.intro
  · rintro ⟨start_page, hstart, depth, hdepth, hdata⟩
    refine ⟨⟨start_page, hstart⟩, depth, hdepth, fun n hn => ?_⟩
    obtain ⟨host, hhost, port, hport, name, hname, user, huser, password, hpassword⟩ := hdata n hn
    exact ⟨⟨host, port, name, user, password⟩, ⟨hhost, hport, hname, huser, hpassword⟩⟩
  · rintro ⟨⟨start_page, hstart⟩, depth, hdepth, hdata⟩
    refine ⟨start_page, hstart, depth, hdepth, fun n hn => ?_⟩
    obtain ⟨db, hdb⟩ := hdata n hn
    exact ⟨_, hdb.host, _, hdb.port, _, hdb.name, _, hdb.user, _, hdb.password⟩

/-- The server looks up its port behind the connection. -/
theorem avoids_server {text : Str} {values : MyINI}
    (h : new (str "../config.ini") (some text) = .ok values) (env : Env) :
    Avoids Failure.FromIni (server env (some text)) ↔ HasSettings env text .server := by
  have hr := readsAll h
  rw [server, new_bind h]
  simp only [avoids_read hr.bd_host, avoids_read hr.bd_port, avoids_read hr.bd_name,
    avoids_read hr.bd_user, avoids_read hr.bd_pass, avoids_read hr.server_port, avoids_stoi_bind,
    avoids_standard_bind, avoids_standard, implies_true, and_true]
  simp only [HasSettings, Option.isSome_iff_exists]
  apply Iff.intro
  · rintro ⟨host, hhost, name, hname, port, hport, user, huser, password, hpassword, hserver⟩
    exact ⟨⟨host, port, name, user, password⟩, ⟨hhost, hport, hname, huser, hpassword⟩, hserver ()⟩
  · rintro ⟨db, hdb, hserver⟩
    exact ⟨_, hdb.host, _, hdb.name, _, hdb.port, _, hdb.user, _, hdb.password,
      fun _ hc => hserver hc⟩

theorem avoids_body {text : Str} {values : MyINI}
    (h : new (str "../config.ini") (some text) = .ok values) (program : Program) (env : Env) :
    Avoids Failure.FromIni (body program env (some text)) ↔ HasSettings env text program := by
  cases program with
  | crawler => exact avoids_crawler h env
  | server => exact avoids_server h env

/-- Where the constructor fails, both programs do. -/
theorem not_avoids_body {file : Option Str} {e : IniError}
    (h : new (str "../config.ini") file = .error e) (program : Program) (env : Env) :
    ¬ Avoids Failure.FromIni (body program env file) := by
  cases program with
  | crawler => exact not_avoids_new h _
  | server => exact not_avoids_new h _

theorem avoids_iff_complete (program : Program) (env : Env) (file : Option Str) :
    Avoids Failure.FromIni (body program env file) ↔ Complete program env file := by
  cases hnew : new (str "../config.ini") file with
  | error e =>
    refine iff_of_false (not_avoids_body hnew program env) ?_
    rintro ⟨text, rfl, hlines, -⟩
    obtain ⟨values, hok⟩ := new_ok hlines (str "../config.ini")
    rw [hnew] at hok
    cases hok
  | ok values =>
    cases file with
    | none => cases hnew
    | some text =>
      rw [avoids_body hnew]
      apply Iff.intro
      · intro hs
        exact ⟨text, rfl, ((new_ok_iff _ _ _).mp hnew).1, hs⟩
      · rintro ⟨text', he, -, hs⟩
        rwa [Option.some.inj he]

/-- A start without a setting that the program comes to read ends the process. -/
theorem terminated_of_incomplete {program : Program} {env : Env} {file : Option Str}
    (h : ¬ Complete program env file) : main program env file = .terminated := by
  rw [← avoids_iff_complete, Avoids] at h
  push Not at h
  obtain ⟨f, hf, hini⟩ := h
  rw [main, hf]
  cases f with
  | ini e | value e => rfl
  | standard what => exact absurd hini not_false

/-- The failures of the configuration are reported exactly where there are none. -/
theorem reported_iff (program : Program) (env : Env) (file : Option Str) :
    Reported program env file ↔ Complete program env file :=
  (reported_iff_avoids program env file).trans (avoids_iff_complete program env file)

/-- Without a configuration file the crawler is terminated. -/
theorem missing_file_terminates : ¬ ∀ program env file, Reported program env file := by
  intro h
  have ha := (reported_iff_avoids ..).mp
    (h .crawler ⟨fun _ => .ok (), fun _ _ _ => .ok .success, fun _ _ => .ok .success⟩ none)
  exact not_avoids_body rfl .crawler _ ha

end SpiderSearch.Startup
