import SpiderSearch.IniSettings
import SpiderSearch.KeywordValue

namespace SpiderSearch.ConnectionString

open CppTypes DbClient IniFile LastWriter KeywordValue
open IniSettings (readWord get_value get_value_ok_iff)

structure DB_Client where
  DBHost : Str
  DBPort : Str
  DBName : Str
  DBUser : Str
  DBPassword : Str

def createConnectionString (db : DB_Client) : Str :=
  str "host = " ++ db.DBHost ++ str " port= " ++ db.DBPort ++ str " dbname = " ++ db.DBName ++
    str " user = " ++ db.DBUser ++ str " password = " ++ db.DBPassword

/-- The keyword/value syntax of a connection string. -/
def conninfo : Grammar UInt8 where
  space := isSpace
  equals := ch '='
  quote := ch '\''
  escape := ch '\\'
  equals_space := by decide
  quote_space := by decide
  escape_space := by decide

/-- A string without white space. -/
structure Value where
  text : Str
  word : text ≠ [] ∧ ∀ c ∈ text, isSpace c = false

theorem readWord_word {iss v : Str} (h : readWord iss = some v) :
    v ≠ [] ∧ ∀ c ∈ v, isSpace c = false := by
  rw [readWord] at h
  split_ifs at h with hne
  obtain rfl := Option.some.inj h
  refine ⟨hne, fun c hc => ?_⟩
  have hn := List.mem_takeWhile_imp hc
  rwa [Bool.not_eq_true'] at hn

/-- What `get_value` returns is such a string. -/
theorem get_value_word {values : MyINI} {sectionAndItem v : Str}
    (h : get_value values sectionAndItem = .ok v) : ∃ value : Value, value.text = v := by
  obtain ⟨text, -, hword⟩ := Option.bind_eq_some_iff.mp (get_value_ok_iff.mp h).2
  exact ⟨⟨v, readWord_word hword⟩, rfl⟩

def DB_Client.ofValues (host port name user password : Value) : DB_Client :=
  ⟨host.text, port.text, name.text, user.text, password.text⟩

def DB_Client.settings (db : DB_Client) : List (Str × Str) :=
  [(str "host", db.DBHost), (str "port", db.DBPort), (str "dbname", db.DBName),
    (str "user", db.DBUser), (str "password", db.DBPassword)]

/-- The connection string is read as the five settings and no others. -/
def Carried (db : DB_Client) : Prop :=
  ∃ settings, parse conninfo (createConnectionString db) = some settings ∧
    ∀ name value, lastWrite settings name = some value ↔ (name, value) ∈ db.settings

/-- The value starts with no quote and has no backslash. -/
def Value.Bare (v : Value) : Prop := v.text.head? ≠ some (ch '\'') ∧ ch '\\' ∉ v.text

instance (v : Value) : Decidable v.Bare := inferInstanceAs (Decidable (_ ∧ _))

theorem isSpace_space : ∀ c ∈ str " ", isSpace c = true := by decide +kernel

/-- A setting as `createConnectionString` writes it. -/
def entry (before name mid : Str) (hbefore : ∀ c ∈ before, isSpace c = true)
    (hname : name ≠ [] ∧ ∀ c ∈ name, nameChar conninfo c = true)
    (hmid : ∀ c ∈ mid, isSpace c = true) (v : Value) : Written conninfo :=
  ⟨before, name, mid, str " ", v.text, hbefore, hname, hmid, isSpace_space, v.word⟩

section Written

variable (host port name user password : Value)

/-- The settings as they stand in the connection string. -/
def written : List (Written conninfo) :=
  [entry [] (str "host") (str " ") nofun (by decide +kernel) isSpace_space host,
    entry (str " ") (str "port") [] isSpace_space (by decide +kernel) nofun port,
    entry (str " ") (str "dbname") (str " ") isSpace_space (by decide +kernel) isSpace_space name,
    entry (str " ") (str "user") (str " ") isSpace_space (by decide +kernel) isSpace_space user,
    entry (str " ") (str "password") (str " ") isSpace_space (by decide +kernel) isSpace_space
      password]

theorem textOf_written : textOf (written host port name user password) =
    createConnectionString (.ofValues host port name user password) := by
  have hhost : str "host = " = str "host" ++ (str " " ++ ch '=' :: str " ") := by decide
  have hport : str " port= " = str " " ++ (str "port" ++ ch '=' :: str " ") := by decide
  have hname : str " dbname = " = str " " ++ (str "dbname" ++ (str " " ++ ch '=' :: str " ")) := by
    decide
  have huser : str " user = " = str " " ++ (str "user" ++ (str " " ++ ch '=' :: str " ")) := by
    decide
  have hpassword : str " password = " =
      str " " ++ (str "password" ++ (str " " ++ ch '=' :: str " ")) := by
    decide
  rw [createConnectionString, hhost, hport, hname, huser, hpassword]
  simp only [textOf, written, List.flatMap_cons, List.flatMap_nil, Written.text, Written.tail,
    entry, DB_Client.ofValues, List.append_assoc, List.cons_append, List.nil_append,
    List.append_nil, conninfo]

theorem pairs_written : (written host port name user password).map Written.pair =
    (DB_Client.ofValues host port name user password).settings := rfl

theorem forall_written {P : Str → Prop} :
    (∀ w ∈ written host port name user password, P w.value) ↔
      ∀ v ∈ [host, port, name, user, password], P v.text := by
  simp [written, entry]

theorem separated_written : ∀ w ∈ (written host port name user password).tail, w.before ≠ [] := by
  have hspace : str " " ≠ [] := by decide
  simp [written, entry, hspace]

/-- Where no value needs quotes, the settings are read in the order they are written in. -/
theorem parse_createConnectionString
    (h : ∀ v ∈ [host, port, name, user, password], v.Bare) :
    parse conninfo (createConnectionString (.ofValues host port name user password)) =
      some (DB_Client.ofValues host port name user password).settings := by
  rw [← textOf_written, ← pairs_written]
  exact parse_textOf (separated_written host port name user password)
    ((forall_written host port name user password).mpr h)

theorem carried_ofValues : Carried (.ofValues host port name user password) ↔
    ∀ v ∈ [host, port, name, user, password], v.Bare := by
  have hn : ((written host port name user password).map Written.name).Nodup := by
    simp only [written, entry, List.map_cons, List.map_nil]
    decide +kernel
  have h := carried_iff (separated_written host port name user password) hn
  rw [textOf_written, pairs_written, forall_written] at h
  exact h

end Written

/-- Settings that are read one by one are the ones in effect. -/
theorem carried_of_parse {db : DB_Client}
    (h : parse conninfo (createConnectionString db) = some db.settings) : Carried db := by
  have hn : (db.settings.map Prod.fst).Nodup := by
    rw [DB_Client.settings]
    simp only [List.map_cons, List.map_nil]
    decide +kernel
  exact ⟨db.settings, h, fun name value => lastWrite_nodup hn⟩

/-- The five settings arrive, also one by one, exactly when no value starts with a quote or has a
backslash. -/
theorem connection_iff (host port name user password : Value) :
    (Carried (.ofValues host port name user password) ↔
      ∀ v ∈ [host, port, name, user, password], v.Bare) ∧
    (parse conninfo (createConnectionString (.ofValues host port name user password)) =
        some (DB_Client.ofValues host port name user password).settings ↔
      ∀ v ∈ [host, port, name, user, password], v.Bare) := by
  have hc := carried_ofValues host port name user password
  refine ⟨hc, ?_, parse_createConnectionString host port name user password⟩
  intro h
  exact hc.mp (carried_of_parse h)

/-- The backslash of a password is lost. -/
theorem backslash_lost :
    ¬ ∀ host port name user password, Carried (.ofValues host port name user password) := by
  intro h
  have hb := (carried_ofValues ..).mp (h ⟨str "localhost", by decide +kernel⟩
    ⟨str "5432", by decide +kernel⟩ ⟨str "spider", by decide +kernel⟩
    ⟨str "postgres", by decide +kernel⟩ ⟨str "pa\\ss", by decide +kernel⟩)
  exact absurd hb (by decide +kernel)

end SpiderSearch.ConnectionString
