import SpiderSearch.ResultMarkup
import SpiderSearch.Startup

namespace SpiderSearch.Deployment

open CppTypes DbClient IniFile LastWriter IniView IniLayout IniSettings ConnectionString Startup
open ResultMarkup
open RequestText (skipSign)

theorem digit_class {b : UInt8} (h : isDigit b = true) :
    isSpace b = false ∧ b ≠ ch '-' ∧ b ≠ ch '+' := by
  have hall : ∀ b : UInt8, isDigit b = true → isSpace b = false ∧ b ≠ ch '-' ∧ b ≠ ch '+' := by
    decide +kernel
  exact hall b h

/-- The bytes of a numeral are its digits. -/
theorem str_repr (m : Nat) :
    str m.repr = (Nat.toDigits 10 m).map fun c => UInt8.ofNat c.toNat := by
  have h : ∀ cs : List Char, (∀ c ∈ cs, c.isDigit = true) →
      cs.flatMap String.utf8EncodeChar = cs.map fun c => UInt8.ofNat c.toNat := by
    intro cs hcs
    induction cs with
    | nil => rfl
    | cons c cs ih =>
      obtain ⟨hc, hcs⟩ := List.forall_mem_cons.mp hcs
      rw [List.flatMap_cons, encode_of_numeral (.inr hc), ih hcs]
      rfl
  rw [str, Nat.toList_repr]
  exact h _ fun c hc => Nat.isDigit_of_mem_toDigits (by decide) (by decide) hc

theorem isDigit_ofNat {c : Char} (h : c.isDigit = true) : isDigit (UInt8.ofNat c.toNat) = true := by
  obtain ⟨hl, hu⟩ := Char.isDigit_iff_toNat.mp h
  simp only [isDigit, UInt8.le_iff_toNat_le, Bool.and_eq_true, decide_eq_true_eq,
    byte_of_numeral (.inr h)]
  exact ⟨hl, hu⟩

theorem digits_repr (m : Nat) : str m.repr ≠ [] ∧ ∀ b ∈ str m.repr, isDigit b = true := by
  rw [str_repr]
  refine ⟨by simp [Nat.toDigits_ne_nil], fun b hb => ?_⟩
  obtain ⟨c, hc, rfl⟩ := List.mem_map.mp hb
  exact isDigit_ofNat (Nat.isDigit_of_mem_toDigits (by decide) (by decide) hc)

theorem ofDecimal_repr (m : Nat) : ofDecimal (str m.repr) = m := by
  have h : ∀ (cs : List Char) (n : Nat), (∀ c ∈ cs, c.isDigit = true) →
      (cs.map fun c => UInt8.ofNat c.toNat).foldl (fun n b => 10 * n + (b.toNat - 48)) n =
        Nat.ofDigitChars 10 cs n := by
    intro cs n hcs
    induction cs generalizing n with
    | nil => rfl
    | cons c cs ih =>
      obtain ⟨hc, hcs⟩ := List.forall_mem_cons.mp hcs
      rw [List.map_cons, List.foldl_cons, byte_of_numeral (.inr hc), ih _ hcs,
        Nat.ofDigitChars_cons]
      rfl
  rw [ofDecimal, str_repr, h _ _ fun c hc => Nat.isDigit_of_mem_toDigits (by decide) (by decide) hc]
  exact Nat.ofDigitChars_ten_toDigits

theorem takeWhile_digits {s : Str} (h : ∀ b ∈ s, isDigit b = true) : s.takeWhile isDigit = s :=
  List.takeWhile_eq_self_iff.mpr h

/-- The digits behind a sign, if there is one, are the number. -/
theorem stoi_digits (m : Nat) (n : Int) (t : Str) (hdrop : t.dropWhile isSpace = t)
    (negative : Bool) (hsign : skipSign t = (negative, str m.repr))
    (hn : n = if negative then -(m : Int) else m) (hl : intMin ≤ n) (hu : n ≤ intMax) :
    stoi t = .ok n := by
  obtain ⟨hne, hd⟩ := digits_repr m
  rw [stoi, hdrop, hsign]
  simp only [takeWhile_digits hd, ofDecimal_repr, ← hn]
  rw [if_neg hne, if_pos ⟨hl, hu⟩]

theorem str_negSucc (m : Nat) : str (toString (Int.negSucc m)) = ch '-' :: str (m + 1).repr := by
  have ht : toString (Int.negSucc m) = "-" ++ (m + 1).repr := rfl
  rw [ht, str, String.toList_append, List.flatMap_append]
  rfl

/-- A number that is printed is read back. -/
theorem stoi_toString {n : Int} (hl : intMin ≤ n) (hu : n ≤ intMax) :
    stoi (str (toString n)) = .ok n := by
  cases n with
  | ofNat m =>
    obtain ⟨hne, hd⟩ := digits_repr m
    obtain ⟨b, s, hbs⟩ := List.exists_cons_of_ne_nil hne
    obtain ⟨hspace, hminus, hplus⟩ := digit_class (hd b (by simp [hbs]))
    refine stoi_digits m _ (str m.repr) ?_ false ?_ rfl hl hu
    · rw [hbs, List.dropWhile_cons_of_neg (by simp [hspace])]
    · rw [hbs, skipSign, if_neg hminus, if_neg hplus]
  | negSucc m =>
    rw [str_negSucc]
    refine stoi_digits (m + 1) _ _ ?_ true ?_ (Int.negSucc_eq m) hl hu
    · exact List.dropWhile_cons_of_neg (by decide)
    · rw [skipSign, if_pos rfl]

theorem toString_word (n : Int) :
    str (toString n) ≠ [] ∧ ∀ c ∈ str (toString n), isSpace c = false := by
  cases n with
  | ofNat m =>
    obtain ⟨hne, hd⟩ := digits_repr m
    exact ⟨hne, fun c hc => (digit_class (hd c hc)).1⟩
  | negSucc m =>
    rw [str_negSucc]
    refine ⟨nofun, List.forall_mem_cons.mpr ⟨by decide, fun c hc => ?_⟩⟩
    exact (digit_class ((digits_repr (m + 1)).2 c hc)).1

def number (n : Int) : Value := ⟨str (toString n), toString_word n⟩

/-- What the programs are to be started with. -/
structure Config where
  start_page : Value
  recursion_depth : Int
  host : Value
  port : Value
  name : Value
  user : Value
  password : Value
  server_port : Nat
  depth_fits : intMin ≤ recursion_depth ∧ recursion_depth ≤ intMax
  port_fits : server_port < 65536

def Config.db (c : Config) : DB_Client := .ofValues c.host c.port c.name c.user c.password

/-- The settings, each under its section and key. -/
def Config.entries (c : Config) : List ((Str × Str) × Value) :=
  [((str "Client", str "start_page"), c.start_page),
    ((str "Client", str "recursion_depth"), number c.recursion_depth),
    ((str "DataBase", str "bd_host"), c.host),
    ((str "DataBase", str "bd_port"), c.port),
    ((str "DataBase", str "bd_name"), c.name),
    ((str "DataBase", str "bd_user"), c.user),
    ((str "DataBase", str "bd_pass"), c.password),
    ((str "Server", str "server_port"), number c.server_port)]

/-- Each setting of the configuration is the one that was assigned last. -/
def Config.WrittenIn (c : Config) (settings : List Setting) : Prop :=
  ∀ e ∈ c.entries, lastAssigned settings e.1.1 e.1.2 = some e.2.text

/-- What the program does once it has its configuration. -/
def Config.start (c : Config) (env : Env) : Program → Except Str Exit
  | .crawler => do
    env.connect (createConnectionString c.db)
    env.crawl c.start_page.text c.recursion_depth (createConnectionString c.db)
  | .server => do
    env.connect (createConnectionString c.db)
    env.serve c.server_port (createConnectionString c.db)

/-- An exception is printed by the handler. -/
def finish (program : Program) : Except Str Exit → Exit
  | .ok exit => exit
  | .error what => .failure (program.report what)

theorem main_of_body {program : Program} {env : Env} {file : Option Str} {x : Except Str Exit}
    (h : body program env file = x.mapError .standard) :
    main program env file = finish program x := by
  rw [main, h]
  cases x with
  | ok exit => rfl
  | error what => rfl

/-- A value without white space is looked up whole. -/
theorem getValue_bind {values : MyINI} {S k sectionAndItem : Str} {v : Value}
    (h : valueAt values S k = some v.text) (hname : sectionAndItem = S ++ str "." ++ k)
    (hS : ch '.' ∉ S ∧ S.length < npos) {α : Type} (f : Str → Except Failure α) :
    (getValue values sectionAndItem >>= f) = f v.text := by
  rw [getValue, hname, (get_value_eq hS.1 hS.2 h).mpr ((readWord_iff v.word.1).mpr v.word.2)]
  rfl

theorem stoi_bind {n : Int} (h : intMin ≤ n ∧ n ≤ intMax) {α : Type}
    (f : Int → Except Failure α) : (stoi (number n).text >>= f) = f n := by
  rw [number, stoi_toString h.1 h.2]
  rfl

/-- The values that both programs read. -/
structure Config.ReadFrom (c : Config) (values : MyINI) : Prop where
  start_page : valueAt values (str "Client") (str "start_page") = some c.start_page.text
  recursion_depth : valueAt values (str "Client") (str "recursion_depth") =
    some (number c.recursion_depth).text
  bd_host : valueAt values (str "DataBase") (str "bd_host") = some c.host.text
  bd_port : valueAt values (str "DataBase") (str "bd_port") = some c.port.text
  bd_name : valueAt values (str "DataBase") (str "bd_name") = some c.name.text
  bd_user : valueAt values (str "DataBase") (str "bd_user") = some c.user.text
  bd_pass : valueAt values (str "DataBase") (str "bd_pass") = some c.password.text
  server_port : valueAt values (str "Server") (str "server_port") =
    some (number c.server_port).text

theorem Config.WrittenIn.readFrom {c : Config} {settings : List Setting}
    (h : c.WrittenIn settings) {values : MyINI}
    (hv : ∀ S k, valueAt values S k = lastAssigned settings S k) : c.ReadFrom values := by
  have he : ∀ e ∈ c.entries, valueAt values e.1.1 e.1.2 = some e.2.text := fun e he =>
    (hv e.1.1 e.1.2).trans (h e he)
  simp only [entries, List.forall_mem_cons] at he
  obtain ⟨hstart, hdepth, hhost, hport, hname, huser, hpass, hserver, -⟩ := he
  exact ⟨hstart, hdepth, hhost, hport, hname, huser, hpass, hserver⟩

theorem mapError_bind {ε ε' α β : Type} (g : ε → ε') (x : Except ε α) (f : α → Except ε β) :
    (x >>= f).mapError g = x.mapError g >>= fun a => (f a).mapError g := by
  cases x with
  | ok a => rfl
  | error e => rfl

theorem client_fits : ch '.' ∉ str "Client" ∧ (str "Client").length < npos := by decide

theorem dataBase_fits : ch '.' ∉ str "DataBase" ∧ (str "DataBase").length < npos := by decide

theorem server_fits : ch '.' ∉ str "Server" ∧ (str "Server").length < npos := by decide

theorem crawler_eq {c : Config} {values : MyINI} (h : c.ReadFrom values) {file : Option Str}
    (hnew : new (str "../config.ini") file = .ok values) (env : Env) :
    crawler env file = (c.start env .crawler).mapError .standard := by
  rw [crawler, new_bind hnew, getValue_bind h.start_page (by decide) client_fits,
    getValue_bind h.recursion_depth (by decide) client_fits, stoi_bind c.depth_fits,
    getValue_bind h.bd_host (by decide) dataBase_fits,
    getValue_bind h.bd_port (by decide) dataBase_fits,
    getValue_bind h.bd_name (by decide) dataBase_fits,
    getValue_bind h.bd_user (by decide) dataBase_fits,
    getValue_bind h.bd_pass (by decide) dataBase_fits]
  exact (mapError_bind ..).symm

/-- The server casts its port, which leaves a port as it is. -/
theorem server_eq {c : Config} {values : MyINI} (h : c.ReadFrom values) {file : Option Str}
    (hnew : new (str "../config.ini") file = .ok values) (env : Env) :
    server env file = (c.start env .server).mapError .standard := by
  have hport : (((c.server_port : Int) % 65536).toNat) = c.server_port := by
    have hp := c.port_fits
    omega
  have hfits : intMin ≤ (c.server_port : Int) ∧ (c.server_port : Int) ≤ intMax := by
    have hp := c.port_fits
    rw [intMin, intMax]
    omega
  have hbound (hc : Unit) : (getValue values (str "Server.server_port") >>= fun server_port =>
      stoi server_port >>= fun port => (env.serve (port % 65536).toNat
        (createConnectionString c.db)).mapError .standard) =
      (env.serve c.server_port (createConnectionString c.db)).mapError Failure.standard := by
    rw [getValue_bind h.server_port (by decide) server_fits, stoi_bind hfits, hport]
  rw [server, new_bind hnew, getValue_bind h.bd_host (by decide) dataBase_fits,
    getValue_bind h.bd_name (by decide) dataBase_fits,
    getValue_bind h.bd_port (by decide) dataBase_fits,
    getValue_bind h.bd_user (by decide) dataBase_fits,
    getValue_bind h.bd_pass (by decide) dataBase_fits, Config.start, mapError_bind]
  exact congrArg _ (funext hbound)

theorem main_eq {c : Config} {values : MyINI} (h : c.ReadFrom values) {file : Option Str}
    (hnew : new (str "../config.ini") file = .ok values) (env : Env) (program : Program) :
    main program env file = finish program (c.start env program) := by
  apply main_of_body
  cases program with
  | crawler => exact crawler_eq h hnew env
  | server => exact server_eq h hnew env

theorem word_of_string {s : Str} (h : s ≠ [] ∧ s.all (fun c => !isSpace c) = true) :
    s ≠ [] ∧ ∀ c ∈ s, isSpace c = false := by
  simpa using h

def postgres : Value := ⟨str "postgres", word_of_string (by decide +kernel)⟩

def local5432 : Config where
  start_page := ⟨str "https://wiki.openssl.org", word_of_string (by decide +kernel)⟩
  recursion_depth := 1
  host := ⟨str "localhost", word_of_string (by decide +kernel)⟩
  port := ⟨str "5432", word_of_string (by decide +kernel)⟩
  name := postgres
  user := postgres
  password := postgres
  server_port := 8080
  depth_fits := by decide
  port_fits := by decide

/-- An assignment whose parts are checked. -/
def assignment (key value : Str)
    (hkey : (key ≠ [] ∧ trim key = key ∧ ch '=' ∉ key) ∧ ch '\n' ∉ key ∧
      key.head? ≠ some (ch ';') ∧ key.head? ≠ some (ch '['))
    (hvalue : (value ≠ [] ∧ trim value = value) ∧ ch ';' ∉ value ∧ ch '\n' ∉ value) : Setting :=
  .entry key value ⟨hkey.1.1, hkey.1.2.1, hkey.1.2.2, hkey.2.1, hkey.2.2.1, hkey.2.2.2⟩
    ⟨hvalue.1.1, hvalue.1.2, hvalue.2.1, hvalue.2.2⟩

/-- The port of the server is assigned twice. -/
def localSettings : List Setting :=
  [.header (str "DataBase") ⟨by decide, by decide⟩,
    assignment (str "bd_host") (str "localhost") (by decide +kernel) (by decide +kernel),
    assignment (str "bd_port") (str "5432") (by decide +kernel) (by decide +kernel),
    assignment (str "bd_name") (str "postgres") (by decide +kernel) (by decide +kernel),
    assignment (str "bd_user") (str "postgres") (by decide +kernel) (by decide +kernel),
    assignment (str "bd_pass") (str "postgres") (by decide +kernel) (by decide +kernel),
    .header (str "Server") ⟨by decide, by decide⟩,
    assignment (str "server_port") (str "80") (by decide +kernel) (by decide +kernel),
    assignment (str "server_port") (str "8080") (by decide +kernel) (by decide +kernel),
    .header (str "Client") ⟨by decide, by decide⟩,
    assignment (str "start_page") (str "https://wiki.openssl.org") (by decide +kernel)
      (by decide +kernel),
    assignment (str "recursion_depth") (str "1") (by decide +kernel) (by decide +kernel)]

/-- An environment that throws what it is called with. -/
def echo : Env where
  connect := fun _ => .ok ()
  crawl := fun url _ _ => .error url
  serve := fun port _ => .error (str (toString port))

end SpiderSearch.Deployment
