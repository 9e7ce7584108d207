import SpiderSearch.CppTypes

namespace SpiderSearch.SqlText

open CppTypes

def quote : UInt8 := ch '\''

/-- Read a string literal behind its opening quote: it runs to the next quote that is not
doubled. The result is the text it denotes and what follows its closing quote. -/
def readLiteral : Str → Option (Str × Str)
  | [] => none
  | c :: rest =>
    if c = quote then
      match rest with
      | [] => some ([], [])
      | d :: rest' =>
        if d = quote then (readLiteral rest').map fun (lit, r) => (quote :: lit, r)
        else some ([], d :: rest')
    else (readLiteral rest).map fun (lit, r) => (c :: lit, r)

/-- `transaction_base::esc` under standard conforming strings. -/
def esc : Str → Str
  | [] => []
  | c :: s => if c = quote then quote :: quote :: esc s else c :: esc s

theorem readLiteral_close {rest : Str} (h : rest.head? ≠ some quote) :
    readLiteral (quote :: rest) = some ([], rest) := by
  cases rest with
  | nil => simp [readLiteral]
  | cons d rest =>
    have hd : d ≠ quote := fun he => h (by simp [he])
    simp [readLiteral, hd]

theorem readLiteral_cons {c : UInt8} (hc : c ≠ quote) (rest : Str) :
    readLiteral (c :: rest) = (readLiteral rest).map fun (lit, r) => (c :: lit, r) := by
  cases rest <;> simp [readLiteral, hc]

theorem readLiteral_plain {s rest : Str} (hs : quote ∉ s) (h : rest.head? ≠ some quote) :
    readLiteral (s ++ quote :: rest) = some (s, rest) := by
  induction s with
  | nil => exact readLiteral_close h
  | cons c s ih =>
    obtain ⟨hc, hs⟩ := not_or.mp (mt List.mem_cons.mpr hs)
    rw [List.cons_append, readLiteral_cons (Ne.symm hc), ih hs, Option.map_some]

theorem readLiteral_esc (s : Str) {rest : Str} (h : rest.head? ≠ some quote) :
    readLiteral (esc s ++ quote :: rest) = some (s, rest) := by
  induction s with
  | nil => exact readLiteral_close h
  | cons c s ih =>
    by_cases hc : c = quote
    · subst hc
      simp [esc, readLiteral, ih]
    · rw [esc, if_neg hc, List.cons_append, readLiteral_cons hc, ih, Option.map_some]

/-- A literal writes each of its apostrophes twice, and one more to close it. -/
theorem count_readLiteral {s lit rest : Str} (h : readLiteral s = some (lit, rest)) :
    s.count quote = 2 * lit.count quote + 1 + rest.count quote := by
  induction s using readLiteral.induct generalizing lit rest with
  | case1 => cases h
  | case2 =>
    cases h
    rfl
  | case3 s ih =>
    simp only [readLiteral, if_true, Option.map_eq_some_iff] at h
    obtain ⟨⟨lit', rest'⟩, h, he⟩ := h
    obtain ⟨rfl, rfl⟩ := Prod.mk.inj he
    have hi := ih h
    dsimp only at hi ⊢
    rw [List.count_cons_self, List.count_cons_self, List.count_cons_self, hi]
    omega
  | case4 d s hd =>
    simp only [readLiteral, if_true, if_neg hd, Option.some.injEq, Prod.mk.injEq] at h
    obtain ⟨rfl, rfl⟩ := h
    rw [List.count_cons_self, List.count_nil]
    omega
  | case5 c s hc ih =>
    rw [readLiteral_cons hc, Option.map_eq_some_iff] at h
    obtain ⟨⟨lit', rest'⟩, h, he⟩ := h
    obtain ⟨rfl, rfl⟩ := Prod.mk.inj he
    rw [List.count_cons_of_ne hc, List.count_cons_of_ne hc, ih h]

/-- A text put between two quotes denotes itself only when it has none of its own. -/
theorem plain_of_readLiteral {text tail rest : Str} (ht : quote ∉ tail)
    (h : readLiteral (text ++ quote :: tail) = some (text, rest)) : quote ∉ text := by
  have hc := count_readLiteral h
  rw [List.count_append, List.count_cons_self, List.count_eq_zero.mpr ht] at hc
  exact List.count_eq_zero.mp (by omega)

inductive Token where
  | char (c : UInt8)
  | literal (text : Str)
  deriving DecidableEq

/-- The characters and the string literals of a text, `none` where a literal is not closed. -/
def scan : Nat → Str → Option (List Token)
  | _, [] => some []
  | 0, _ :: _ => none
  | fuel + 1, c :: s =>
    if c = quote then
      match readLiteral s with
      | none => none
      | some (lit, rest) => (scan fuel rest).map (.literal lit :: ·)
    else (scan fuel s).map (.char c :: ·)

def tokens (s : Str) : Option (List Token) := scan s.length s

def literals (ts : List Token) : List Str :=
  ts.filterMap fun t =>
    match t with
    | .literal text => some text
    | .char _ => none

def blank (ts : List Token) : Bool := ts.all fun t => t = .char (ch ' ')

/-- The statements of a simple query stand between its semicolons. -/
def statements (ts : List Token) : List (List Token) :=
  (ts.splitOn (.char (ch ';'))).filter fun st => !blank st

/-- The query is one `SELECT`, and the given text is its one literal. -/
def SelectsBy (sql text : Str) : Prop :=
  ∃ st, (tokens sql).map statements = some [st] ∧ (str "SELECT ").map .char <+: st ∧
    literals st = [text]

theorem literals_append (ts us : List Token) : literals (ts ++ us) = literals ts ++ literals us :=
  List.filterMap_append

theorem literals_chars (s : Str) : literals (s.map .char) = [] := by
  induction s with
  | nil => rfl
  | cons c s ih => exact ih

theorem literals_of_blank {ts : List Token} (h : blank ts = true) : literals ts = [] := by
  rw [literals, List.filterMap_eq_nil_iff]
  intro t ht
  have hc : t = .char (ch ' ') := by simpa using List.all_eq_true.mp h t ht
  rw [hc]

theorem literals_intercalate (sts : List (List Token)) :
    literals ([.char (ch ';')].intercalate sts) = sts.flatMap literals := by
  induction sts with
  | nil => rfl
  | cons st sts ih =>
    cases sts with
    | nil => simp
    | cons st' sts =>
      have hsep : literals [.char (ch ';')] = [] := rfl
      rw [List.intercalate_cons_cons, literals_append, literals_append, ih, hsep, List.append_nil]
      rfl

/-- No literal is lost when the query is cut into statements. -/
theorem literals_statements (ts : List Token) : (statements ts).flatMap literals = literals ts := by
  have h := literals_intercalate (ts.splitOn (.char (ch ';')))
  rw [List.intercalate_splitOn] at h
  rw [h, statements]
  induction ts.splitOn (.char (ch ';')) with
  | nil => rfl
  | cons st sts ih =>
    rw [List.filter_cons]
    cases hb : blank st with
    | true => simpa [literals_of_blank hb] using ih
    | false => simpa using ih

theorem scan_chars {s : Str} (hs : quote ∉ s) (fuel : Nat) (t : Str) :
    scan (s.length + fuel) (s ++ t) = (scan fuel t).map (s.map .char ++ ·) := by
  induction s with
  | nil => simp
  | cons c s ih =>
    obtain ⟨hc, hs⟩ := not_or.mp (mt List.mem_cons.mpr hs)
    have hl : (c :: s).length + fuel = s.length + fuel + 1 := by
      rw [List.length_cons]
      omega
    rw [hl, List.cons_append, scan, if_neg (Ne.symm hc), ih hs, Option.map_map]
    rfl

theorem tokens_literal {head : Str} (hh : quote ∉ head) (s : Str) :
    tokens (head ++ quote :: s) = (readLiteral s).bind fun (lit, rest) =>
      (scan s.length rest).map fun ts => head.map .char ++ .literal lit :: ts := by
  rw [tokens, List.length_append, scan_chars hh, List.length_cons, scan, if_pos rfl]
  cases readLiteral s with
  | none => rfl
  | some r => exact Option.map_map _ _ _

/-- Between plain text a plain literal is the only one of its statement. -/
theorem selectsBy_plain {head text tail : Str} (hh : quote ∉ head) (hs : ch ';' ∉ head)
    (hsel : str "SELECT " <+: head) (ht : quote ∉ text) (hq : quote ∉ tail) (hc : ch ';' ∉ tail) :
    SelectsBy (head ++ quote :: (text ++ quote :: (tail ++ [ch ';']))) text := by
  have hend : quote ∉ tail ++ [ch ';'] := by
    rw [List.mem_append, not_or]
    exact ⟨hq, by decide⟩
  have hhead : (tail ++ [ch ';']).head? ≠ some quote := fun h => hend (List.mem_of_mem_head? h)
  have hscan : scan (text ++ quote :: (tail ++ [ch ';'])).length (tail ++ [ch ';']) =
      some ((tail ++ [ch ';']).map .char) := by
    have h := scan_chars hend (text.length + 1) []
    rw [List.append_nil] at h
    rw [List.length_append, List.length_cons,
      show text.length + ((tail ++ [ch ';']).length + 1) =
        (tail ++ [ch ';']).length + (text.length + 1) by omega, h]
    simp [scan]
  have hmem : ∀ l : Str, ch ';' ∉ l → Token.char (ch ';') ∉ l.map .char := by
    intro l hl hm
    obtain ⟨c, hcl, he⟩ := List.mem_map.mp hm
    cases he
    exact hl hcl
  have hcut : Token.char (ch ';') ∉ head.map .char ++ .literal text :: tail.map .char := by
    rw [List.mem_append, List.mem_cons, not_or, not_or]
    exact ⟨hmem head hs, nofun, hmem tail hc⟩
  refine ⟨head.map .char ++ .literal text :: tail.map .char, ?_, ?_, ?_⟩
  · rw [tokens_literal hh, readLiteral_plain ht hhead, Option.bind_some]
    dsimp only
    rw [hscan, Option.map_some, Option.map_some, List.map_append, statements,
      show head.map Token.char ++ .literal text :: (tail.map .char ++ [ch ';'].map .char) =
        head.map .char ++ .literal text :: tail.map .char ++ .char (ch ';') :: [] by simp,
      List.splitOn_append_cons_self_of_not_mem hcut]
    have hb : blank (head.map .char ++ .literal text :: tail.map .char) = false := by
      simp [blank]
    have hnil : ([] : List Token).splitOn (.char (ch ';')) = [[]] := rfl
    rw [hnil, List.filter_cons, hb]
    rfl
  · exact (hsel.map Token.char).trans (List.prefix_append _ _)
  · rw [literals_append, literals_chars]
    exact congrArg (text :: ·) (literals_chars tail)

/-- Where the one literal is the text put between the quotes, the text has no apostrophe. -/
theorem plain_of_selectsBy {head text tail : Str} (hh : quote ∉ head) (hq : quote ∉ tail)
    (h : SelectsBy (head ++ quote :: (text ++ quote :: tail)) text) : quote ∉ text := by
  obtain ⟨st, hst, -, hl⟩ := h
  obtain ⟨ts, hts, hstm⟩ := Option.map_eq_some_iff.mp hst
  rw [tokens_literal hh, Option.bind_eq_some_iff] at hts
  obtain ⟨⟨lit, rest⟩, hr, hts⟩ := hts
  obtain ⟨us, -, rfl⟩ := Option.map_eq_some_iff.mp hts
  have hall := literals_statements (head.map .char ++ .literal lit :: us)
  rw [hstm, List.flatMap_singleton, hl, literals_append, literals_chars] at hall
  obtain rfl : text = lit := (List.cons.inj hall).1
  exact plain_of_readLiteral hq hr

end SpiderSearch.SqlText
