import Mathlib.Data.List.MinMax
import Mathlib.Data.List.TakeWhile
import SpiderSearch.CppTypes

namespace SpiderSearch.HtmlText

open CppTypes

/-- What a tokenizer reads as one character: the character itself, a character reference, or a NUL
of an attribute value, which it replaces. -/
inductive Piece where
  | char (c : UInt8)
  | reference (name : Str)
  | replacement
  deriving DecidableEq

/-- `comment` stands for declarations too, and `dropped` for what is read without a token: `</>`,
and a tag in which the text ends. -/
inductive Token where
  | text (piece : Piece)
  | startTag (name : Str) (attrs : List (Str × List Piece))
  | endTag (name : Str)
  | comment
  | dropped
  deriving DecidableEq

def blank (c : UInt8) : Bool := c == ch ' ' || c == ch '\n' || c == ch '\t' || c == 12

def digit (c : UInt8) : Bool := 48 ≤ c && c ≤ 57

def hexDigit (c : UInt8) : Bool := digit c || (65 ≤ c && c ≤ 70) || (97 ≤ c && c ≤ 102)

/-- Every line ends with a line feed. -/
def normalize : Str → Str
  | [] => []
  | c :: s =>
    if c = ch '\r' then if s.head? = some (ch '\n') then normalize s else ch '\n' :: normalize s
    else c :: normalize s

theorem normalize_of_notMem {s : Str} (h : ch '\r' ∉ s) : normalize s = s := by
  induction s with
  | nil => rfl
  | cons c s ih =>
    rw [List.mem_cons, not_or] at h
    rw [normalize, if_neg (Ne.symm h.1), ih h.2]

section Reference

def closed (name rest : Str) : Str :=
  if rest.head? = some (ch ';') then name ++ [ch ';'] else name

def digitsReference (isDigit : UInt8 → Bool) (before t : Str) : Option Str :=
  if t.takeWhile isDigit = [] then none
  else some (closed (before ++ t.takeWhile isDigit) (t.dropWhile isDigit))

def numericReference : Str → Option Str
  | x :: y :: t =>
    if x ≠ ch '#' then none
    else if y = ch 'x' ∨ y = ch 'X' then digitsReference hexDigit [x, y] t
    else digitsReference digit [x] (y :: t)
  | _ => none

variable (names : List Str)

/-- The longest name that fits. Without its semicolon a name is no reference in an attribute value
where it seems to go on. -/
def namedReference (attr : Bool) (s : Str) : Option Str :=
  match (names.filter fun name => name.isPrefixOf s).argmax List.length with
  | none => none
  | some name =>
    if attr ∧ name.getLast? ≠ some (ch ';') ∧
        ((s.drop name.length).head?.any fun c => c == ch '=' || isAlpha c || digit c) then none
    else some name

/-- The character reference behind an ampersand. `names` are the names that the standard lists,
which consist of letters, digits and semicolons. -/
def reference (attr : Bool) (s : Str) : Option Str :=
  (numericReference (s.takeWhile (· ≠ ch '<'))).or
    (namedReference names attr (s.takeWhile (· ≠ ch '<')))

def readPiece (attr : Bool) (c : UInt8) (s : Str) : Piece × Str :=
  if c = ch '&' then
    match reference names attr s with
    | some name => (.reference name, s.drop name.length)
    | none => (.char c, s)
  else if attr ∧ c = 0 then (.replacement, s)
  else (.char c, s)

def pieces : Nat → Str → List Piece
  | _, [] => []
  | 0, _ :: _ => []
  | fuel + 1, c :: s => (readPiece names true c s).1 :: pieces fuel (readPiece names true c s).2

/-- The text of an attribute value. -/
def value (s : Str) : List Piece := pieces names s.length s

end Reference

section Tag

variable (names : List Str)

def tagChar (c : UInt8) : Bool := !blank c && c != ch '/' && c != ch '>'

def nameChar (c : UInt8) : Bool := tagChar c && c != ch '='

def bareChar (c : UInt8) : Bool := !blank c && c != ch '>'

def quotedValue (q : UInt8) (s : Str) : Option (List Piece × Str) :=
  match s.dropWhile (· ≠ q) with
  | [] => none
  | _ :: rest => some (value names (s.takeWhile (· ≠ q)), rest)

/-- The value behind the name of an attribute, `none` where the text ends. -/
def attrValue (s : Str) : Option (List Piece × Str) :=
  match s.dropWhile blank with
  | [] => none
  | c :: t =>
    if c ≠ ch '=' then some ([], c :: t)
    else
      match t.dropWhile blank with
      | [] => none
      | d :: u =>
        if d = ch '"' ∨ d = ch '\'' then quotedValue names d u
        else if d = ch '>' then some ([], d :: u)
        else some (value names ((d :: u).takeWhile bareChar), (d :: u).dropWhile bareChar)

/-- An attribute that is there already is ignored. -/
def addAttr (name : Str) (v : List Piece) (found : List (Str × List Piece)) :
    List (Str × List Piece) :=
  if name ∈ found.map Prod.fst then found else found ++ [(name, v)]

def readAttrs : Nat → Str → List (Str × List Piece) → Option (List (Str × List Piece) × Str)
  | 0, _, _ => none
  | fuel + 1, s, found =>
    match s.dropWhile fun c => blank c || c == ch '/' with
    | [] => none
    | c :: t =>
      if c = ch '>' then some (found, t)
      else
        match attrValue names (t.dropWhile nameChar) with
        | none => none
        | some (v, rest) =>
          readAttrs fuel rest (addAttr (toLower (c :: t.takeWhile nameChar)) v found)

def readTag (make : Str → List (Str × List Piece) → Token) (s : Str) : Token × Str :=
  match readAttrs names s.length (s.dropWhile tagChar) [] with
  | none => (.dropped, [])
  | some (found, rest) => (make (toLower (s.takeWhile tagChar)) found, rest)

end Tag

def afterBogus (s : Str) : Str := (s.dropWhile (· ≠ ch '>')).drop 1

def afterComment : Str → Str
  | [] => []
  | c :: s =>
    if (str "-->").isPrefixOf (c :: s) then s.drop 2
    else if (str "--!>").isPrefixOf (c :: s) then s.drop 3
    else afterComment s

/-- What follows a comment or a declaration, read from behind its exclamation mark. -/
def afterDeclaration : Str → Str
  | a :: b :: t =>
    if a = ch '-' ∧ b = ch '-' then
      if (str ">").isPrefixOf t then t.drop 1
      else if (str "->").isPrefixOf t then t.drop 2
      else afterComment t
    else afterBogus (a :: b :: t)
  | s => afterBogus s

variable (names : List Str)

/-- What follows `</`. -/
def readEndTag (s : Str) : Token × Str :=
  match s with
  | [] => (.text (.char (ch '<')), [ch '/'])
  | e :: u =>
    if isAlpha e then readTag names (fun name _ => .endTag name) (e :: u)
    else if e = ch '>' then (.dropped, u)
    else (.comment, afterBogus (e :: u))

/-- What follows `<`. -/
def readMarkup (s : Str) : Token × Str :=
  match s with
  | [] => (.text (.char (ch '<')), [])
  | d :: t =>
    if isAlpha d then readTag names .startTag (d :: t)
    else if d = ch '/' then readEndTag names t
    else if d = ch '!' then (.comment, afterDeclaration t)
    else if d = ch '?' then (.comment, afterBogus (d :: t))
    else (.text (.char (ch '<')), d :: t)

/-- One token of a text that starts with `c`, and what follows it. -/
def next (c : UInt8) (s : Str) : Token × Str :=
  if c = ch '<' then readMarkup names s
  else (.text (readPiece names false c s).1, (readPiece names false c s).2)

section Length

variable {names}

theorem readPiece_length (attr : Bool) (c : UInt8) (s : Str) :
    (readPiece names attr c s).2.length ≤ s.length := by
  rw [readPiece]
  split_ifs
  · split
    · rw [List.length_drop]
      omega
    · exact le_rfl
  · exact le_rfl
  · exact le_rfl

theorem attrValue_length {s r : Str} {v : List Piece} (h : attrValue names s = some (v, r)) :
    r.length ≤ s.length := by
  rw [attrValue] at h
  have h₁ := List.length_dropWhile_le blank s
  cases hs : s.dropWhile blank with
  | nil => simp [hs] at h
  | cons c t =>
    rw [hs] at h h₁
    have h₂ := List.length_dropWhile_le blank t
    dsimp only at h
    split_ifs at h with hc
    · cases h
      exact h₁
    · cases ht : t.dropWhile blank with
      | nil => simp [ht] at h
      | cons d u =>
        rw [ht] at h h₂
        rw [List.length_cons] at h₁ h₂
        dsimp only at h
        split_ifs at h with hd hd'
        · rw [quotedValue] at h
          have h₃ := List.length_dropWhile_le (fun x => decide (x ≠ d)) u
          cases hu : u.dropWhile fun x => decide (x ≠ d) with
          | nil =>
            rw [hu] at h
            cases h
          | cons x rest =>
            rw [hu] at h h₃
            cases h
            rw [List.length_cons] at h₃
            omega
        · cases h
          rw [List.length_cons]
          omega
        · cases h
          have h₃ := List.length_dropWhile_le bareChar (d :: u)
          rw [List.length_cons] at h₃
          omega

theorem readAttrs_length {fuel : Nat} {s r : Str} {found l : List (Str × List Piece)}
    (h : readAttrs names fuel s found = some (l, r)) : r.length ≤ s.length := by
  induction fuel generalizing s found with
  | zero => cases h
  | succ fuel ih =>
    rw [readAttrs] at h
    have h₁ := List.length_dropWhile_le (fun c => blank c || c == ch '/') s
    cases hs : s.dropWhile fun c => blank c || c == ch '/' with
    | nil => simp [hs] at h
    | cons c t =>
      rw [hs] at h h₁
      rw [List.length_cons] at h₁
      dsimp only at h
      split_ifs at h with hc
      · cases h
        omega
      · have h₂ := List.length_dropWhile_le nameChar t
        cases hv : attrValue names (t.dropWhile nameChar) with
        | none => simp [hv] at h
        | some vr =>
          obtain ⟨v, rest⟩ := vr
          rw [hv] at h
          have h₃ := attrValue_length hv
          have h₄ := ih h
          omega

theorem readTag_length (make : Str → List (Str × List Piece) → Token) (s : Str) :
    (readTag names make s).2.length ≤ s.length := by
  rw [readTag]
  split
  · exact Nat.zero_le _
  next found rest h =>
    exact (readAttrs_length h).trans (List.length_dropWhile_le tagChar s)

theorem afterBogus_length (s : Str) : (afterBogus s).length ≤ s.length := by
  rw [afterBogus, List.length_drop]
  exact (Nat.sub_le _ _).trans (List.length_dropWhile_le _ s)

theorem afterComment_length (s : Str) : (afterComment s).length ≤ s.length := by
  induction s with
  | nil => exact le_rfl
  | cons c s ih =>
    rw [afterComment]
    split_ifs
    · rw [List.length_drop, List.length_cons]
      omega
    · rw [List.length_drop, List.length_cons]
      omega
    · exact ih.trans (Nat.le_succ _)

theorem afterDeclaration_length (s : Str) : (afterDeclaration s).length ≤ s.length := by
  rw [afterDeclaration.eq_def]
  split
  next a b t =>
    have h := afterComment_length t
    split_ifs
    · rw [List.length_drop, List.length_cons, List.length_cons]
      omega
    · rw [List.length_drop, List.length_cons, List.length_cons]
      omega
    · rw [List.length_cons, List.length_cons]
      omega
    · exact afterBogus_length _
  · exact afterBogus_length _

theorem readMarkup_length (s : Str) : (readMarkup names s).2.length ≤ s.length := by
  rw [readMarkup.eq_def]
  split
  · exact le_rfl
  next d t =>
    have ht : (readEndTag names t).2.length ≤ t.length + 1 := by
      rw [readEndTag.eq_def]
      split
      · exact le_rfl
      next e u =>
        split_ifs
        · exact (readTag_length _ _).trans (Nat.le_succ _)
        · exact (Nat.le_succ _).trans (Nat.le_succ _)
        · exact (afterBogus_length _).trans (Nat.le_succ _)
    split_ifs
    · exact readTag_length _ _
    · exact ht
    · exact (afterDeclaration_length t).trans (Nat.le_succ _)
    · exact afterBogus_length _
    · exact le_rfl

theorem next_length (c : UInt8) (s : Str) : (next names c s).2.length ≤ s.length := by
  rw [next]
  split_ifs
  · exact readMarkup_length s
  · exact readPiece_length false c s

end Length

/-- The tokens of a text. -/
def tokens : Str → List Token
  | [] => []
  | c :: s => (next names c s).1 :: tokens (next names c s).2
termination_by s => s.length
decreasing_by
  exact Nat.lt_succ_of_le (next_length c s)

end SpiderSearch.HtmlText
