import Mathlib.Data.List.Chain
import SpiderSearch.Hrefs
import SpiderSearch.Keyword

namespace SpiderSearch.RequestText

open CppTypes Hrefs Keyword

theorem firstOccurrences_addPieces (pieces : List Str) {before result : List Str}
    (h : FirstOccurrences before result) :
    FirstOccurrences (before ++ pieces.filter accepted) (addPieces pieces result) := by
  induction pieces generalizing before result with
  | nil => simpa [addPieces] using h
  | cons sub_str pieces ih =>
    rw [addPieces, List.foldl_cons, ← addPieces, addKeyword]
    by_cases ha : accepted sub_str = true
    · rw [List.filter_cons_of_pos ha, List.append_cons]
      by_cases hin : sub_str ∈ result
      · rw [if_neg fun hn => hn.2 hin]
        exact ih (h.seen hin)
      · rw [if_pos ⟨ha, hin⟩]
        exact ih (h.new hin)
    · rw [List.filter_cons_of_neg ha, if_neg fun hn => ha hn.1]
      exact ih h

/-- The keywords are the words of letters between the separators, each one where it first occurs. -/
theorem getKeyword_pieces (value : Str) (hlen : value.length < npos) :
    ∃ ks, getKeyword value = some ks ∧
      FirstOccurrences (((toLower value).splitOn (ch '+')).filter accepted) ks := by
  refine ⟨_, getKeyword_eq hlen, ?_⟩
  have h : FirstOccurrences ([] : List Str) [] := ⟨.nil, fun x => Iff.rfl, .nil⟩
  exact firstOccurrences_addPieces ((toLower value).splitOn (ch '+')) h

theorem two_words_pieces : ∃ ks, getKeyword (str "+Spider++web") = some ks ∧
    FirstOccurrences (((toLower (str "+Spider++web")).splitOn (ch '+')).filter accepted) ks :=
  getKeyword_pieces (str "+Spider++web") (by decide)

def isHex (c : UInt8) : Bool := (48 ≤ c && c ≤ 57) || (65 ≤ c && c ≤ 70) || (97 ≤ c && c ≤ 102)

def hexValue (c : UInt8) : Nat :=
  if c ≤ 57 then c.toNat - 48 else if c ≤ 70 then c.toNat - 55 else c.toNat - 87

def ofDigits (digits : Str) : Nat := digits.foldl (fun n c => 16 * n + hexValue c) 0

/-- What a read leaves behind: the value, if it stored one, the state of the stream and its rest. -/
structure Extracted where
  hex : Option Int
  good : Bool
  rest : Str

/-- An optional sign, which is a minus or not. -/
def skipSign : Str → Bool × Str
  | [] => (false, [])
  | c :: s => if c = ch '-' then (true, s) else if c = ch '+' then (false, s) else (false, c :: s)

def skipPrefix : Str → Str
  | a :: b :: s => if a = ch '0' ∧ (b = ch 'x' ∨ b = ch 'X') then s else a :: b :: s
  | s => s

/-- `iss >> std::hex >> hex`: at the end nothing is stored, and without digits it is 0. -/
def readHex (iss : Str) : Extracted :=
  let s := iss.dropWhile isSpace
  if s = [] then ⟨none, false, []⟩
  else
    let digits := (skipPrefix (skipSign s).2).takeWhile isHex
    let rest := (skipPrefix (skipSign s).2).dropWhile isHex
    if digits = [] then ⟨some 0, false, rest⟩
    else
      let x : Int := if (skipSign s).1 then -ofDigits digits else ofDigits digits
      if x < intMin then ⟨some intMin, false, rest⟩
      else if intMax < x then ⟨some intMax, false, rest⟩
      else ⟨some x, true, rest⟩

theorem readHex_rest (iss : Str) : (readHex iss).rest.length ≤ iss.length := by
  have hsign : ∀ s, (skipSign s).2.length ≤ s.length := by
    intro s
    cases s with
    | nil => exact le_rfl
    | cons c s =>
      rw [skipSign]
      split_ifs <;> simp
  have hskip : ∀ s, (skipPrefix s).length ≤ s.length := by
    intro s
    rw [skipPrefix.eq_def]
    split
    · split_ifs
      · exact (List.suffix_append [_, _] _).length_le
      · exact le_rfl
    · exact le_rfl
  have hspace := (iss.dropWhile_suffix isSpace).length_le
  have hrest : ((skipPrefix (skipSign (iss.dropWhile isSpace)).2).dropWhile isHex).length ≤
      iss.length :=
    ((List.dropWhile_suffix isHex).length_le.trans (hskip _)).trans ((hsign _).trans hspace)
  rw [readHex]
  dsimp only
  split_ifs
  all_goals first | exact Nat.zero_le _ | exact hrest

/-- `urlDecode(encoded)`; `unset` is what the variable holds where nothing is stored into it. -/
def urlDecode (unset : Int) (encoded : Str) : Str :=
  match encoded with
  | [] => []
  | c :: iss =>
    if c = ch '%' then
      UInt8.ofInt ((readHex iss).hex.getD unset) ::
        (if (readHex iss).good then urlDecode unset (readHex iss).rest else [])
    else c :: urlDecode unset iss
termination_by encoded.length
decreasing_by
  · exact Nat.lt_succ_of_le (readHex_rest iss)
  · exact Nat.lt_succ_self _

theorem isHex_iff (c : UInt8) : isHex c = true ↔ 48 ≤ c.toNat ∧ c.toNat ≤ 57 ∨
    65 ≤ c.toNat ∧ c.toNat ≤ 70 ∨ 97 ≤ c.toNat ∧ c.toNat ≤ 102 := by
  simp only [isHex, Bool.or_eq_true, Bool.and_eq_true, decide_eq_true_eq, UInt8.le_iff_toNat_le,
    or_assoc]
  rfl

theorem ne_of_isHex {c d : UInt8} (hc : isHex c = true) (hd : isHex d = false) : c ≠ d := by
  rintro rfl
  rw [hc] at hd
  cases hd

theorem isSpace_of_isHex {c : UInt8} (h : isHex c = true) : isSpace c = false := by
  have hn : ¬ (9 ≤ c.toNat ∧ c.toNat ≤ 13) := by
    have := (isHex_iff c).mp h
    omega
  rw [isSpace, Bool.or_eq_false_iff]
  refine ⟨beq_eq_false_iff_ne.mpr (ne_of_isHex h (by decide)), ?_⟩
  rw [Bool.and_eq_false_iff, decide_eq_false_iff_not, decide_eq_false_iff_not,
    UInt8.le_iff_toNat_le, UInt8.le_iff_toNat_le]
  exact not_and_or.mp hn

theorem hexValue_lt {c : UInt8} (h : isHex c = true) : hexValue c < 16 := by
  have hc := (isHex_iff c).mp h
  simp only [hexValue, UInt8.le_iff_toNat_le]
  change (if c.toNat ≤ 57 then c.toNat - 48 else if c.toNat ≤ 70 then c.toNat - 55
    else c.toNat - 87) < 16
  split_ifs <;> omega

theorem ofInt_natCast (n : Nat) : UInt8.ofInt n = UInt8.ofNat n := by
  have hn : ((n : Int) % 2 ^ 8).toNat = n % UInt8.size := by
    rw [UInt8.size]
    omega
  rw [UInt8.ofInt, hn, UInt8.ofNat_mod_size]

theorem ofDigits_pair (hi lo : UInt8) : ofDigits [hi, lo] = 16 * hexValue hi + hexValue lo := by
  rw [ofDigits, List.foldl_cons, List.foldl_cons, List.foldl_nil, Nat.mul_zero, Nat.zero_add]

/-- Behind two digits a read takes all the digits that follow. -/
theorem readHex_digits {hi lo : UInt8} (hhi : isHex hi = true) (hlo : isHex lo = true) (s : Str) :
    readHex (hi :: lo :: s) =
      if intMax < ofDigits (hi :: lo :: s.takeWhile isHex) then
        ⟨some intMax, false, s.dropWhile isHex⟩
      else ⟨some (ofDigits (hi :: lo :: s.takeWhile isHex)), true, s.dropWhile isHex⟩ := by
  have hspace : (hi :: lo :: s).dropWhile isSpace = hi :: lo :: s :=
    List.dropWhile_cons_of_neg (by rw [isSpace_of_isHex hhi]; decide)
  have hsign : skipSign (hi :: lo :: s) = (false, hi :: lo :: s) := by
    rw [skipSign, if_neg (ne_of_isHex hhi (by decide)), if_neg (ne_of_isHex hhi (by decide))]
  have hskip : skipPrefix (hi :: lo :: s) = hi :: lo :: s := by
    rw [skipPrefix, if_neg]
    rintro ⟨-, h | h⟩
    · exact ne_of_isHex hlo (by decide) h
    · exact ne_of_isHex hlo (by decide) h
  have hmin : ∀ n : Nat, ¬ (n : Int) < intMin := by
    intro n
    rw [intMin]
    omega
  rw [readHex, hspace]
  dsimp only
  rw [hsign, if_neg (List.cons_ne_nil _ _)]
  dsimp only
  rw [hskip, List.takeWhile_cons_of_pos hhi, List.takeWhile_cons_of_pos hlo,
    List.dropWhile_cons_of_pos hhi, List.dropWhile_cons_of_pos hlo,
    if_neg (List.cons_ne_nil _ _), if_neg Bool.false_ne_true, if_neg (hmin _)]

/-- A byte of an encoding, as it is or as an escape. -/
inductive Piece where
  | plain (b : UInt8) (hb : b ≠ ch '%')
  | escaped (hi lo : UInt8) (hhi : isHex hi = true) (hlo : isHex lo = true)

namespace Piece

def text : Piece → Str
  | plain b _ => [b]
  | escaped hi lo _ _ => [ch '%', hi, lo]

def byte : Piece → UInt8
  | plain b _ => b
  | escaped hi lo _ _ => UInt8.ofNat (16 * hexValue hi + hexValue lo)

def isEscaped : Piece → Bool
  | plain _ _ => false
  | escaped _ _ _ _ => true

/-- The byte is left as it is and looks like a digit. -/
def isDigit : Piece → Bool
  | plain b _ => isHex b
  | escaped _ _ _ _ => false

end Piece

open Piece

def encoding (ps : List Piece) : Str := ps.flatMap text

theorem takeWhile_encoding {p : Piece} (hp : p.isDigit = false) (ps : List Piece) :
    (encoding (p :: ps)).takeWhile isHex = [] ∧
      (encoding (p :: ps)).dropWhile isHex = encoding (p :: ps) := by
  cases p with
  | plain b hb =>
    have hn : ¬ isHex b = true := by
      rw [isDigit] at hp
      rw [hp]
      exact Bool.false_ne_true
    exact ⟨List.takeWhile_cons_of_neg hn, List.dropWhile_cons_of_neg hn⟩
  | escaped hi lo hhi hlo =>
    have hn : ¬ isHex (ch '%') = true := by decide
    exact ⟨List.takeWhile_cons_of_neg hn, List.dropWhile_cons_of_neg hn⟩

theorem dropWhile_encoding (ps : List Piece) :
    (encoding ps).dropWhile isHex = encoding (ps.dropWhile isDigit) := by
  induction ps with
  | nil => rfl
  | cons p ps ih =>
    cases hp : p.isDigit with
    | false =>
      rw [(takeWhile_encoding hp ps).2, List.dropWhile_cons_of_neg (by rw [hp]; decide)]
    | true =>
      rw [List.dropWhile_cons_of_pos hp, ← ih]
      cases p with
      | plain b hb => exact List.dropWhile_cons_of_pos hp
      | escaped hi lo hhi hlo => cases hp

theorem urlDecode_plain (unset : Int) {b : UInt8} (hb : b ≠ ch '%') (s : Str) :
    urlDecode unset (b :: s) = b :: urlDecode unset s := by
  rw [urlDecode, if_neg hb]

/-- An escape gives one byte, after which the decoder ends or goes on behind all the digits. -/
theorem urlDecode_escape (unset : Int) {hi lo : UInt8} (hhi : isHex hi = true)
    (hlo : isHex lo = true) (s : Str) :
    ∃ b tail, urlDecode unset (ch '%' :: hi :: lo :: s) = b :: tail ∧
      (tail = [] ∨ tail = urlDecode unset (s.dropWhile isHex)) := by
  rw [urlDecode, if_pos rfl, readHex_digits hhi hlo]
  by_cases hm : intMax < ofDigits (hi :: lo :: s.takeWhile isHex)
  · rw [if_pos hm]
    exact ⟨_, _, rfl, .inl (if_neg Bool.false_ne_true)⟩
  · rw [if_neg hm]
    exact ⟨_, _, rfl, .inr (if_pos rfl)⟩

theorem urlDecode_exact (unset : Int) {hi lo : UInt8} (hhi : isHex hi = true)
    (hlo : isHex lo = true) {s : Str} (hs : s.takeWhile isHex = []) (hs' : s.dropWhile isHex = s) :
    urlDecode unset (ch '%' :: hi :: lo :: s) =
      UInt8.ofNat (16 * hexValue hi + hexValue lo) :: urlDecode unset s := by
  have hmax : ¬ intMax < ((16 * hexValue hi + hexValue lo : Nat) : Int) := by
    have := hexValue_lt hhi
    have := hexValue_lt hlo
    rw [intMax]
    omega
  rw [urlDecode, if_pos rfl, readHex_digits hhi hlo, hs, hs', ofDigits_pair, if_neg hmax, if_pos rfl,
    Option.getD_some, ofInt_natCast]

/-- A piece that no digit follows is decoded on its own. -/
theorem urlDecode_cons (unset : Int) (p : Piece) {ps : List Piece}
    (h : p.isEscaped = true → ∀ q ∈ ps.head?, q.isDigit = false) :
    urlDecode unset (encoding (p :: ps)) = p.byte :: urlDecode unset (encoding ps) := by
  cases p with
  | plain b hb => exact urlDecode_plain unset hb (encoding ps)
  | escaped hi lo hhi hlo =>
    cases ps with
    | nil => exact urlDecode_exact unset hhi hlo rfl rfl
    | cons q ps =>
      obtain ⟨ht, hd⟩ := takeWhile_encoding (h rfl q rfl) ps
      exact urlDecode_exact unset hhi hlo ht hd

/-- The decoder gives at most one byte for a piece. -/
theorem urlDecode_length (unset : Int) (ps : List Piece) :
    (urlDecode unset (encoding ps)).length ≤ ps.length := by
  induction hn : ps.length using Nat.strong_induction_on generalizing ps with
  | _ n ih =>
    cases ps with
    | nil =>
      rw [encoding, List.flatMap_nil, urlDecode]
      exact Nat.zero_le _
    | cons p ps =>
      rw [List.length_cons] at hn
      have hps := ih ps.length (by omega) ps rfl
      cases p with
      | plain b hb =>
        have hu : urlDecode unset (encoding (plain b hb :: ps)) = b :: urlDecode unset (encoding ps) :=
          urlDecode_plain unset hb (encoding ps)
        rw [hu, List.length_cons]
        omega
      | escaped hi lo hhi hlo =>
        obtain ⟨b, tail, hu, ht⟩ := urlDecode_escape unset hhi hlo (encoding ps)
        have hu : urlDecode unset (encoding (escaped hi lo hhi hlo :: ps)) = b :: tail := hu
        rw [hu, List.length_cons]
        obtain rfl | rfl := ht
        · rw [List.length_nil]
          omega
        · have hd := (ps.dropWhile_suffix isDigit).length_le
          have := ih _ (by omega) (ps.dropWhile isDigit) rfl
          rw [dropWhile_encoding]
          omega

/-- A digit behind an escape is lost. -/
theorem urlDecode_lost (unset : Int) {p q : Piece} (hp : p.isEscaped = true)
    (hq : q.isDigit = true) (ps : List Piece) :
    (urlDecode unset (encoding (p :: q :: ps))).length < (p :: q :: ps).length := by
  cases p with
  | plain b hb => cases hp
  | escaped hi lo hhi hlo =>
    obtain ⟨b, tail, hu, ht⟩ := urlDecode_escape unset hhi hlo (encoding (q :: ps))
    have hu : urlDecode unset (encoding (escaped hi lo hhi hlo :: q :: ps)) = b :: tail := hu
    rw [hu, List.length_cons, List.length_cons, List.length_cons]
    obtain rfl | rfl := ht
    · exact Nat.succ_lt_succ (Nat.succ_pos _)
    · have := urlDecode_length unset (ps.dropWhile isDigit)
      have := (ps.dropWhile_suffix isDigit).length_le
      rw [dropWhile_encoding, List.dropWhile_cons_of_pos hq]
      omega

/-- The bytes of an encoding come back exactly when no escape stands before a byte that is left as
it is and looks like a digit. -/
theorem urlDecode_iff (unset : Int) (ps : List Piece) :
    urlDecode unset (encoding ps) = ps.map byte ↔
      ps.IsChain fun p q => p.isEscaped = true → q.isDigit = false := by
  induction ps with
  | nil =>
    rw [encoding, List.flatMap_nil, urlDecode]
    exact iff_of_true rfl .nil
  | cons p ps ih =>
    rw [List.isChain_cons, ← ih, List.map_cons]
    by_cases h : p.isEscaped = true → ∀ q ∈ ps.head?, q.isDigit = false
    · rw [urlDecode_cons unset p h, List.cons.injEq, and_iff_right rfl]
      exact (and_iff_right fun q hq hp => h hp q hq).symm
    · refine iff_of_false ?_ fun hc => h fun hp q hq => hc.1 q hq hp
      obtain ⟨hp, hall⟩ := Classical.not_imp.mp h
      cases ps with
      | nil => exact absurd nofun hall
      | cons q ps =>
        have hq : q.isDigit = true := by
          by_contra hq
          exact hall fun r hr => by
            rw [← Option.some.inj hr]
            exact Bool.eq_false_iff.mpr hq
        intro he
        have hlt := urlDecode_lost unset hp hq ps
        rw [he, List.length_cons, List.length_map] at hlt
        exact absurd hlt (lt_irrefl _)

/-- The letter behind an escape is read as a third digit. -/
theorem letter_lost : ¬ ∀ (unset : Int) (ps : List Piece),
    urlDecode unset (encoding ps) = ps.map byte := by
  intro h
  have hlt := urlDecode_lost 0 (p := escaped (ch '4') (ch '1') (by decide) (by decide))
    (q := plain (ch 'b') (by decide)) rfl (by decide) []
  rw [h, List.length_map] at hlt
  exact absurd hlt (lt_irrefl _)

end SpiderSearch.RequestText
