import Mathlib.Data.Int.Init
import Mathlib.Tactic.SplitIfs

namespace SpiderSearch.CppTypes

/-- A `std::string` is a sequence of bytes. -/
abbrev Str := List UInt8

/-- The bytes of a literal of the source, which is UTF-8. -/
def str (s : String) : Str := s.toList.flatMap String.utf8EncodeChar

instance decidableMemStr (s : Str) (l : List Str) : Decidable (s ∈ l) :=
  List.instDecidableMemOfLawfulBEq s l

def ch (c : Char) : UInt8 := c.toNat.toUInt8

def intMin : Int := -2147483648

def intMax : Int := 2147483647

/-- The value a 32-bit `int` holds after an operation whose exact result is `x`. -/
def wrapInt (x : Int) : Int := Int.bmod x 4294967296

theorem wrapInt_of_range {x : Int} (hl : intMin ≤ x) (hu : x ≤ intMax) : wrapInt x = x := by
  rw [intMin] at hl
  rw [intMax] at hu
  exact Int.bmod_eq_of_le (by omega) (by omega)

theorem wrapInt_add (x y : Int) : wrapInt (wrapInt x + y) = wrapInt (x + y) :=
  Int.bmod_add_bmod

/-- `std::string::size_type` has 64 bits. -/
def sizeTypeModulus : Nat := 18446744073709551616

def npos : Nat := sizeTypeModulus - 1

/-- Addition and subtraction of `size_type` values. -/
def sizeAdd (a b : Nat) : Nat := (a + b) % sizeTypeModulus

def sizeSub (a b : Nat) : Nat := (a + (sizeTypeModulus - b)) % sizeTypeModulus

/-- `s.find(c, pos)`. -/
def find (s : Str) (c : UInt8) (pos : Nat) : Nat :=
  match (s.drop pos).findIdx? (· == c) with
  | some i => pos + i
  | none => npos

/-- `s.substr(pos, len)`, `none` where it throws `std::out_of_range`. -/
def substr (s : Str) (pos len : Nat) : Option Str :=
  if pos ≤ s.length then some ((s.drop pos).take len) else none

/-- `s.substr(pos)`. -/
def substrFrom (s : Str) (pos : Nat) : Option Str :=
  if pos ≤ s.length then some (s.drop pos) else none

def letters : Str := str "abcdefghijklmnopqrstuvwxyzABCDEFGHIJKLMNOPQRSTUVWXYZ"

def isAlpha (s : UInt8) : Bool := letters.contains s

/-- `std::tolower` in the "C" locale. -/
def tolower (c : UInt8) : UInt8 := if 65 ≤ c ∧ c ≤ 90 then c + 32 else c

/-- `std::isspace` in the "C" locale: what a formatted read skips. -/
def isSpace (c : UInt8) : Bool := c == ch ' ' || (9 ≤ c && c ≤ 13)

def toLower (value : Str) : Str := value.map tolower

example : toLower (str "Hello+World") = str "hello+world" := by decide

theorem toNat_of_mem_letters : ∀ c ∈ letters,
    65 ≤ c.toNat ∧ c.toNat ≤ 90 ∨ 97 ≤ c.toNat ∧ c.toNat ≤ 122 := by
  decide +kernel

theorem letters_complete : ∀ n < 26,
    UInt8.ofNat (65 + n) ∈ letters ∧ UInt8.ofNat (97 + n) ∈ letters := by
  decide +kernel

/-- The letters are two blocks of the ASCII table. -/
theorem isAlpha_iff (c : UInt8) : isAlpha c = true ↔
    65 ≤ c.toNat ∧ c.toNat ≤ 90 ∨ 97 ≤ c.toNat ∧ c.toNat ≤ 122 := by
  have block : ∀ k, k ≤ c.toNat → UInt8.ofNat (k + (c.toNat - k)) = c := by
    intro k hk
    rw [Nat.add_sub_cancel' hk, UInt8.ofNat_toNat]
  rw [isAlpha, List.contains_iff_mem]
  apply Iff.intro
  · exact toNat_of_mem_letters c
  · rintro (⟨hl, hu⟩ | ⟨hl, hu⟩)
    · rw [← block 65 hl]
      exact (letters_complete _ (by omega)).1
    · rw [← block 97 hl]
      exact (letters_complete _ (by omega)).2

theorem toNat_tolower (c : UInt8) :
    (tolower c).toNat = if 65 ≤ c.toNat ∧ c.toNat ≤ 90 then c.toNat + 32 else c.toNat := by
  simp only [tolower, UInt8.le_iff_toNat_le]
  change (if 65 ≤ c.toNat ∧ c.toNat ≤ 90 then c + 32 else c).toNat = _
  split_ifs with h
  · have hu : c.toNat + 32 < 256 := by omega
    rw [UInt8.toNat_add]
    exact Nat.mod_eq_of_lt hu
  · rfl

theorem isAlpha_tolower (c : UInt8) : isAlpha (tolower c) = isAlpha c := by
  rw [Bool.eq_iff_iff, isAlpha_iff, isAlpha_iff, toNat_tolower]
  split_ifs with h
  · omega
  · exact Iff.rfl

theorem tolower_tolower (c : UInt8) : tolower (tolower c) = tolower c := by
  apply UInt8.toNat_inj.mp
  simp only [toNat_tolower]
  split_ifs <;> omega

end SpiderSearch.CppTypes
