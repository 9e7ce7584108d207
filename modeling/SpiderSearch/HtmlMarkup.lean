import SpiderSearch.HtmlText
import SpiderSearch.LetterRuns

namespace SpiderSearch.HtmlMarkup

open CppTypes HtmlText

variable {names : List Str}

theorem tokens_nil : tokens names [] = [] := by
  rw [tokens]

theorem tokens_cons (c : UInt8) (s : Str) :
    tokens names (c :: s) = (next names c s).1 :: tokens names (next names c s).2 := by
  rw [tokens]

section Plain

theorem readPiece_char {attr : Bool} {c d : UInt8} {s : Str}
    (h : (readPiece names attr c s).1 = .char d) :
    readPiece names attr c s = (.char c, s) ∧ (c = ch '&' → reference names attr s = none) ∧
      (attr = true → c ≠ 0) := by
  rw [readPiece] at h ⊢
  split_ifs at h ⊢ with hc ha
  · cases hr : reference names attr s with
    | none =>
      refine ⟨rfl, fun _ => rfl, fun _ => ?_⟩
      rw [hc]
      decide
    | some name => simp [hr] at h
  · exact ⟨rfl, fun he => absurd he hc, fun h1 h2 => ha ⟨h1, h2⟩⟩

theorem readPiece_of_plain {attr : Bool} {c : UInt8} {s : Str}
    (hr : c = ch '&' → reference names attr s = none) (ha : attr = true → c ≠ 0) :
    readPiece names attr c s = (.char c, s) := by
  rw [readPiece]
  split_ifs with hc hz
  · rw [hr hc]
  · exact absurd hz.2 (ha hz.1)
  · rfl

theorem pieces_length (fuel : Nat) (s : Str) : (pieces names fuel s).length ≤ s.length := by
  induction fuel generalizing s with
  | zero => cases s <;> simp [pieces]
  | succ fuel ih =>
    cases s with
    | nil => simp [pieces]
    | cons c s =>
      rw [pieces, List.length_cons, List.length_cons]
      exact Nat.succ_le_succ ((ih _).trans (readPiece_length true c s))

/-- A value reads as itself when it has no NUL and no character reference. -/
theorem pieces_eq_iff {fuel : Nat} {s : Str} (hf : s.length ≤ fuel) :
    pieces names fuel s = s.map .char ↔
      0 ∉ s ∧ ∀ b, ch '&' :: b <:+ s → reference names true b = none := by
  induction s generalizing fuel with
  | nil => simp [pieces]
  | cons c s ih =>
    obtain ⟨n, rfl⟩ : ∃ n, fuel = n + 1 := ⟨fuel - 1, by rw [List.length_cons] at hf; omega⟩
    have hn : s.length ≤ n := by rwa [List.length_cons, Nat.add_le_add_iff_right] at hf
    rw [pieces, List.map_cons, List.cons.injEq]
    apply Iff.intro
    · rintro ⟨hhead, htail⟩
      obtain ⟨he, hr, ha⟩ := readPiece_char hhead
      rw [he] at htail
      obtain ⟨hz, href⟩ := (ih hn).mp htail
      refine ⟨fun hm => ?_, fun b hb => ?_⟩
      · obtain h0 | hm := List.mem_cons.mp hm
        · exact ha rfl h0.symm
        · exact hz hm
      · obtain hb | hb := List.suffix_cons_iff.mp hb
        · obtain ⟨rfl, rfl⟩ := List.cons.inj hb
          exact hr rfl
        · exact href b hb
    · rintro ⟨hz, href⟩
      rw [List.mem_cons, not_or] at hz
      have he : readPiece names true c s = (.char c, s) :=
        readPiece_of_plain (fun hc => href s (hc ▸ List.suffix_rfl)) fun _ => Ne.symm hz.1
      rw [he]
      exact ⟨rfl, (ih hn).mpr ⟨hz.2, fun b hb => href b (hb.trans (List.suffix_cons c s))⟩⟩

theorem value_eq_iff {s : Str} : value names s = s.map .char ↔
    0 ∉ s ∧ ∀ b, ch '&' :: b <:+ s → reference names true b = none :=
  pieces_eq_iff le_rfl

end Plain

section Text

/-- What stands behind a `<` that starts a tag, a comment or a declaration. -/
def opens (s : Str) : Bool :=
  s.head?.any fun d => isAlpha d || d == ch '/' || d == ch '!' || d == ch '?'

theorem takeWhile_open (u z : Str) :
    (u ++ ch '<' :: z).takeWhile (· ≠ ch '<') = u.takeWhile (· ≠ ch '<') := by
  induction u with
  | nil => simp
  | cons c u ih =>
    rw [List.cons_append, List.takeWhile_cons, List.takeWhile_cons, ih]

theorem reference_open (attr : Bool) (u z : Str) :
    reference names attr (u ++ ch '<' :: z) = reference names attr u := by
  rw [reference, reference, takeWhile_open]

theorem readTag_ne_text {make : Str → List (Str × List Piece) → Token} {p : Piece}
    (h : ∀ name attrs, make name attrs ≠ .text p) (s : Str) :
    (readTag names make s).1 ≠ .text p := by
  rw [readTag]
  split
  · simp
  · exact h _ _

theorem readEndTag_ne_text {e : UInt8} {u : Str} {p : Piece} :
    (readEndTag names (e :: u)).1 ≠ .text p := by
  rw [readEndTag]
  split_ifs
  · exact readTag_ne_text (fun _ _ => by simp) _
  · simp
  · simp

/-- In front of more markup a `<` is text exactly when it opens nothing. -/
theorem readMarkup_text {u z : Str} :
    (readMarkup names (u ++ ch '<' :: z)).1 = .text (.char (ch '<')) ↔ opens u = false := by
  cases u with
  | nil =>
    have ha : isAlpha (ch '<') = false := by decide
    rw [List.nil_append, readMarkup, if_neg (by rw [ha]; decide), if_neg (by decide),
      if_neg (by decide), if_neg (by decide)]
    exact ⟨fun _ => rfl, fun _ => rfl⟩
  | cons d t =>
    obtain ⟨e, w, hw⟩ : ∃ e w, t ++ ch '<' :: z = e :: w := by
      cases t with
      | nil => exact ⟨_, _, rfl⟩
      | cons e t => exact ⟨_, _, rfl⟩
    rw [List.cons_append, readMarkup, hw]
    split_ifs with h1 h2 h3 h4
    · exact ⟨fun h => absurd h (readTag_ne_text (fun _ _ => by simp) _),
        fun h => by simp [opens, h1] at h⟩
    · exact ⟨fun h => absurd h readEndTag_ne_text, fun h => by simp [opens, h2] at h⟩
    · exact ⟨fun h => by simp at h, fun h => by simp [opens, h3] at h⟩
    · exact ⟨fun h => by simp at h, fun h => by simp [opens, h4] at h⟩
    · exact ⟨fun _ => by simp [opens, h1, h2, h3, h4], fun _ => rfl⟩

theorem opens_append (u z : Str) : opens (u ++ ch '<' :: z) = opens u := by
  cases u with
  | nil => rfl
  | cons d t => rfl

theorem readMarkup_rest {s : Str} (hs : opens s = false) : (readMarkup names s).2 = s := by
  cases s with
  | nil => rfl
  | cons d t =>
    simp only [opens, List.head?_cons, Option.any_some, Bool.or_eq_false_iff,
      beq_eq_false_iff_ne] at hs
    obtain ⟨⟨⟨h1, h2⟩, h3⟩, h4⟩ := hs
    rw [readMarkup, if_neg (by simp [h1]), if_neg h2, if_neg h3, if_neg h4]

end Text

section Run

/-- Text in front of markup reads as itself, character by character, when nothing in it opens a tag
or is a character reference. -/
theorem tokens_text_iff {u z : Str} {ts : List Token} :
    tokens names (u ++ ch '<' :: z) = u.map (fun c => .text (.char c)) ++ ts ↔
      ((∀ b, ch '<' :: b <:+ u → opens b = false) ∧
        ∀ b, ch '&' :: b <:+ u → reference names false b = none) ∧
      tokens names (ch '<' :: z) = ts := by
  induction u with
  | nil => simp
  | cons c u ih =>
    rw [List.cons_append, tokens_cons, List.map_cons, List.cons_append, List.cons.injEq]
    apply Iff.intro
    · rintro ⟨hhead, htail⟩
      have hnext : (next names c (u ++ ch '<' :: z)).2 = u ++ ch '<' :: z ∧
          (c = ch '<' → opens u = false) ∧ (c = ch '&' → reference names false u = none) := by
        rw [next] at hhead ⊢
        split_ifs at hhead ⊢ with hc
        · rw [hc] at hhead
          have ho := readMarkup_text.mp hhead
          exact ⟨readMarkup_rest (by rw [opens_append, ho]), fun _ => ho,
            fun he => absurd (hc.symm.trans he) (by decide)⟩
        · obtain ⟨he, hr, -⟩ := readPiece_char (Token.text.inj hhead)
          rw [he]
          exact ⟨rfl, fun he => absurd he hc, fun h => by rw [← hr h, reference_open]⟩
      rw [hnext.1] at htail
      obtain ⟨⟨hopen, href⟩, hts⟩ := ih.mp htail
      refine ⟨⟨fun b hb => ?_, fun b hb => ?_⟩, hts⟩
      · obtain hb | hb := List.suffix_cons_iff.mp hb
        · obtain ⟨rfl, rfl⟩ := List.cons.inj hb
          exact hnext.2.1 rfl
        · exact hopen b hb
      · obtain hb | hb := List.suffix_cons_iff.mp hb
        · obtain ⟨rfl, rfl⟩ := List.cons.inj hb
          exact hnext.2.2 rfl
        · exact href b hb
    · rintro ⟨⟨hopen, href⟩, hts⟩
      have hnext : next names c (u ++ ch '<' :: z) = (.text (.char c), u ++ ch '<' :: z) := by
        rw [next]
        split_ifs with hc
        · subst hc
          have ho := hopen u List.suffix_rfl
          have hm : (readMarkup names (u ++ ch '<' :: z)).1 = .text (.char (ch '<')) :=
            readMarkup_text.mpr ho
          exact Prod.ext hm (readMarkup_rest (by rw [opens_append, ho]))
        · have hr : c = ch '&' → reference names false (u ++ ch '<' :: z) = none := by
            intro h
            rw [reference_open]
            exact href u (h ▸ List.suffix_rfl)
          rw [readPiece_of_plain hr (by simp)]
      rw [hnext]
      refine ⟨rfl, ih.mpr ⟨⟨fun b hb => ?_, fun b hb => ?_⟩, hts⟩⟩
      · exact hopen b (hb.trans (List.suffix_cons c u))
      · exact href b (hb.trans (List.suffix_cons c u))

end Run

section Tags

/-- A name that a tokenizer reads as it is written. -/
def tagName (name : Str) : Bool :=
  name.all tagChar && toLower name == name && name.head?.any isAlpha

def attrName (name : Str) : Bool :=
  name.all nameChar && toLower name == name && name.head?.any isAlpha

theorem tagName_spec {name : Str} (h : tagName name = true) :
    (∀ c ∈ name, tagChar c = true) ∧ toLower name = name ∧
      ∃ c t, name = c :: t ∧ isAlpha c = true := by
  simp only [tagName, Bool.and_eq_true, List.all_eq_true, beq_iff_eq] at h
  obtain ⟨⟨hall, hlow⟩, hhead⟩ := h
  cases name with
  | nil => cases hhead
  | cons c t => exact ⟨hall, hlow, c, t, rfl, hhead⟩

theorem next_start {name : Str} (h : tagName name = true) (s : Str) :
    next names (ch '<') (name ++ s) = readTag names .startTag (name ++ s) := by
  obtain ⟨-, -, c, t, rfl, hc⟩ := tagName_spec h
  rw [next, if_pos rfl, List.cons_append, readMarkup, if_pos hc]

theorem next_end {name : Str} (h : tagName name = true) (s : Str) :
    next names (ch '<') (ch '/' :: (name ++ s)) =
      readTag names (fun name _ => .endTag name) (name ++ s) := by
  obtain ⟨-, -, c, t, rfl, hc⟩ := tagName_spec h
  have hs : isAlpha (ch '/') = false := by decide
  rw [next, if_pos rfl, readMarkup, if_neg (by rw [hs]; decide), if_pos rfl, List.cons_append,
    readEndTag, if_pos hc]

theorem readTag_eq {make : Str → List (Str × List Piece) → Token} {name r : Str} {c : UInt8}
    (h : tagName name = true) (hc : tagChar c = false) :
    readTag names make (name ++ c :: r) =
      ((readAttrs names (name ++ c :: r).length (c :: r) []).map fun p => (make name p.1, p.2)).getD
        (.dropped, []) := by
  obtain ⟨hall, hlow, -⟩ := tagName_spec h
  rw [readTag, List.takeWhile_append_of_pos hall, List.dropWhile_append_of_pos hall,
    List.takeWhile_cons_of_neg (by simp [hc]), List.dropWhile_cons_of_neg (by simp [hc]),
    List.append_nil, hlow]
  cases readAttrs names (name ++ c :: r).length (c :: r) [] with
  | none => rfl
  | some p => rfl

theorem readAttrs_close (n : Nat) (r : Str) (found : List (Str × List Piece)) :
    readAttrs names (n + 1) (ch '>' :: r) found = some (found, r) := by
  rw [readAttrs, List.dropWhile_cons_of_neg (by decide)]
  exact if_pos rfl

theorem readTag_close {make : Str → List (Str × List Piece) → Token} {name : Str}
    (h : tagName name = true) (r : Str) :
    readTag names make (name ++ ch '>' :: r) = (make name [], r) := by
  have hl : (name ++ ch '>' :: r).length = name.length + r.length + 1 := by
    rw [List.length_append, List.length_cons, Nat.add_assoc]
  rw [readTag_eq h (by decide), hl, readAttrs_close, Option.map_some, Option.getD_some]

/-- The attributes found first stay first. -/
theorem readAttrs_found {fuel : Nat} {s r : Str} {found l : List (Str × List Piece)}
    (h : readAttrs names fuel s found = some (l, r)) : found <+: l := by
  induction fuel generalizing s found with
  | zero => cases h
  | succ fuel ih =>
    rw [readAttrs] at h
    split at h
    · cases h
    · split_ifs at h
      · cases h
        exact List.prefix_rfl
      · split at h
        · cases h
        · have hp := ih h
          rw [addAttr] at hp
          split_ifs at hp
          · exact hp
          · exact (List.prefix_append _ _).trans hp

theorem attrValue_quoted {sep : Str} (hs : sep = str "=" ∨ sep = str " = ") (w : Str) :
    attrValue names (sep ++ ch '"' :: w) = quotedValue names (ch '"') w := by
  obtain rfl | rfl := hs <;> rfl

theorem readAttrs_quoted {attr sep : Str} (ha : attrName attr = true)
    (hs : sep = str "=" ∨ sep = str " = ") (n : Nat) (w : Str) :
    readAttrs names (n + 1) (ch ' ' :: (attr ++ (sep ++ ch '"' :: w))) [] =
      (quotedValue names (ch '"') w).bind fun p => readAttrs names n p.2 [(attr, p.1)] := by
  simp only [attrName, Bool.and_eq_true, List.all_eq_true, beq_iff_eq] at ha
  obtain ⟨⟨hall, hlow⟩, hhead⟩ := ha
  cases attr with
  | nil => cases hhead
  | cons c t =>
    have hc : nameChar c = true := hall c List.mem_cons_self
    have ht : ∀ x ∈ t, nameChar x = true := fun x hx => hall x (List.mem_cons_of_mem c hx)
    have hblank : (blank c || c == ch '/') = false := by
      simp only [nameChar, tagChar, Bool.and_eq_true, Bool.not_eq_true', bne_iff_ne] at hc
      simp [hc]
    have hgt : c ≠ ch '>' := by
      simp only [nameChar, tagChar, Bool.and_eq_true, bne_iff_ne] at hc
      exact hc.1.2
    have hsep : ∃ x y, sep ++ ch '"' :: w = x :: y ∧ nameChar x = false := by
      obtain rfl | rfl := hs
      · exact ⟨_, _, rfl, by decide⟩
      · exact ⟨_, _, rfl, by decide⟩
    obtain ⟨x, y, hxy, hx⟩ := hsep
    rw [readAttrs, List.dropWhile_cons_of_pos (by decide), List.cons_append,
      List.dropWhile_cons_of_neg (by simpa using hblank)]
    dsimp only
    rw [if_neg hgt, List.takeWhile_append_of_pos ht, List.dropWhile_append_of_pos ht, hxy,
      List.takeWhile_cons_of_neg (by simp [hx]), List.dropWhile_cons_of_neg (by simp [hx]), ← hxy,
      attrValue_quoted hs, List.append_nil, hlow]
    cases quotedValue names (ch '"') w with
    | none => rfl
    | some p => rfl

theorem quotedValue_append {v : Str} (h : ch '"' ∉ v) (r : Str) :
    quotedValue names (ch '"') (v ++ ch '"' :: r) = some (value names v, r) := by
  obtain ⟨htake, hdrop⟩ := LetterRuns.takeWhile_ne h r
  rw [quotedValue, hdrop, htake]

/-- A tag with one attribute in quotes has the value up to the next quote. -/
theorem next_valued {name attr sep : Str} (hn : tagName name = true) (ha : attrName attr = true)
    (hs : sep = str "=" ∨ sep = str " = ") {v : Str} (hv : ch '"' ∉ v) (r : Str) :
    (∀ l, (next names (ch '<') (name ++ ch ' ' :: (attr ++ (sep ++ ch '"' :: (v ++ ch '"' :: r))))).1 =
      .startTag name [(attr, l)] → l = value names v) ∧
    ∀ r', r = ch '>' :: r' →
      next names (ch '<') (name ++ ch ' ' :: (attr ++ (sep ++ ch '"' :: (v ++ ch '"' :: r)))) =
        (.startTag name [(attr, value names v)], r') := by
  obtain ⟨n, hn'⟩ : ∃ n, (name ++ ch ' ' :: (attr ++ (sep ++ ch '"' :: (v ++ ch '"' :: r)))).length =
      n + 1 + 1 := ⟨_, by
    rw [List.length_append, List.length_cons, List.length_append, List.length_append,
      List.length_cons]
    exact (by omega : name.length + (attr.length + (sep.length + ((v ++ ch '"' :: r).length + 1)) + 1) =
      name.length + attr.length + sep.length + (v ++ ch '"' :: r).length + 1 + 1)⟩
  rw [next_start hn, readTag_eq hn (by decide), hn', readAttrs_quoted ha hs, quotedValue_append hv,
    Option.bind_some]
  apply And.intro
  · intro l hl
    cases hr : readAttrs names (n + 1) r [(attr, value names v)] with
    | none => simp [hr] at hl
    | some found =>
      have hp := readAttrs_found (l := found.1) (r := found.2) hr
      simp only [hr, Option.map_some, Option.getD_some, Token.startTag.injEq] at hl
      rw [hl.2] at hp
      obtain ⟨t, ht⟩ := hp
      simpa [eq_comm] using (List.cons.inj ht).1
  · rintro r' rfl
    rw [readAttrs_close, Option.map_some, Option.getD_some]

end Tags

/-- Parts of a page as its author means them. -/
inductive Markup where
  | opening (name : Str)
  | valued (name attr sep value : Str)
  | closing (name : Str)
  | text (s : Str)
  deriving DecidableEq

namespace Markup

/-- The parts as they are printed, with nothing escaped. -/
def render : Markup → Str
  | .opening name => ch '<' :: (name ++ [ch '>'])
  | .valued name attr sep value =>
    ch '<' :: (name ++ ch ' ' :: (attr ++ (sep ++ ch '"' :: (value ++ [ch '"', ch '>']))))
  | .closing name => ch '<' :: ch '/' :: (name ++ [ch '>'])
  | .text s => s

/-- The tokens that the parts stand for. -/
def tokens : Markup → List Token
  | .opening name => [.startTag name []]
  | .valued name attr _ value => [.startTag name [(attr, value.map .char)]]
  | .closing name => [.endTag name]
  | .text s => s.map fun c => .text (.char c)

def valid : Markup → Bool
  | .opening name | .closing name => tagName name
  | .valued name attr sep _ => tagName name && attrName attr && (sep == str "=" || sep == str " = ")
  | .text _ => true

def isText : Markup → Bool
  | .text _ => true
  | _ => false

/-- Nothing in the part is read as other markup. -/
def Inert (names : List Str) : Markup → Prop
  | .opening _ | .closing _ => True
  | .valued _ _ _ value =>
    ch '"' ∉ value ∧ 0 ∉ value ∧ ∀ b, ch '&' :: b <:+ value → reference names true b = none
  | .text s =>
    (∀ b, ch '<' :: b <:+ s → opens b = false) ∧
      ∀ b, ch '&' :: b <:+ s → reference names false b = none

/-- Every text is followed by a tag. -/
def Framed : List Markup → Prop
  | [] => True
  | m :: ms => (m.isText = true → ∀ m' ∈ ms.head?, m'.isText = false) ∧ Framed ms

theorem Framed.append {ms ns : List Markup} (hm : Framed ms) (hn : Framed ns)
    (h : ∀ m ∈ ns.head?, m.isText = false) : Framed (ms ++ ns) := by
  induction ms with
  | nil => exact hn
  | cons m ms ih =>
    refine ⟨fun ht => ?_, ih hm.2⟩
    cases ms with
    | nil => exact h
    | cons m' ms => exact hm.1 ht

theorem render_open {m : Markup} (h : m.isText = false) : ∃ s, m.render = ch '<' :: s := by
  cases m with
  | text s => cases h
  | _ => exact ⟨_, rfl⟩

theorem render_list_open {ms : List Markup} (h : ∀ m ∈ ms.head?, m.isText = false) (z : Str) :
    ∃ s, ms.flatMap render ++ ch '<' :: z = ch '<' :: s := by
  cases ms with
  | nil => exact ⟨z, rfl⟩
  | cons m ms =>
    obtain ⟨s, hs⟩ := render_open (h m rfl)
    exact ⟨_, by rw [List.flatMap_cons, hs, List.append_assoc]; rfl⟩

theorem tokens_opening {name : Str} (h : tagName name = true) (r : Str) :
    HtmlText.tokens names ((opening name).render ++ r) = .startTag name [] :: HtmlText.tokens names r := by
  rw [render, List.cons_append, List.append_assoc, tokens_cons, List.singleton_append, next_start h,
    readTag_close h]

theorem tokens_closing {name : Str} (h : tagName name = true) (r : Str) :
    HtmlText.tokens names ((closing name).render ++ r) = .endTag name :: HtmlText.tokens names r := by
  rw [render, List.cons_append, List.cons_append, List.append_assoc, tokens_cons,
    List.singleton_append, next_end h, readTag_close h]

theorem tokens_valued_iff {name attr sep v : Str} (h : (valued name attr sep v).valid = true)
    {r : Str} {ts : List Token} :
    HtmlText.tokens names ((valued name attr sep v).render ++ r) =
        .startTag name [(attr, v.map .char)] :: ts ↔
      (valued name attr sep v).Inert names ∧ HtmlText.tokens names r = ts := by
  simp only [valid, Bool.and_eq_true, Bool.or_eq_true, beq_iff_eq] at h
  obtain ⟨⟨hn, ha⟩, hs⟩ := h
  have hr : (valued name attr sep v).render ++ r =
      ch '<' :: (name ++ ch ' ' :: (attr ++ (sep ++ ch '"' :: (v ++ ch '"' :: ch '>' :: r)))) := by
    simp [render]
  rw [hr, tokens_cons, List.cons.injEq]
  by_cases hq : ch '"' ∈ v
  · obtain ⟨v₁, v₂, rfl, hv₁⟩ := List.eq_append_cons_of_mem hq
    refine ⟨fun ⟨hhead, _⟩ => ?_, fun ⟨hi, _⟩ => absurd hq hi.1⟩
    rw [List.append_assoc, List.cons_append] at hhead
    -- the value ends at its first quote
    have hl := congrArg List.length ((next_valued hn ha hs hv₁ _).1 _ hhead)
    have hle : (pieces names v₁.length v₁).length ≤ v₁.length := pieces_length _ _
    rw [List.length_map, value, List.length_append, List.length_cons] at hl
    omega
  · rw [(next_valued hn ha hs hq _).2 r rfl]
    have hv : value names v = v.map .char ↔ _ := value_eq_iff
    apply Iff.intro
    · rintro ⟨hhead, hts⟩
      have he : value names v = v.map .char := by simpa using hhead
      exact ⟨⟨hq, hv.mp he⟩, hts⟩
    · rintro ⟨⟨-, hi⟩, hts⟩
      exact ⟨by rw [hv.mpr hi], hts⟩

/-- A page is read as it is meant exactly when each of its parts is inert. -/
theorem tokens_render_iff {ms : List Markup} (hv : ∀ m ∈ ms, m.valid = true) (hf : Framed ms)
    {z : Str} {ts : List Token} :
    HtmlText.tokens names (ms.flatMap render ++ ch '<' :: z) = ms.flatMap Markup.tokens ++ ts ↔
      (∀ m ∈ ms, m.Inert names) ∧ HtmlText.tokens names (ch '<' :: z) = ts := by
  induction ms with
  | nil => simp
  | cons m ms ih =>
    have hm := hv m List.mem_cons_self
    have hrest := ih (fun m' h => hv m' (List.mem_cons_of_mem m h)) hf.2
    rw [List.flatMap_cons, List.flatMap_cons, List.append_assoc, List.append_assoc,
      List.forall_mem_cons, and_assoc, ← hrest]
    cases m with
    | opening name =>
      rw [tokens_opening hm]
      simp [Markup.tokens, Inert]
    | closing name =>
      rw [tokens_closing hm]
      simp [Markup.tokens, Inert]
    | valued name attr sep v => exact tokens_valued_iff hm
    | text s =>
      obtain ⟨w, hw⟩ := render_list_open (hf.1 rfl) z
      rw [hw]
      exact tokens_text_iff

/-- Text without the characters that markup is made of. -/
def plain : Markup → Bool
  | .opening _ | .closing _ => true
  | .valued _ _ _ value => decide (ch '"' ∉ value ∧ 0 ∉ value ∧ ch '&' ∉ value)
  | .text s => decide (ch '<' ∉ s ∧ ch '&' ∉ s)

theorem inert_of_plain {m : Markup} (h : m.plain = true) : m.Inert names := by
  cases m with
  | opening name => trivial
  | closing name => trivial
  | valued name attr sep v =>
    obtain ⟨hq, hz, hr⟩ := of_decide_eq_true h
    exact ⟨hq, hz, fun b hb => absurd (hb.subset List.mem_cons_self) hr⟩
  | text s =>
    obtain ⟨ho, hr⟩ := of_decide_eq_true h
    exact ⟨fun b hb => absurd (hb.subset List.mem_cons_self) ho,
      fun b hb => absurd (hb.subset List.mem_cons_self) hr⟩

end Markup

end SpiderSearch.HtmlMarkup
