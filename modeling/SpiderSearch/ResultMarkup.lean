import SpiderSearch.FindUrl
import SpiderSearch.HtmlMarkup
import SpiderSearch.SearchResults

namespace SpiderSearch.ResultMarkup

open CppTypes DbClient Keyword HttpServer SearchTotals SearchResults HtmlText HtmlMarkup Tables

/-- The digits of a number, and its sign. -/
def numeral (c : Char) : Prop := c = '-' ∨ c.isDigit = true

theorem numeral_of_mem {n : Int} {c : Char} (h : c ∈ (toString n).toList) : numeral c := by
  have digits : ∀ m : Nat, c ∈ m.repr.toList → numeral c := by
    intro m hm
    rw [Nat.repr, String.toList_ofList] at hm
    exact .inr (Nat.isDigit_of_mem_toDigits (by decide) (by decide) hm)
  cases n with
  | ofNat m => exact digits m h
  | negSucc m =>
    have h' : c ∈ ("-" ++ m.succ.repr).toList := h
    rw [String.toList_append, List.mem_append] at h'
    obtain h' | h' := h'
    · exact .inl (by simpa using h')
    · exact digits _ h'

theorem toNat_of_numeral {c : Char} (h : numeral c) : 45 ≤ c.toNat ∧ c.toNat ≤ 57 := by
  obtain rfl | h := h
  · decide
  · obtain ⟨hl, hu⟩ := Char.isDigit_iff_toNat.mp h
    have h0 : '0'.toNat = 48 := rfl
    have h9 : '9'.toNat = 57 := rfl
    omega

theorem encode_of_numeral {c : Char} (h : numeral c) :
    String.utf8EncodeChar c = [UInt8.ofNat c.toNat] := by
  have hn : c.val.toNat ≤ 57 := (toNat_of_numeral h).2
  rw [String.utf8EncodeChar]
  exact if_pos (by omega)

theorem byte_of_numeral {c : Char} (h : numeral c) :
    (UInt8.ofNat c.toNat).toNat = c.toNat := by
  rw [UInt8.toNat_ofNat']
  exact Nat.mod_eq_of_lt (by have := (toNat_of_numeral h).2; omega)

/-- The bytes of a printed total are the characters of its numeral. -/
theorem bytes_of_total (n : Int) {b : UInt8} (h : b ∈ str (toString n)) :
    45 ≤ b.toNat ∧ b.toNat ≤ 57 := by
  obtain ⟨c, hc, hb⟩ := List.mem_flatMap.mp h
  have hn := numeral_of_mem hc
  rw [encode_of_numeral hn, List.mem_singleton] at hb
  rw [hb, byte_of_numeral hn]
  exact toNat_of_numeral hn

def decode (s : Str) : String := String.ofList (s.map fun b => Char.ofNat b.toNat)

theorem decode_total (n : Int) : decode (str (toString n)) = toString n := by
  have h : ∀ cs : List Char, (∀ c ∈ cs, numeral c) →
      (cs.flatMap String.utf8EncodeChar).map (fun b => Char.ofNat b.toNat) = cs := by
    intro cs hcs
    induction cs with
    | nil => rfl
    | cons c cs ih =>
      have hc := hcs c List.mem_cons_self
      rw [List.flatMap_cons, encode_of_numeral hc, List.map_append, List.map_singleton,
        byte_of_numeral hc, Char.ofNat_toNat, ih fun c' h' => hcs c' (List.mem_cons_of_mem c h')]
      rfl
  rw [decode, str, h _ fun c hc => numeral_of_mem hc, String.ofList_toList]

section Page

def element (name : String) : Markup := .opening (str name)

def closing (name : String) : Markup := .closing (str name)

def newline : Markup := .text (str "\n")

def headMarkup : List Markup :=
  [element "html", newline, element "head", .valued (str "meta") (str "charset") (str "=") (str "UTF-8"),
    element "title", .text (str "WEB Search"), closing "title", closing "head", newline,
    element "body", newline, element "h1", .text (str "Search"), closing "h1", newline,
    element "p", .text (str "Response:"), element "p", newline, element "table", newline]

/-- A row of the table: a link with its URL as target and text, and the total. -/
def rowMarkup (row : Int × Str) : List Markup :=
  [element "tr", newline, element "td", .valued (str "a") (str "href") (str " = ") row.2,
    .text row.2, closing "a", closing "td", newline, element "td", .text (str (toString row.1)),
    closing "td", newline, closing "tr", newline]

def tailMarkup : List Markup := [closing "table", newline, closing "body", newline]

def pageMarkup (rows : List (Int × Str)) : List Markup :=
  headMarkup ++ rows.flatMap rowMarkup ++ tailMarkup ++ [closing "html", newline]

def pageTokens (rows : List (Int × Str)) : List Token := (pageMarkup rows).flatMap Markup.tokens

theorem tableRow_eq (row : Int × Str) : tableRow row = (rowMarkup row).flatMap Markup.render := by
  simp only [tableRow, rowMarkup, element, closing, newline, List.flatMap_cons, List.flatMap_nil,
    Markup.render, List.append_assoc, List.cons_append, List.append_nil]
  rfl

theorem page_eq (rows : List (Int × Str)) :
    pageHead ++ (str "<p>Response:<p>\n<table>\n" ++ rows.flatMap tableRow ++ str "</table>\n") ++ pageTail =
      (pageMarkup rows).flatMap Markup.render := by
  have hhead : headMarkup.flatMap Markup.render = pageHead ++ str "<p>Response:<p>\n<table>\n" := by
    decide +kernel
  have htail : (tailMarkup ++ [closing "html", newline]).flatMap Markup.render =
      str "</table>\n" ++ pageTail := by
    decide +kernel
  have hrows : rows.flatMap tableRow = (rows.flatMap rowMarkup).flatMap Markup.render := by
    rw [List.flatMap_assoc]
    exact List.flatMap_congr fun row _ => tableRow_eq row
  have hpage : pageMarkup rows =
      headMarkup ++ (rows.flatMap rowMarkup ++ (tailMarkup ++ [closing "html", newline])) := by
    rw [pageMarkup, List.append_assoc, List.append_assoc]
  rw [hpage, List.flatMap_append, List.flatMap_append, hhead, htail, hrows]
  simp only [List.append_assoc]

/-- `print_result` prints the parts of its page one after the other. -/
theorem print_result_body (searchResult : List (Int × Str)) {response : Response}
    (hb : response.body = []) : (print_result searchResult response).body =
      (pageMarkup (printed 10 searchResult)).flatMap Markup.render := by
  rw [← page_eq, print_result, htmlPage]
  simp only [hb, List.nil_append]

theorem head_valid : ∀ m ∈ headMarkup, m.valid = true := by decide +kernel

theorem tail_valid : ∀ m ∈ tailMarkup, m.valid = true := by decide +kernel

theorem row_valid (row : Int × Str) : ∀ m ∈ rowMarkup row, m.valid = true := by
  simp only [rowMarkup, List.forall_mem_cons]
  exact ⟨rfl, rfl, rfl, rfl, rfl, rfl, rfl, rfl, rfl, rfl, rfl, rfl, rfl, rfl, nofun⟩

theorem page_valid (rows : List (Int × Str)) :
    ∀ m ∈ headMarkup ++ rows.flatMap rowMarkup ++ tailMarkup, m.valid = true := by
  intro m hm
  obtain hm | hm := List.mem_append.mp hm
  · obtain hm | hm := List.mem_append.mp hm
    · exact head_valid m hm
    · obtain ⟨row, -, hm⟩ := List.mem_flatMap.mp hm
      exact row_valid row m hm
  · exact tail_valid m hm

theorem page_framed (rows : List (Int × Str)) :
    Markup.Framed (headMarkup ++ rows.flatMap rowMarkup ++ tailMarkup) := by
  have hhead : Markup.Framed headMarkup := by
    simp [Markup.Framed, headMarkup, Markup.isText, element, closing, newline]
  have htail : Markup.Framed tailMarkup := by
    simp [Markup.Framed, tailMarkup, Markup.isText, closing, newline]
  have hrow : ∀ row, Markup.Framed (rowMarkup row) := by
    intro row
    simp [Markup.Framed, rowMarkup, Markup.isText, element, closing, newline]
  have hrows : ∀ rows : List (Int × Str), Markup.Framed (rows.flatMap rowMarkup ++ tailMarkup) ∧
      ∀ m ∈ (rows.flatMap rowMarkup ++ tailMarkup).head?, m.isText = false := by
    intro rows
    induction rows with
    | nil => exact ⟨htail, fun m hm => by cases hm; rfl⟩
    | cons row rows ih =>
      rw [List.flatMap_cons, List.append_assoc]
      exact ⟨(hrow row).append ih.1 ih.2, fun m hm => by cases hm; rfl⟩
  rw [List.append_assoc]
  exact hhead.append (hrows rows).1 (hrows rows).2

/-- A URL that is read as it is written in both places where it is printed. -/
structure Inert (names : List Str) (url : Str) : Prop where
  quote : ch '"' ∉ url
  null : 0 ∉ url
  tag : ∀ b, ch '<' :: b <:+ url → opens b = false
  reference : ∀ attr b, ch '&' :: b <:+ url → reference names attr b = none

theorem inert_iff {names : List Str} {name attr sep url : Str} :
    (Markup.valued name attr sep url).Inert names ∧ (Markup.text url).Inert names ↔ Inert names url := by
  apply Iff.intro
  · rintro ⟨⟨hq, hz, hr⟩, ho, hr'⟩
    refine ⟨hq, hz, ho, fun attr b hb => ?_⟩
    cases attr with
    | true => exact hr b hb
    | false => exact hr' b hb
  · rintro ⟨hq, hz, ho, hr⟩
    exact ⟨⟨hq, hz, hr true⟩, ho, hr false⟩

theorem total_plain (n : Int) : (Markup.text (str (toString n))).plain = true := by
  refine decide_eq_true ⟨fun h => ?_, fun h => ?_⟩
  · exact absurd (bytes_of_total n h) (by decide)
  · exact absurd (bytes_of_total n h) (by decide)

theorem row_inert_iff {names : List Str} {row : Int × Str} :
    (∀ m ∈ rowMarkup row, m.Inert names) ↔ Inert names row.2 := by
  have hline : newline.Inert names := Markup.inert_of_plain (by decide)
  have htotal : (Markup.text (str (toString row.1))).Inert names :=
    Markup.inert_of_plain (total_plain row.1)
  have hopen : ∀ name, (element name).Inert names := fun _ => trivial
  have hclose : ∀ name, (closing name).Inert names := fun _ => trivial
  refine Iff.trans ?_ (inert_iff : (Markup.valued (str "a") (str "href") (str " = ") row.2).Inert names ∧ _ ↔ _)
  simp only [rowMarkup, List.forall_mem_cons, hline, htotal, hopen, hclose, true_and, List.not_mem_nil,
    false_imp_iff, implies_true, and_true]

theorem page_inert_iff {names : List Str} {rows : List (Int × Str)} :
    (∀ m ∈ headMarkup ++ rows.flatMap rowMarkup ++ tailMarkup, m.Inert names) ↔
      ∀ row ∈ rows, Inert names row.2 := by
  have hhead : ∀ m ∈ headMarkup, m.plain = true := by decide +kernel
  have htail : ∀ m ∈ tailMarkup, m.plain = true := by decide +kernel
  apply Iff.intro
  · intro h row hr
    refine row_inert_iff.mp fun m hm => h m ?_
    exact List.mem_append_left _ (List.mem_append_right _ (List.mem_flatMap.mpr ⟨row, hr, hm⟩))
  · intro h m hm
    obtain hm | hm := List.mem_append.mp hm
    · obtain hm | hm := List.mem_append.mp hm
      · exact Markup.inert_of_plain (hhead m hm)
      · obtain ⟨row, hr, hm⟩ := List.mem_flatMap.mp hm
        exact row_inert_iff.mpr (h row hr) m hm
    · exact Markup.inert_of_plain (htail m hm)

theorem end_tokens {names : List Str} :
    tokens names ([closing "html", newline].flatMap Markup.render) =
      [closing "html", newline].flatMap Markup.tokens := by
  have hname : tagName (str "html") = true := by decide
  have h : tokens names ((closing "html").render ++ str "\n") = .endTag (str "html") :: tokens names _ :=
    Markup.tokens_closing hname _
  have hline : tokens names (str "\n") = [.text (.char (ch '\n'))] := by
    have hs : str "\n" = [ch '\n'] := by decide
    have hp : readPiece names false (ch '\n') [] = (.char (ch '\n'), []) :=
      readPiece_of_plain (fun h => absurd h (by decide)) (by simp)
    rw [hs, tokens_cons, next, if_neg (by decide), hp, tokens_nil]
  rw [hline] at h
  exact h

/-- The page is read as it is meant exactly when each URL in it is inert. -/
theorem tokens_page_iff {names : List Str} {rows : List (Int × Str)} :
    tokens names ((pageMarkup rows).flatMap Markup.render) = pageTokens rows ↔
      ∀ row ∈ rows, Inert names row.2 := by
  have hrender : (pageMarkup rows).flatMap Markup.render =
      (headMarkup ++ rows.flatMap rowMarkup ++ tailMarkup).flatMap Markup.render ++
        ch '<' :: (str "/html>\n") := List.flatMap_append
  have htokens : pageTokens rows =
      (headMarkup ++ rows.flatMap rowMarkup ++ tailMarkup).flatMap Markup.tokens ++
        [closing "html", newline].flatMap Markup.tokens := List.flatMap_append
  have hend : tokens names (ch '<' :: str "/html>\n") =
      [closing "html", newline].flatMap Markup.tokens := end_tokens
  rw [hrender, htokens, Markup.tokens_render_iff (page_valid rows) (page_framed rows), page_inert_iff]
  exact ⟨And.left, fun h => ⟨h, hend⟩⟩

end Page

section Recover

/-- The texts of the table cells; the first argument is the text since the last cell began. -/
def cells : Str → List Token → List Str
  | _, [] => []
  | acc, .text (.char c) :: ts => cells (acc ++ [c]) ts
  | acc, .startTag name _ :: ts => if name = str "td" then cells [] ts else cells acc ts
  | acc, .endTag name :: ts => if name = str "td" then acc :: cells [] ts else cells acc ts
  | acc, _ :: ts => cells acc ts

/-- The cells of the table by twos: a URL and a total. -/
def pairs : List Str → List (Int × Str)
  | url :: total :: rest =>
    match (decode total).toInt? with
    | some n => (n, url) :: pairs rest
    | none => pairs rest
  | _ => []

def recover (ts : List Token) : List (Int × Str) := pairs (cells [] ts)

theorem cells_text (acc s : Str) (ts : List Token) :
    cells acc ((s.map fun c => .text (.char c)) ++ ts) = cells (acc ++ s) ts := by
  induction s generalizing acc with
  | nil => rw [List.map_nil, List.nil_append, List.append_nil]
  | cons c s ih =>
    rw [List.map_cons, List.cons_append, cells, ih, List.append_assoc]
    rfl

theorem cells_row (acc : Str) (row : Int × Str) (ts : List Token) :
    cells acc ((rowMarkup row).flatMap Markup.tokens ++ ts) =
      row.2 :: str (toString row.1) :: cells (str "\n" ++ str "\n") ts := by
  have htr : str "tr" ≠ str "td" := by decide
  have ha : str "a" ≠ str "td" := by decide
  simp only [rowMarkup, element, closing, newline, List.flatMap_cons, List.flatMap_nil, Markup.tokens,
    List.append_assoc, List.cons_append, List.nil_append, cells, cells_text, if_true, if_neg htr,
    if_neg ha]

theorem pairs_rows {tail : List Token} (ht : ∀ acc, cells acc tail = []) (rows : List (Int × Str))
    (acc : Str) :
    pairs (cells acc ((rows.flatMap rowMarkup).flatMap Markup.tokens ++ tail)) = rows := by
  induction rows generalizing acc with
  | nil =>
    rw [List.flatMap_nil, List.flatMap_nil, List.nil_append, ht]
    rfl
  | cons row rows ih =>
    have htotal : (decode (str (toString row.1))).toInt? = some row.1 := by
      rw [decode_total]
      exact Int.toInt?_repr row.1
    rw [List.flatMap_cons, List.flatMap_append, List.append_assoc, cells_row, pairs, htotal]
    dsimp only
    rw [ih]

/-- The list of results can be read off the tokens that the page is meant to have. -/
theorem recover_page (rows : List (Int × Str)) : recover (pageTokens rows) = rows := by
  have hpage : pageTokens rows = headMarkup.flatMap Markup.tokens ++
      ((rows.flatMap rowMarkup).flatMap Markup.tokens ++
        (tailMarkup ++ [closing "html", newline]).flatMap Markup.tokens) := by
    rw [pageTokens, pageMarkup, List.append_assoc, List.append_assoc, List.flatMap_append,
      List.flatMap_append]
  have hhead : ∀ ts, ∃ acc, cells [] (headMarkup.flatMap Markup.tokens ++ ts) = cells acc ts :=
    fun ts => ⟨_, rfl⟩
  rw [recover, hpage]
  obtain ⟨acc, hacc⟩ := hhead ((rows.flatMap rowMarkup).flatMap Markup.tokens ++
    (tailMarkup ++ [closing "html", newline]).flatMap Markup.tokens)
  rw [hacc]
  exact pairs_rows (fun acc => rfl) rows acc

end Recover

/-- A URL that `extractLink` has returned for some page. -/
def Produced (u : Str) : Prop :=
  ∃ html first link, Links.urlToLink first = .ok link ∧ FindUrl.SubLink html link u

theorem Produced.line {u : Str} (h : Produced u) : ch '\r' ∉ u := by
  obtain ⟨html, first, link, hl, links, hx, hu⟩ := h
  obtain ⟨href, rfl, hb⟩ := Parse.href_of_extractLink hx hu
  have hres := UrlKey.resolved_of_urlToLink hl
  have hdot : ∀ b ∈ Links.linkToURL (Links.urlToLinkFrom href link), Links.dot b = true :=
    UrlKey.forall_subLink (by decide +kernel) (fun b h => hres.line b (List.mem_append_left _ h))
      fun b h => (hb b h).2
  exact fun hm => absurd (hdot _ hm) (by decide)

theorem normalize_page {rows : List (Int × Str)} (h : ∀ row ∈ rows, ch '\r' ∉ row.2) :
    normalize ((pageMarkup rows).flatMap Markup.render) = (pageMarkup rows).flatMap Markup.render := by
  refine normalize_of_notMem ?_
  have hhead : ∀ m ∈ headMarkup ++ (tailMarkup ++ [closing "html", newline]), ch '\r' ∉ m.render := by
    decide +kernel
  have hrow : ∀ row ∈ rows, ch '\r' ∉ tableRow row := by
    intro row hr hm
    have htotal : ch '\r' ∉ str (toString row.1) := fun ht =>
      absurd (bytes_of_total row.1 ht) (by decide)
    have hurl := h row hr
    simp only [tableRow, List.mem_append, htotal, hurl, or_false] at hm
    exact absurd hm (by decide +kernel)
  intro hm
  obtain ⟨m, hm, hr⟩ := List.mem_flatMap.mp hm
  rw [pageMarkup, List.append_assoc, List.append_assoc, List.mem_append, List.mem_append] at hm
  obtain hm | hm | hm := hm
  · exact hhead m (List.mem_append_left _ hm) hr
  · obtain ⟨row, hrow', hm⟩ := List.mem_flatMap.mp hm
    refine hrow row hrow' ?_
    rw [tableRow_eq]
    exact List.mem_flatMap.mpr ⟨m, hm, hr⟩
  · exact hhead m (List.mem_append_right _ hm) hr

/-- The body is read as the page with these rows, and the rows can be recovered from it. -/
structure Recovered (names : List Str) (rows : List (Int × Str)) (body : Str) : Prop where
  read : tokens names (normalize body) = pageTokens rows
  rows : recover (tokens names (normalize body)) = rows

theorem recovered_iff {names : List Str} {searchResult : List (Int × Str)} {response : Response}
    (hb : response.body = []) (h : ∀ row ∈ printed 10 searchResult, ch '\r' ∉ row.2) :
    Recovered names (printed 10 searchResult) (print_result searchResult response).body ↔
      ∀ row ∈ printed 10 searchResult, Inert names row.2 := by
  rw [print_result_body searchResult hb, ← tokens_page_iff]
  apply Iff.intro
  · rintro ⟨ht, -⟩
    rwa [normalize_page h] at ht
  · intro ht
    have ht' := ht
    rw [← normalize_page h] at ht'
    exact ⟨ht', by rw [ht', recover_page]⟩

/-- A search that has results is answered with the page of the first ten of them. -/
theorem search_printed (db : Database) {value : Str} {ks : List Str} (hk : getKeyword value = some ks)
    (hc : ∃ u, Candidate db ks u) :
    ∃ searchResult, resultRows (getUrl db) ks = .ok (printed 10 searchResult) ∧
      printed 10 searchResult ≠ [] ∧ (∀ row ∈ printed 10 searchResult, row.2 ∈ db.urlTexts) ∧
      ∀ request response, request.target = str "/" → request.body = str "search=" ++ value →
        createResponsePost (getUrl db) request response = .ok (print_result searchResult response) := by
  obtain ⟨m, ranked, hm, -, hmem, hsort, hsize⟩ := search_ranked db (getKeyword_nodup hk)
  obtain ⟨u, hu⟩ := hc
  have hne : ranked ≠ [] := List.ne_nil_of_mem ((hmem u).mpr hu)
  refine ⟨dbResultSort m, ?_, ?_, ?_, ?_⟩
  · rw [resultRows, hm]
    rfl
  · rw [printed_ten, hsort]
    simp [hne]
  · intro row hrow
    rw [printed_ten, hsort] at hrow
    obtain ⟨v, hv, rfl⟩ := List.mem_map.mp (List.mem_of_mem_take hrow)
    obtain ⟨k, -, q, hs⟩ := (hmem v).mp hv
    exact hs.url_mem
  · intro request response ht hb
    obtain ⟨k, hkm, -⟩ := hu
    obtain ⟨k', ks', rfl⟩ := List.exists_cons_of_ne_nil (List.ne_nil_of_mem hkm)
    rw [createResponsePost_search _ value request response ht hb, answer, hk]
    simp only [hm]
    rw [if_pos (hsize.mpr hne)]

theorem page_read (names : List Str) {db : Database} (hdb : ∀ u ∈ db.urlTexts, Produced u)
    {value : Str} {ks : List Str} (hk : getKeyword value = some ks) (hc : ∃ u, Candidate db ks u)
    (request : Request) (response : Response) (ht : request.target = str "/")
    (hb : request.body = str "search=" ++ value) (hr : response.body = []) :
    ∃ rows answered, resultRows (getUrl db) ks = .ok rows ∧ rows ≠ [] ∧
      (∀ row ∈ rows, row.2 ∈ db.urlTexts) ∧
      createResponsePost (getUrl db) request response = .ok answered ∧
      (Recovered names rows answered.body ↔ ∀ row ∈ rows, Inert names row.2) := by
  obtain ⟨searchResult, hrows, hne, hin, hpage⟩ := search_printed db hk hc
  refine ⟨_, _, hrows, hne, hin, hpage request response ht hb, ?_⟩
  exact recovered_iff hr fun row hrow => (hdb _ (hin row hrow)).line

/-- The result page shows its rows and nothing else exactly when each URL in it is inert. -/
theorem page_read_iff (names : List Str) (db : Database) (hdb : ∀ u ∈ db.urlTexts, Produced u)
    (value : Str) (ks : List Str) (hk : getKeyword value = some ks) (hc : ∃ u, Candidate db ks u)
    (request : Request) (response : Response) (ht : request.target = str "/")
    (hb : request.body = str "search=" ++ value) (hr : response.body = []) :
    ∃ rows answered, resultRows (getUrl db) ks = .ok rows ∧ rows ≠ [] ∧
      (∀ row ∈ rows, row.2 ∈ db.urlTexts) ∧
      createResponsePost (getUrl db) request response = .ok answered ∧
      (Recovered names rows answered.body ↔ ∀ row ∈ rows, Inert names row.2) :=
  page_read names hdb hk hc request response ht hb hr

theorem inert_of_notMem {names : List Str} {url : Str} (hq : ch '"' ∉ url) (hz : 0 ∉ url)
    (ho : ch '<' ∉ url) (hr : ch '&' ∉ url) : Inert names url :=
  ⟨hq, hz, fun _ hb => absurd (hb.subset List.mem_cons_self) ho,
    fun _ _ hb => absurd (hb.subset List.mem_cons_self) hr⟩

theorem produced_of_href (href : Str) {u : Str}
    (h : Links.extractLink (str "<a href=\"" ++ href ++ str "\">") FindUrl.site = some [u]) :
    Produced u := by
  have hl : Links.urlToLink (str "http://a.b/") = .ok FindUrl.site := by decide +kernel
  exact ⟨_, _, _, hl, [u], h, List.mem_singleton_self u⟩

theorem spider_read : ∃ rows answered,
    createResponsePost (getUrl spiderOnly) (post spider) .initial = .ok answered ∧
      Recovered [] rows answered.body := by
  have hpage : ∀ u ∈ spiderOnly.urlTexts, u = page := by
    simp [spiderOnly, Database.urlTexts]
  have hprod : Produced page := produced_of_href (str "/") (by decide +kernel)
  obtain ⟨rows, answered, -, -, hin, ha, hiff⟩ := page_read_iff [] spiderOnly
    (fun u hu => hpage u hu ▸ hprod) spider [spider] getKeyword_spider
    ⟨page, spider, List.mem_singleton_self _, 2, spider_stored⟩ (post spider) .initial rfl rfl rfl
  refine ⟨rows, answered, ha, hiff.mpr fun row hrow => ?_⟩
  rw [hpage _ (hin row hrow)]
  exact inert_of_notMem (by decide) (by decide) (by decide) (by decide)

def bold : Str := str "http://a.b/<b>x"

/-- One page, whose URL was taken from an `href` with a tag in it. -/
def boldOnly : Database where
  keywords := [⟨1, spider⟩]
  urls := [⟨1, bold⟩]
  keywordUrsQty := [⟨1, 1, 2⟩]
  keywordIds := by decide
  keywordUnique := by decide
  urlIds := by decide
  urlUnique := by decide
  k_u := spiderOnly.k_u
  idKeywordRefs := by decide
  idUrlRefs := by decide
  quantityRange := spiderOnly.quantityRange

theorem bold_stored : StoredRows.Stored boldOnly spider bold 2 :=
  ⟨⟨1, spider⟩, by decide, ⟨1, bold⟩, by decide, ⟨1, 1, 2⟩, by decide, rfl, rfl, rfl, rfl, rfl⟩

/-- The tag in the URL becomes a tag of the result page. -/
theorem tag_printed : ¬ ∀ (names : List Str) (db : Database), (∀ u ∈ db.urlTexts, Produced u) →
    ∀ (value : Str) (ks : List Str), getKeyword value = some ks → (∃ u, Candidate db ks u) →
      ∀ (request : Request) (response : Response), request.target = str "/" →
        request.body = str "search=" ++ value → response.body = [] →
          ∃ rows answered, resultRows (getUrl db) ks = .ok rows ∧
            createResponsePost (getUrl db) request response = .ok answered ∧
            Recovered names rows answered.body := by
  intro h
  have hpage : ∀ u ∈ boldOnly.urlTexts, u = bold := by
    simp [boldOnly, Database.urlTexts]
  have hprod : Produced bold := produced_of_href (str "/<b>x") (by decide +kernel)
  have hdb : ∀ u ∈ boldOnly.urlTexts, Produced u := fun u hu => hpage u hu ▸ hprod
  have hc : ∃ u, Candidate boldOnly [spider] u :=
    ⟨bold, spider, List.mem_singleton_self _, 2, bold_stored⟩
  obtain ⟨rows, answered, hrows, ha, hread⟩ := h [] boldOnly hdb spider [spider] getKeyword_spider hc
    (post spider) .initial rfl rfl rfl
  obtain ⟨rows', answered', hrows', hne, hin, ha', hiff⟩ :=
    page_read [] hdb getKeyword_spider hc (post spider) .initial rfl rfl rfl
  obtain rfl := Except.ok.inj (hrows.symm.trans hrows')
  obtain rfl := Except.ok.inj (ha.symm.trans ha')
  obtain ⟨row, hrow⟩ := List.exists_mem_of_ne_nil rows hne
  have hinert := hiff.mp hread row hrow
  rw [hpage _ (hin row hrow)] at hinert
  exact absurd (hinert.tag (str "b>x") ⟨str "http://a.b/", rfl⟩) (by decide)

end SpiderSearch.ResultMarkup
