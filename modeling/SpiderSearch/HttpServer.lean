import SpiderSearch.DbClient
import SpiderSearch.Keyword
import SpiderSearch.Multimap

namespace SpiderSearch.HttpServer

open CppTypes DbClient Keyword

inductive Verb where
  | get
  | post
  | other (method_string : Str)

structure Request where
  version : Nat
  method : Verb
  target : Str
  body : Str

inductive Status where
  | ok
  | bad_request
  | not_found
  deriving DecidableEq

structure Response where
  version : Nat
  keep_alive : Bool
  result : Status
  server : Option Str
  content_type : Option Str
  content_length : Option Nat
  body : Str

/-- What leaves `createResponsePost` as an exception. -/
inductive Failure (ε : Type) where
  | outOfRange
  | db (e : ε)

def textHtml : Str := str "text/html"

def textPlain : Str := str "text/plain"

def fileNotFound (response : Response) : Response :=
  { response with
    result := .not_found
    content_type := some textPlain
    body := response.body ++ str "File not found\r\n" }

def pageHead : Str :=
  str "<html>\n<head><meta charset=\"UTF-8\"><title>WEB Search</title></head>\n<body>\n<h1>Search</h1>\n"

def pageTail : Str := str "</body>\n</html>\n"

def htmlPage (content : Str) (response : Response) : Response :=
  { response with
    content_type := some textHtml
    body := response.body ++ pageHead ++ content ++ pageTail }

def searchForm : Str :=
  str "<p>Welcome!<p>\n<form action=\"/\" method=\"post\">\n    <label for=\"search\">Search:</label><br>\n    <input type=\"text\" id=\"search\" name=\"search\"><br>\n    <input type=\"submit\" value=\"Search\">\n</form>\n"

def createResponseGet (request : Request) (response : Response) : Response :=
  if request.target = str "/" then htmlPage searchForm response else fileNotFound response

def print_not_found : Response → Response :=
  htmlPage (str "<p>Response:<p>\n<ul>\n<p><b> No matches found </b></p></ul>\n")

def print_bad_request : Response → Response :=
  htmlPage (str "<p>Response:<p>\n<ul>\n<p><b> Bad request </b></p><p> The request must consist of English words longer than 3 characters </p></ul>\n")

/-- The entries the loop of `print_result` writes before `result_size` has been counted down. -/
def printed {α : Type} : Int → List α → List α
  | _, [] => []
  | result_size, row :: rows =>
    row :: if result_size - 1 = 0 then [] else printed (result_size - 1) rows

def tableRow (row : Int × Str) : Str :=
  str "<tr>\n<td><a href = \"" ++ row.2 ++ str "\">" ++ row.2 ++ str "</a></td>\n<td>" ++
    str (toString row.1) ++ str "</td>\n</tr>\n"

def print_result (searchResult : List (Int × Str)) : Response → Response :=
  htmlPage (str "<p>Response:<p>\n<table>\n" ++ (printed 10 searchResult).flatMap tableRow ++
    str "</table>\n")

/-- `for (const auto& [key, value] : db_->getUrl(s)) db_result[key] += value;`. -/
def addUrls (rows : List (Str × Int)) (db_result : StdMap Int) : StdMap Int :=
  rows.foldl (fun db_result (key, value) =>
    db_result.insert key (wrapInt (db_result[key]?.getD 0 + value))) db_result

variable {ε : Type}

def addKeywords (getUrl : Str → Except ε (StdMap Int)) :
    List Str → StdMap Int → Except ε (StdMap Int)
  | [], db_result => .ok db_result
  | s :: keywords, db_result =>
    match getUrl s with
    | .error e => .error e
    | .ok urls => addKeywords getUrl keywords (addUrls urls.toList db_result)

/-- `std::multimap<int, std::string, std::greater<int>>`, filled in the order of the URLs. -/
def dbResultSort (db_result : StdMap Int) : List (Int × Str) :=
  Multimap.insertAll (fun a b => decide (b < a)) (db_result.toList.map Prod.swap) []

/-- What the handler answers to the value of the parameter `search`. -/
def answer (getUrl : Str → Except ε (StdMap Int)) (value : Str) (response : Response) :
    Except (Failure ε) Response :=
  match getKeyword value with
  | none => .error .outOfRange
  | some [] => .ok (print_bad_request response)
  | some keywords =>
    match addKeywords getUrl keywords ∅ with
    | .error e => .error (.db e)
    | .ok db_result =>
      if db_result.size > 0 then .ok (print_result (dbResultSort db_result) response)
      else .ok (print_not_found response)

def createResponsePost (getUrl : Str → Except ε (StdMap Int)) (request : Request)
    (response : Response) : Except (Failure ε) Response :=
  if request.target = str "/" then
    let s := request.body
    let pos := find s (ch '=') 0
    if pos = npos then .ok (fileNotFound response)
    else
      match substr s 0 pos, substrFrom s (sizeAdd pos 1) with
      | some key, some value =>
        -- `utf8value` is made from `value` here and never read
        if key ≠ str "search" then .ok (fileNotFound response) else answer getUrl value response
      | _, _ => .error .outOfRange
  else .ok (fileNotFound response)

def writeResponse (response : Response) : Response :=
  { response with content_length := some response.body.length }

def Response.initial : Response := ⟨11, true, .ok, none, none, none, []⟩

def invalidMethod (method_string : Str) (response : Response) : Response :=
  { response with
    result := .bad_request
    content_type := some textPlain
    body := response.body ++ str "Invalid request-method '" ++ method_string ++ str "'" }

/-- An exception thrown before `writeResponse` leaves the handler without an answer. -/
def processRequest (getUrl : Str → Except ε (StdMap Int)) (request : Request) :
    Except (Failure ε) Response :=
  let response := { Response.initial with version := request.version, keep_alive := false }
  let answered := { response with result := .ok, server := some (str "Beast") }
  match request.method with
  | .get => .ok (writeResponse (createResponseGet request answered))
  | .post => (createResponsePost getUrl request answered).map writeResponse
  | .other method_string => .ok (writeResponse (invalidMethod method_string response))

/-- The countdown stops the loop after `n` entries. -/
theorem printed_eq_take {α : Type} (n : Nat) (rows : List α) :
    printed ((n + 1 : Nat) : Int) rows = rows.take (n + 1) := by
  induction rows generalizing n with
  | nil => rw [printed, List.take_nil]
  | cons row rows ih =>
    rw [printed, List.take_succ_cons]
    congr 1
    cases n with
    | zero => rw [if_pos (by omega), List.take_zero]
    | succ n =>
      have he : ((n + 1 + 1 : Nat) : Int) - 1 = (n + 1 : Nat) := by omega
      rw [he, ih, if_neg (by omega)]

/-- The body `search=` + value reaches `getKeyword` with its value. -/
theorem createResponsePost_search (getUrl : Str → Except ε (StdMap Int)) (value : Str)
    (request : Request) (response : Response) (ht : request.target = str "/")
    (hb : request.body = str "search=" ++ value) :
    createResponsePost getUrl request response = answer getUrl value response := by
  have hs : str "search=" = [115, 101, 97, 114, 99, 104, 61] := by decide
  have hkey : str "search" = [115, 101, 97, 114, 99, 104] := by decide
  have hc : ch '=' = 61 := by decide
  have hpos : find request.body (ch '=') 0 = 6 := by
    simp [hb, hs, hc, find, List.findIdx?_cons]
  have hne : (6 : Nat) ≠ npos := by decide
  have hadd : sizeAdd 6 1 = 7 := by decide
  have hfirst : substr request.body 0 6 = some (str "search") := by
    simp [hb, hs, hkey, substr]
  have hsecond : substrFrom request.body 7 = some value := by
    simp [hb, hs, substrFrom]
  rw [createResponsePost, if_pos ht]
  simp only [hpos, hadd, hfirst, hsecond, hne, if_false, ne_eq, not_true_eq_false]

end SpiderSearch.HttpServer
