import SpiderSearch.CppTypes
import SpiderSearch.Regex

namespace SpiderSearch.Links

open CppTypes Regex

inductive TProtocol where
  | HTTP
  | HTTPS
  deriving DecidableEq

structure Link where
  protocol : TProtocol
  host : Str
  query : Str
  deriving DecidableEq

def isAlnum (c : UInt8) : Bool := isAlpha c || (48 ≤ c && c ≤ 57)

/-- `[[:alnum:]_-]`. -/
def wordChar (c : UInt8) : Bool := isAlnum c || c == ch '-' || c == ch '_'

/-- `.`, which is any character but a line terminator. -/
def dot (c : UInt8) : Bool := c != ch '\n' && c != ch '\r'

def notSlash (c : UInt8) : Bool := c != ch '/'

def protocolPattern : Pattern UInt8 :=
  .opt (.group 1 (.seq (lit (str "http")) (.opt (lit (str "s")))))

def slashesPattern : Pattern UInt8 :=
  .opt (.group 2 (.seq (.opt (lit (str ":"))) (lit (str "//"))))

/-- `([[:alnum:]-_]+..*?)?`: the escape before the first dot is lost in the string literal. -/
def firstHost : Pattern UInt8 :=
  .group 3 (.seq (plus true wordChar) (.seq (.sym dot) (.star false dot)))

def firstQuery : Pattern UInt8 := .group 4 (.seq (lit (str "/")) (.star true dot))

def firstUrl : Pattern UInt8 :=
  .seq protocolPattern (.seq slashesPattern (.seq (.opt firstHost) firstQuery))

def subHost : Pattern UInt8 :=
  .group 3 (.seq (plus true wordChar) (.seq (.sym dot) (plus true notSlash)))

def subQuery : Pattern UInt8 :=
  .group 4 (.seq (lit (str "/")) (.seq (.star true dot)
    (.opt (.group 5 (.seq (lit (str "#")) (.seq (plus true notSlash) .atEnd))))))

def subUrl : Pattern UInt8 :=
  .seq protocolPattern (.seq slashesPattern (.seq (.opt subHost) subQuery))

/-- `sm[i].str()` after `std::regex_search(html, sm, ur)`. -/
def groupsOf (ur : Pattern UInt8) (html : Str) : Groups UInt8 :=
  match search ur html with
  | some sm => sm.groups
  | none => fun _ => []

/-- The protocol a group 1 that took part stands for: it is "http" or "https". -/
def protocolOf (text : Str) : TProtocol := if text = str "http" then .HTTP else .HTTPS

/-- `UrlToLink(html)`, with the text it throws. -/
def urlToLink (html : Str) : Except Str Link :=
  let sm := groupsOf firstUrl html
  if (sm 1).length ≠ 0 then
    if (sm 3).length ≠ 0 then
      .ok ⟨protocolOf (sm 1), sm 3, if (sm 4).length ≠ 0 then sm 4 else str "/"⟩
    else .error (str "Bad first URL: not find host.")
  else .error (str "Bad first URL: not find protocol.")

/-- `UrlToLink(html, url)`. -/
def urlToLinkFrom (html : Str) (url : Link) : Link :=
  let sm := groupsOf subUrl html
  { protocol := if (sm 1).length ≠ 0 then protocolOf (sm 1) else url.protocol
    host := if (sm 3).length ≠ 0 then sm 3 else url.host
    query :=
      if (sm 4).length ≠ 0 then
        if (sm 5).length = 0 then sm 4 else (sm 4).take ((sm 4).length - (sm 5).length)
      else str "/" }

def linkToURL (link : Link) : Str :=
  if link.protocol = .HTTP then str "http://" ++ link.host ++ link.query
  else str "https://" ++ link.host ++ link.query

structure HtmlParser where
  url : Str
  link : Link

/-- The constructor, with the text it throws. -/
def HtmlParser.new (url : Str) : Except Str HtmlParser :=
  (urlToLink url).map fun link => ⟨url, link⟩

def HtmlParser.getURL (parser : HtmlParser) : Str :=
  if parser.link.protocol = .HTTP then str "http://" ++ parser.link.host ++ parser.link.query
  else str "https://" ++ parser.link.host ++ parser.link.query

def htmlLink : Pattern UInt8 :=
  .seq (lit (str "<a href=\"")) (.seq (.group 1 (.star false dot)) (lit (str "\"")))

/-- The loop over the matches; `none` where `at(0)` of an empty `href` throws. -/
def extractLinkLoop (link : Link) : List (Match UInt8) → List Str → Option (List Str)
  | [], arrayLinks => some arrayLinks
  | sm :: rest, arrayLinks =>
    match sm.groups 1 with
    | [] => none
    | c :: href =>
      if c = ch '#' then extractLinkLoop link rest arrayLinks
      else if linkToURL (urlToLinkFrom (c :: href) link) ∈ arrayLinks then
        extractLinkLoop link rest arrayLinks
      else extractLinkLoop link rest (arrayLinks ++ [linkToURL (urlToLinkFrom (c :: href) link)])

def extractLink (htmlContent : Str) (link : Link) : Option (List Str) :=
  extractLinkLoop link (iterator htmlLink htmlContent) []

end SpiderSearch.Links
