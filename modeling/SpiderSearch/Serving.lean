import SpiderSearch.SearchResults
import SpiderSearch.Triples

namespace SpiderSearch.Serving

open CppTypes DbClient Keyword Triples
open HttpServer (Request Response Failure addKeywords)

variable {ε : Type}

/-- One connection: the response object and what `writeResponse` has sent of it. -/
structure Connection where
  response : Response
  written : List Response

def Connection.initial : Connection := ⟨.initial, []⟩

abbrev Handler (ε α : Type) := Prog Connection (Failure ε) α

/-- A statement that only changes `response_`. -/
def respond (f : Response → Response) : Handler ε Unit :=
  modify fun c => { c with response := f c.response }

def createResponsePost (getUrl : Str → Except ε (StdMap Int)) (request : Request) : Handler ε Unit := do
  match HttpServer.createResponsePost getUrl request (← get).response with
  | .ok response => respond fun _ => response
  | .error e => throw e

def writeResponse : Handler ε Unit := do
  respond HttpServer.writeResponse
  modify fun c => { c with written := c.written ++ [c.response] }

def processRequest (getUrl : Str → Except ε (StdMap Int)) (request : Request) : Handler ε Unit := do
  respond fun response => { response with version := request.version, keep_alive := false }
  match request.method with
  | .get =>
    respond fun response => { response with result := .ok, server := some (str "Beast") }
    respond (HttpServer.createResponseGet request)
  | .post =>
    respond fun response => { response with result := .ok, server := some (str "Beast") }
    createResponsePost getUrl request
  | .other method_string => respond (HttpServer.invalidMethod method_string)
  writeResponse

/-- The handler returns after exactly one response has been sent. -/
def Answered (getUrl : Str → Except ε (StdMap Int)) (request : Request) : Prop :=
  ∃ c response, exec (processRequest getUrl request) .initial = (.ok (), c) ∧
    c.written = [response]

/-- No keyword of a search fails in the database. -/
def KeywordsFound (getUrl : Str → Except ε (StdMap Int)) (request : Request) : Prop :=
  request.method = .post → request.target = str "/" →
    ∀ value ks, request.body = str "search=" ++ value → getKeyword value = some ks →
      ∀ k ∈ ks, ∃ urls, getUrl k = .ok urls

/-- The handler sends what the branches of `processRequest` make, or stops before it sends. -/
theorem exec_processRequest (getUrl : Str → Except ε (StdMap Int)) (request : Request) :
    (∃ response, HttpServer.processRequest getUrl request = .ok response ∧
        exec (processRequest getUrl request) .initial = (.ok (), ⟨response, [response]⟩)) ∨
      ∃ e response, HttpServer.processRequest getUrl request = .error e ∧
        exec (processRequest getUrl request) .initial = (.error e, ⟨response, []⟩) := by
  cases hm : request.method with
  | get =>
    left
    simp [HttpServer.processRequest, processRequest, hm, respond, writeResponse, exec_bind,
      Connection.initial]
  | post =>
    cases hr : HttpServer.createResponsePost getUrl request
      { Response.initial with
        version := request.version, keep_alive := false, result := .ok, server := some (str "Beast") } with
    | ok response =>
      left
      simp [HttpServer.processRequest, processRequest, hm, respond, writeResponse, exec_bind,
        createResponsePost, hr, Connection.initial, Except.map]
    | error e =>
      right
      simp [HttpServer.processRequest, processRequest, hm, respond, exec_bind, createResponsePost,
        hr, Connection.initial, Except.map]
  | other method_string =>
    left
    simp [HttpServer.processRequest, processRequest, hm, respond, writeResponse, exec_bind,
      Connection.initial]

theorem answered_iff (getUrl : Str → Except ε (StdMap Int)) (request : Request) :
    Answered getUrl request ↔ ∃ response, HttpServer.processRequest getUrl request = .ok response := by
  obtain ⟨response, hp, he⟩ | ⟨e, response, hp, he⟩ := exec_processRequest getUrl request
  · rw [Answered, he, hp]
    exact ⟨fun _ => ⟨response, rfl⟩, fun _ => ⟨_, response, rfl, rfl⟩⟩
  · rw [Answered, he, hp]
    simp

theorem addKeywords_ok_iff (getUrl : Str → Except ε (StdMap Int)) (ks : List Str)
    (db_result : StdMap Int) : (∃ r, addKeywords getUrl ks db_result = .ok r) ↔
      ∀ k ∈ ks, ∃ urls, getUrl k = .ok urls := by
  induction ks generalizing db_result with
  | nil => simp [addKeywords]
  | cons k ks ih =>
    rw [addKeywords, List.forall_mem_cons]
    cases hk : getUrl k with
    | error e => simp
    | ok urls => simp [ih]

theorem answer_ok_iff (getUrl : Str → Except ε (StdMap Int)) {value : Str} {ks : List Str}
    (hk : getKeyword value = some ks) (response : Response) :
    (∃ r, HttpServer.answer getUrl value response = .ok r) ↔ ∀ k ∈ ks, ∃ urls, getUrl k = .ok urls := by
  rw [HttpServer.answer, hk]
  cases ks with
  | nil => simp
  | cons k ks =>
    rw [← addKeywords_ok_iff getUrl (k :: ks) ∅]
    cases hr : addKeywords getUrl (k :: ks) ∅ with
    | error e => simp [hr]
    | ok db_result =>
      simp only [hr]
      split <;> simp

/-- Only the key `search` leads to the database. -/
theorem createResponsePost_other (getUrl : Str → Except ε (StdMap Int)) {request : Request}
    (hlen : request.body.length < npos) (hb : ∀ value, request.body ≠ str "search=" ++ value)
    (response : Response) :
    ∃ r, HttpServer.createResponsePost getUrl request response = .ok r := by
  have hkey : str "search=" = str "search" ++ [ch '='] := by decide
  have hM : sizeTypeModulus = npos + 1 := by decide
  rw [HttpServer.createResponsePost]
  split_ifs with ht
  · by_cases hm : ch '=' ∈ request.body
    · obtain ⟨v, t, hs, hv⟩ := List.eq_append_cons_of_mem hm
      have hl : request.body.length = v.length + (t.length + 1) := by
        rw [hs, List.length_append, List.length_cons]
      have hpos : find request.body (ch '=') 0 = v.length := by
        have hd : request.body.drop 0 = v ++ ch '=' :: t := hs
        rw [find_of_append hd hv, Nat.zero_add]
      have hadd : sizeAdd v.length 1 = v.length + 1 := by
        rw [sizeAdd, hM, Nat.mod_eq_of_lt (by omega)]
      have hfirst : substr request.body 0 v.length = some v := by
        rw [substr, if_pos (Nat.zero_le _), hs, List.drop_zero, List.take_left]
      have hsecond : substrFrom request.body (v.length + 1) = some t := by
        rw [substrFrom, if_pos (by omega), hs, ← List.drop_drop, List.drop_left]
        rfl
      have hne : v ≠ str "search" := by
        rintro rfl
        refine hb t ?_
        rw [hs, hkey, List.append_assoc]
        rfl
      have hn : v.length ≠ npos := by omega
      simp only [hpos, hadd, hfirst, hsecond, if_neg hn, if_pos hne]
      exact ⟨_, rfl⟩
    · have hpos : find request.body (ch '=') 0 = npos := find_of_notMem hm
      simp only [hpos, if_pos]
      exact ⟨_, rfl⟩
  · exact ⟨_, rfl⟩

theorem map_ok_iff {δ α β : Type} (x : Except δ α) (f : α → β) :
    (∃ b, x.map f = .ok b) ↔ ∃ a, x = .ok a := by
  cases x with
  | ok a => simp [Except.map]
  | error e => simp [Except.map]

theorem search_ok_iff (getUrl : Str → Except ε (StdMap Int)) {request : Request}
    (hm : request.method = .post) (ht : request.target = str "/") {value : Str}
    (hb : request.body = str "search=" ++ value) {ks : List Str} (hk : getKeyword value = some ks) :
    (∃ response, HttpServer.processRequest getUrl request = .ok response) ↔
      ∀ k ∈ ks, ∃ urls, getUrl k = .ok urls := by
  simp only [HttpServer.processRequest, hm, map_ok_iff]
  rw [HttpServer.createResponsePost_search getUrl value request _ ht hb, answer_ok_iff getUrl hk]

/-- A request is answered exactly when the database answers for every keyword of the search. -/
theorem answered_iff_keywordsFound (getUrl : Str → Except ε (StdMap Int)) (request : Request)
    (hlen : request.body.length < npos) :
    Answered getUrl request ↔ KeywordsFound getUrl request := by
  rw [answered_iff, KeywordsFound]
  cases hm : request.method with
  | get => simp [HttpServer.processRequest, hm]
  | other method_string => simp [HttpServer.processRequest, hm]
  | post =>
    by_cases ht : request.target = str "/"
    · by_cases hb : ∃ value, request.body = str "search=" ++ value
      · obtain ⟨value, hb⟩ := hb
        have hvalue : value.length < npos := by
          rw [hb, List.length_append] at hlen
          omega
        obtain ⟨ks, hk⟩ := getKeyword_total hvalue
        rw [search_ok_iff getUrl hm ht hb hk]
        apply Iff.intro
        · intro h _ _ value' ks' hb' hk'
          obtain rfl := List.append_cancel_left (hb.symm.trans hb')
          obtain rfl := Option.some.inj (hk.symm.trans hk')
          exact h
        · intro h
          exact h rfl ht value ks hb hk
      · simp only [HttpServer.processRequest, hm, map_ok_iff]
        have hother := createResponsePost_other getUrl hlen (fun value he => hb ⟨value, he⟩)
        exact ⟨fun _ _ _ value _ he => absurd ⟨value, he⟩ hb, fun _ => hother _⟩
    · simp only [HttpServer.processRequest, hm, map_ok_iff, HttpServer.createResponsePost, if_neg ht]
      exact ⟨fun _ _ h => absurd h ht, fun _ => ⟨_, rfl⟩⟩

theorem spider_answered : Answered (fun _ => (.ok ∅ : Except Unit (StdMap Int)))
    (SearchResults.post (str "Spider")) :=
  (answered_iff_keywordsFound _ _ (by decide)).mpr fun _ _ _ _ _ _ _ _ => ⟨∅, rfl⟩

/-- A search without a database ends in an exception. -/
theorem exception_escapes :
    ¬ ∀ (ε : Type) (getUrl : Str → Except ε (StdMap Int)) (request : Request),
      request.body.length < npos → Answered getUrl request := by
  intro h
  have hk : getKeyword (str "spider") = some [str "spider"] := by decide
  have hanswered := h Unit (fun _ => .error ()) (SearchResults.post (str "spider")) (by decide)
  have hfound := (search_ok_iff _ rfl rfl rfl hk).mp ((answered_iff _ _).mp hanswered)
  obtain ⟨urls, hu⟩ := hfound _ (List.mem_singleton_self _)
  cases hu

/-- The handlers run one after another; an exception that leaves one of them ends `ioc.run()`. -/
def ioContextRun : List (Request × (Str → Except ε (StdMap Int))) →
    List (List Response) × Option (Failure ε)
  | [] => ([], none)
  | (request, getUrl) :: rest =>
    match exec (processRequest getUrl request) .initial with
    | (.ok _, c) => (c.written :: (ioContextRun rest).1, (ioContextRun rest).2)
    | (.error e, c) => ([c.written], some e)

/-- The server outlives its clients, with one response for each, exactly when every single request
is answered. -/
theorem ioContextRun_iff (clients : List (Request × (Str → Except ε (StdMap Int)))) :
    ((ioContextRun clients).2 = none ∧
        ∀ written ∈ (ioContextRun clients).1, ∃ response, written = [response]) ↔
      ∀ client ∈ clients, Answered client.2 client.1 := by
  induction clients with
  | nil => simp [ioContextRun]
  | cons client rest ih =>
    obtain ⟨request, getUrl⟩ := client
    rw [List.forall_mem_cons, ← ih, answered_iff, ioContextRun]
    obtain ⟨response, hp, he⟩ | ⟨e, response, hp, he⟩ := exec_processRequest getUrl request
    · simp [he, hp]
    · simp [he, hp]

end SpiderSearch.Serving
