import Tinyco.HttpParser

/-! What a successful parse makes of an object, field by field: the last value the
message writes, or the value that was there. -/

namespace Tinyco

variable {σ : Type*} {L : HttpLib}

/-- The last value the elements of a list write by `g`, or `a`. -/
def lastWritten {α β : Type*} (g : β → Option α) (a : α) (l : List β) : α :=
  l.foldl (fun a s => (g s).getD a) a

def urlsOf (es : List (ParserEvent × Nat)) : List Bytes :=
  es.filterMap fun e => match e.1 with
    | .url data => some data
    | _ => none

def bodiesOf (es : List (ParserEvent × Nat)) : List Bytes :=
  es.filterMap fun e => match e.1 with
    | .body data => some data
    | _ => none

def headerStringsOf (es : List (ParserEvent × Nat)) : List Bytes :=
  es.filterMap fun e => match e.1 with
    | .headerField data => some data
    | .headerValue data => some data
    | _ => none

theorem headerStringsOf_headerField (data : Bytes) (off : Nat) (es : List (ParserEvent × Nat)) :
    headerStringsOf ((.headerField data, off) :: es) = data :: headerStringsOf es := rfl

theorem headerStringsOf_headerValue (data : Bytes) (off : Nat) (es : List (ParserEvent × Nat)) :
    headerStringsOf ((.headerValue data, off) :: es) = data :: headerStringsOf es := rfl

namespace ParserScan

def urls (sc : ParserScan) : List Bytes := urlsOf sc.events

def bodies (sc : ParserScan) : List Bytes := bodiesOf sc.events

def headerStrings (sc : ParserScan) : List Bytes := headerStringsOf sc.events

/-- The assignments to the headers in order, those of `SetContent` first. -/
def writtenHeaders (sc : ParserScan) : List (Bytes × Bytes) :=
  sc.bodies.map (fun b => (bytes "Content-Length", decimal b.length)) ++
    HttpParserImpl.headerPairs sc.headerStrings

/-- The parser has read the whole buffer and the headers come in pairs. -/
def Accepts (sc : ParserScan) (size : Nat) : Prop :=
  sc.nparsed = size ∧ sc.headerStrings.length % 2 = 0

end ParserScan

def urlField (L : HttpLib) (field : UrlFields → Option (Nat × Nat)) (s : Bytes) : Option Bytes :=
  (L.parseUrl s).bind fun hpurl => (field hpurl).map (slice s)

def ownPort (L : HttpLib) (s : Bytes) : Option Nat :=
  (L.parseUrl s).map fun hpurl =>
    HttpParserImpl.urlPort s hpurl (HttpParserImpl.hasAndSet s hpurl.schema [])

def ownQueries (L : HttpLib) (urls : List Bytes) : List (Option Bytes) :=
  urls.filterMap fun s => (L.parseUrl s).map fun hpurl => hpurl.query.map (slice s)

/-- The query that is gone through after each URL, from the query `q` on. -/
def queriesInForce (q : Bytes) : List (Option Bytes) → List Bytes
  | [] => []
  | o :: os => o.getD q :: queriesInForce (o.getD q) os

def nextUri (L : HttpLib) (uri s : Bytes) : Bytes :=
  match L.parseUrl s with
  | none => uri
  | some hpurl => HttpParserImpl.urlUri s hpurl uri

theorem runCallbacks_of_zero {cb : σ → ParserEvent → σ × Int} (h : ∀ s e, (cb s e).2 = 0)
    (total : Nat) (s : σ) (es : List (ParserEvent × Nat)) :
    runCallbacks cb total s es = (es.foldl (fun s e => (cb s e.1).1) s, total) := by
  induction es generalizing s with
  | nil => rfl
  | cons e es ih => simp only [runCallbacks, h, if_true, ih, List.foldl_cons]

theorem lastWritten_cons {α β : Type*} (g : β → Option α) (a : α) (s : β) (l : List β) :
    lastWritten g a (s :: l) = lastWritten g ((g s).getD a) l := rfl

theorem lastWritten_eq_iff {α β : Type*} {g : β → Option α} {a b : α} {l : List β} :
    lastWritten g a l = lastWritten g b l ↔ ((∀ s ∈ l, g s = none) → a = b) := by
  induction l generalizing a b with
  | nil => simp [lastWritten]
  | cons s l ih =>
    refine ih.trans ?_
    cases hs : g s <;> simp [hs]

namespace HttpParserImpl

theorem mem_of_mem_headerPairs {l : List Bytes} {e : Bytes × Bytes} (h : e ∈ headerPairs l) :
    e.1 ∈ l ∧ e.2 ∈ l := by
  induction l using headerPairs.induct with
  | case1 f v hs ih =>
    rcases List.mem_cons.mp h with rfl | h
    · simp
    · have hh := ih h
      simp [hh.1, hh.2]
  | case2 l hl =>
    rw [headerPairs.eq_2 l hl] at h
    cases h

theorem requestCallback_ret (L : HttpLib) (t : HttpRequest × List Bytes) (e : ParserEvent) :
    (requestCallback L t e).2 = 0 := by
  cases e <;> rfl

theorem responseCallback_ret (t : HttpResponse × List Bytes) (e : ParserEvent) :
    (responseCallback t e).2 = 0 := by
  cases e <;> rfl

theorem foldl_requestCallback (es : List (ParserEvent × Nat)) (r : HttpRequest)
    (hs : List Bytes) :
    es.foldl (fun t e => (requestCallback L t e.1).1) (r, hs) =
      ({ r with
          struri := lastWritten some r.struri (urlsOf es)
          uri := (urlsOf es).foldl (fun u s => (parseUrl L s u).2) r.uri
          content := lastWritten some r.content (bodiesOf es)
          headers := r.headers.assignAll ((bodiesOf es).map fun b =>
            (bytes "Content-Length", decimal b.length)) },
        hs ++ headerStringsOf es) := by
  induction es generalizing r hs with
  | nil => simp [urlsOf, bodiesOf, headerStringsOf, AssocMap.assignAll, lastWritten]
  | cons e es ih =>
    obtain ⟨e, off⟩ := e
    cases e with
    | url data =>
      rw [List.foldl_cons, ih]
      rfl
    | headerField data =>
      rw [List.foldl_cons, ih, headerStringsOf_headerField, List.append_cons]
      rfl
    | headerValue data =>
      rw [List.foldl_cons, ih, headerStringsOf_headerValue, List.append_cons]
      rfl
    | headersComplete => exact ih r hs
    | body data =>
      rw [List.foldl_cons, ih]
      rfl
    | messageComplete => exact ih r hs

theorem foldl_responseCallback (es : List (ParserEvent × Nat)) (r : HttpResponse)
    (hs : List Bytes) :
    es.foldl (fun t e => (responseCallback t e.1).1) (r, hs) =
      ({ r with
          content := lastWritten some r.content (bodiesOf es)
          headers := r.headers.assignAll ((bodiesOf es).map fun b =>
            (bytes "Content-Length", decimal b.length)) },
        hs ++ headerStringsOf es) := by
  induction es generalizing r hs with
  | nil => simp [bodiesOf, headerStringsOf, AssocMap.assignAll, lastWritten]
  | cons e es ih =>
    obtain ⟨e, off⟩ := e
    cases e with
    | url data => exact ih r hs
    | headerField data =>
      rw [List.foldl_cons, ih, headerStringsOf_headerField, List.append_cons]
      rfl
    | headerValue data =>
      rw [List.foldl_cons, ih, headerStringsOf_headerValue, List.append_cons]
      rfl
    | headersComplete => exact ih r hs
    | body data =>
      rw [List.foldl_cons, ih]
      rfl
    | messageComplete => exact ih r hs

theorem hasAndSet_eq (s : Bytes) (field : Option (Nat × Nat)) (member : Bytes) :
    hasAndSet s field member = (field.map (slice s)).getD member := by
  cases field <;> rfl

theorem urlPort_own (s : Bytes) (hpurl : UrlFields) (schema : Bytes) :
    urlPort s hpurl (hasAndSet s hpurl.schema schema) =
      urlPort s hpurl (hasAndSet s hpurl.schema []) := by
  cases hs : hpurl.schema with
  | none => simp [urlPort, hs]
  | some f => rfl

theorem parseUrl_of_some {s : Bytes} {hpurl : UrlFields} (h : L.parseUrl s = some hpurl) (u : URL) :
    (parseUrl L s u).2 =
      { schema := (hpurl.schema.map (slice s)).getD u.schema
        host := (hpurl.host.map (slice s)).getD u.host
        port := some (urlPort s hpurl (hasAndSet s hpurl.schema []))
        uri := urlUri s hpurl u.uri
        path := (hpurl.path.map (slice s)).getD u.path
        query := (hpurl.query.map (slice s)).getD u.query
        fragment := (hpurl.fragment.map (slice s)).getD u.fragment
        userinfo := (hpurl.userinfo.map (slice s)).getD u.userinfo
        queryParams := u.queryParams.assignAll
          (queryPairs L ((hpurl.query.map (slice s)).getD u.query)) } := by
  simp only [parseUrl, h, urlPort_own s hpurl u.schema]
  simp only [hasAndSet_eq]

theorem foldl_parseUrl (urls : List Bytes) (u : URL) :
    urls.foldl (fun u s => (parseUrl L s u).2) u =
      { schema := lastWritten (urlField L UrlFields.schema) u.schema urls
        host := lastWritten (urlField L UrlFields.host) u.host urls
        port := lastWritten (fun s => (ownPort L s).map some) u.port urls
        uri := urls.foldl (nextUri L) u.uri
        path := lastWritten (urlField L UrlFields.path) u.path urls
        query := lastWritten (urlField L UrlFields.query) u.query urls
        fragment := lastWritten (urlField L UrlFields.fragment) u.fragment urls
        userinfo := lastWritten (urlField L UrlFields.userinfo) u.userinfo urls
        queryParams := u.queryParams.assignAll
          ((queriesInForce u.query (ownQueries L urls)).flatMap (queryPairs L)) } := by
  induction urls generalizing u with
  | nil => rfl
  | cons s urls ih =>
    cases h : L.parseUrl s with
    | none =>
      have hu : (parseUrl L s u).2 = u := by simp [parseUrl, h]
      simp only [List.foldl_cons, hu, ih, lastWritten_cons, urlField, ownPort, nextUri, ownQueries,
        h, Option.bind_none, Option.map_none, Option.getD_none, List.filterMap_cons]
    | some hpurl =>
      simp only [List.foldl_cons, parseUrl_of_some h, ih, lastWritten_cons, urlField, ownPort,
        nextUri, ownQueries, h, Option.bind_some, Option.map_some, Option.getD_some,
        List.filterMap_cons, queriesInForce, List.flatMap_cons, AssocMap.assignAll_append]

theorem foldl_setHeader_request (es : List (Bytes × Bytes)) (r : HttpRequest) :
    es.foldl (fun r e => r.setHeader e.1 e.2) r = { r with headers := r.headers.assignAll es } :=
  AssocMap.foldl_eq_assignAll (f := fun m => { r with headers := m }) (fun _ _ => rfl) r.headers es

theorem foldl_setHeader_response (es : List (Bytes × Bytes)) (r : HttpResponse) :
    es.foldl (fun r e => r.setHeader e.1 e.2) r = { r with headers := r.headers.assignAll es } :=
  AssocMap.foldl_eq_assignAll (f := fun m => { r with headers := m }) (fun _ _ => rfl) r.headers es

/-- The request a scanned message makes of `r`, apart from `keepalive`. -/
def written (L : HttpLib) (sc : ParserScan) (r : HttpRequest) : HttpRequest where
  method := requestMethod sc.method
  struri := lastWritten some r.struri sc.urls
  uri := sc.urls.foldl (fun u s => (parseUrl L s u).2) r.uri
  content := lastWritten some r.content sc.bodies
  headers := r.headers.assignAll sc.writtenHeaders
  keepalive := r.keepalive

theorem parseHttpRequest_zero_iff {buf : Bytes} {r : HttpRequest} :
    (parseHttpRequest L buf r).1 = 0 ↔ (L.scan .request buf).Accepts buf.length := by
  simp only [parseHttpRequest, HttpLib.execute, runCallbacks_of_zero (requestCallback_ret L),
    foldl_requestCallback, List.nil_append, ParserScan.Accepts, ParserScan.headerStrings]
  split_ifs <;> simp_all

theorem parseHttpRequest_eq {buf : Bytes} (r : HttpRequest)
    (h : (L.scan .request buf).Accepts buf.length) :
    parseHttpRequest L buf r = (0, setKeepAlive (written L (L.scan .request buf) r)) := by
  obtain ⟨hn, hp⟩ := h
  simp only [ParserScan.headerStrings] at hp
  simp only [parseHttpRequest, HttpLib.execute, runCallbacks_of_zero (requestCallback_ret L),
    foldl_requestCallback, List.nil_append, hn, hp, ne_eq, not_true_eq_false, if_false,
    foldl_setHeader_request, ← AssocMap.assignAll_append]
  rfl

theorem parseHttpResponse_eq {buf : Bytes} (r : HttpResponse)
    (h : (L.scan .response buf).Accepts buf.length) :
    parseHttpResponse L buf r = some (0,
      { status := (L.scan .response buf).statusCode
        content := lastWritten some r.content (L.scan .response buf).bodies
        headers := r.headers.assignAll (L.scan .response buf).writtenHeaders }) := by
  obtain ⟨hn, hp⟩ := h
  simp only [ParserScan.headerStrings] at hp
  simp only [parseHttpResponse, HttpLib.execute, runCallbacks_of_zero responseCallback_ret,
    foldl_responseCallback, List.nil_append, hn, hp, ne_eq, not_true_eq_false, if_false,
    foldl_setHeader_response, ← AssocMap.assignAll_append]
  rfl

theorem accepts_of_parseHttpResponse {buf : Bytes} {r r' : HttpResponse}
    (h : parseHttpResponse L buf r = some (0, r')) : (L.scan .response buf).Accepts buf.length := by
  simp only [parseHttpResponse, HttpLib.execute, runCallbacks_of_zero responseCallback_ret,
    foldl_responseCallback, List.nil_append] at h
  split_ifs at h with hn hp
  · simp at h
  · exact ⟨not_not.mp hn, not_not.mp hp⟩

end HttpParserImpl

end Tinyco
