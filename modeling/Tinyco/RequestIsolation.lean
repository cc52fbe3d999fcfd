import Tinyco.ParsedMessage

/-! Parsing into an object that has been used before. Nothing is cleared, so a field
shows what an earlier message left there unless the new message writes it. -/

namespace Tinyco

variable {L : HttpLib}

structure URL.SameAs (u v : URL) : Prop where
  schema : u.schema = v.schema
  host : u.host = v.host
  port : u.port = v.port
  uri : u.uri = v.uri
  path : u.path = v.path
  query : u.query = v.query
  fragment : u.fragment = v.fragment
  userinfo : u.userinfo = v.userinfo
  queryParams : ∀ k, u.queryParams.find k = v.queryParams.find k

/-- What the members of a request return. -/
structure HttpRequest.SameAs (r q : HttpRequest) : Prop where
  method : r.method = q.method
  struri : r.struri = q.struri
  uri : r.uri.SameAs q.uri
  headers : ∀ h, r.isHeader h = q.isHeader h ∧ r.getHeader h = q.getHeader h
  content : r.content = q.content
  keepalive : r.keepalive = q.keepalive

structure HttpResponse.SameAs (r q : HttpResponse) : Prop where
  status : r.status = q.status
  headers : ∀ h, r.headers.find h = q.headers.find h
  content : r.content = q.content

def ownParams (L : HttpLib) (urls : List Bytes) : List (Bytes × Bytes) :=
  (queriesInForce [] (ownQueries L urls)).flatMap (HttpParserImpl.queryPairs L)

/-- The first URL has no query, so the query that was there is gone through. -/
def StaleQuery (L : HttpLib) (urls : List Bytes) : Prop := (ownQueries L urls).head? = some none

/-- Each member of `u` that the strings do not write is as in a new object. -/
structure UrlOverwritten (L : HttpLib) (urls : List Bytes) (u : URL) : Prop where
  schema : (∀ s ∈ urls, urlField L UrlFields.schema s = none) → u.schema = []
  host : (∀ s ∈ urls, urlField L UrlFields.host s = none) → u.host = []
  port : (∀ s ∈ urls, L.parseUrl s = none) → u.port = none
  uri : (∀ s ∈ urls, urlField L UrlFields.path s = none) →
    u.uri = [] ∨ u.uri = bytes "/" ∧ ∃ s ∈ urls, L.parseUrl s ≠ none
  path : (∀ s ∈ urls, urlField L UrlFields.path s = none) → u.path = []
  query : (∀ s ∈ urls, urlField L UrlFields.query s = none) → u.query = []
  fragment : (∀ s ∈ urls, urlField L UrlFields.fragment s = none) → u.fragment = []
  userinfo : (∀ s ∈ urls, urlField L UrlFields.userinfo s = none) → u.userinfo = []
  queryParams : ∀ k, (StaleQuery L urls ∧ k ∈ (HttpParserImpl.queryPairs L u.query).map Prod.fst) ∨
    k ∈ u.queryParams.keys → k ∈ (ownParams L urls).map Prod.fst

def ParserScan.AsksClose (sc : ParserScan) : Prop :=
  ∃ v, (AssocMap.empty.assignAll sc.writtenHeaders).find (bytes "Connection") = some v ∧
    v.map tolower ≠ bytes "keep-alive"

/-- Each member of `r` that the message does not write is as in a new object. -/
structure RequestOverwritten (L : HttpLib) (sc : ParserScan) (r : HttpRequest) : Prop where
  struri : sc.urls = [] → r.struri = []
  uri : UrlOverwritten L sc.urls r.uri
  headers : ∀ k ∈ r.headers.keys, k ∈ sc.writtenHeaders.map Prod.fst
  content : sc.bodies = [] → r.content = []
  keepalive : sc.AsksClose → r.keepalive = false

structure ResponseOverwritten (sc : ParserScan) (r : HttpResponse) : Prop where
  headers : ∀ k ∈ r.headers.keys, k ∈ sc.writtenHeaders.map Prod.fst
  content : sc.bodies = [] → r.content = []

theorem lastWritten_some_eq_iff {a b : Bytes} {l : List Bytes} :
    lastWritten some a l = lastWritten some b l ↔ (l = [] → a = b) := by
  rw [lastWritten_eq_iff]
  cases l with
  | nil => simp
  | cons x l => exact iff_of_true (fun h => absurd (h x (by simp)) (by simp)) (by simp)

theorem queriesInForce_eq (q : Bytes) (os : List (Option Bytes)) :
    ∃ t rest, queriesInForce q os = List.replicate t q ++ rest ∧
      queriesInForce [] os = List.replicate t [] ++ rest ∧ (t ≠ 0 ↔ os.head? = some none) := by
  induction os with
  | nil => exact ⟨0, [], rfl, rfl, by simp⟩
  | cons o os ih =>
    cases o with
    | none =>
      obtain ⟨t, rest, hq, hnil, _⟩ := ih
      exact ⟨t + 1, rest, by simp [queriesInForce, hq, List.replicate_succ],
        by simp [queriesInForce, hnil, List.replicate_succ], by simp⟩
    | some x => exact ⟨0, x :: queriesInForce x os, rfl, rfl, by simp⟩

theorem flatMap_queryPairs_eq (L : HttpLib) (q : Bytes) (urls : List Bytes) :
    ∃ stale, (queriesInForce q (ownQueries L urls)).flatMap (HttpParserImpl.queryPairs L) =
        stale ++ ownParams L urls ∧
      ∀ k, k ∈ stale.map Prod.fst ↔
        StaleQuery L urls ∧ k ∈ (HttpParserImpl.queryPairs L q).map Prod.fst := by
  obtain ⟨t, rest, hq, hnil, ht⟩ := queriesInForce_eq q (ownQueries L urls)
  have hown : ownParams L urls = rest.flatMap (HttpParserImpl.queryPairs L) := by
    have hrep : (List.replicate t []).flatMap (HttpParserImpl.queryPairs L) = [] :=
      List.flatMap_eq_nil_iff.mpr fun q hq => by rw [List.eq_of_mem_replicate hq]; rfl
    rw [ownParams, hnil, List.flatMap_append, hrep, List.nil_append]
  refine ⟨(List.replicate t q).flatMap (HttpParserImpl.queryPairs L), ?_, fun k => ?_⟩
  · rw [hq, List.flatMap_append, hown]
  · rw [StaleQuery, ← ht]
    simp only [List.mem_map, List.mem_flatMap, List.mem_replicate]
    constructor
    · rintro ⟨e, ⟨q', ⟨h0, rfl⟩, he⟩, rfl⟩
      exact ⟨h0, e, he, rfl⟩
    · rintro ⟨h0, e, he, rfl⟩
      exact ⟨e, ⟨q, ⟨h0, rfl⟩, he⟩, rfl⟩

theorem queryParams_same_iff (u : URL) (urls : List Bytes) :
    (∀ k, (u.queryParams.assignAll ((queriesInForce u.query (ownQueries L urls)).flatMap
        (HttpParserImpl.queryPairs L))).find k = (AssocMap.empty.assignAll (ownParams L urls)).find k) ↔
      ∀ k, (StaleQuery L urls ∧ k ∈ (HttpParserImpl.queryPairs L u.query).map Prod.fst) ∨
        k ∈ u.queryParams.keys → k ∈ (ownParams L urls).map Prod.fst := by
  obtain ⟨stale, heq, hstale⟩ := flatMap_queryPairs_eq L u.query urls
  simp only [heq, AssocMap.assignAll_append, AssocMap.find_assignAll_eq_iff,
    AssocMap.mem_keys_assignAll, hstale]

def uriOrSlash (uri : Bytes) : Bytes := if uri = [] then bytes "/" else uri

theorem uriOrSlash_idem (uri : Bytes) : uriOrSlash (uriOrSlash uri) = uriOrSlash uri := by
  unfold uriOrSlash
  split_ifs <;> rfl

theorem uriOrSlash_eq_slash_iff {uri : Bytes} :
    uriOrSlash uri = bytes "/" ↔ uri = [] ∨ uri = bytes "/" := by
  unfold uriOrSlash
  split_ifs with h <;> simp [h]

theorem foldl_nextUri_eq_iff {urls : List Bytes} {a b : Bytes} :
    urls.foldl (nextUri L) a = urls.foldl (nextUri L) b ↔
      ((∀ s ∈ urls, urlField L UrlFields.path s = none) →
        if ∃ s ∈ urls, L.parseUrl s ≠ none then uriOrSlash a = uriOrSlash b else a = b) := by
  induction urls generalizing a b with
  | nil => simp
  | cons s urls ih =>
    rw [List.foldl_cons, List.foldl_cons, ih]
    cases h : L.parseUrl s with
    | none =>
      have hnone : urlField L UrlFields.path s = none := by simp [urlField, h]
      simp [nextUri, h, hnone]
    | some hpurl =>
      cases hpath : hpurl.path with
      | none =>
        have hnone : urlField L UrlFields.path s = none := by simp [urlField, h, hpath]
        have hnext (x : Bytes) : nextUri L x s = uriOrSlash x := by
          simp [nextUri, h, HttpParserImpl.urlUri, hpath, uriOrSlash]
        simp [hnext, hnone, h, uriOrSlash_idem]
      | some f =>
        have hsome : urlField L UrlFields.path s ≠ none := by simp [urlField, h, hpath]
        have hnext : nextUri L a s = nextUri L b s := by
          simp [nextUri, h, HttpParserImpl.urlUri, hpath]
        simp [hnext, hsome]

theorem uri_same_iff {urls : List Bytes} {a : Bytes} :
    urls.foldl (nextUri L) a = urls.foldl (nextUri L) [] ↔
      ((∀ s ∈ urls, urlField L UrlFields.path s = none) →
        a = [] ∨ a = bytes "/" ∧ ∃ s ∈ urls, L.parseUrl s ≠ none) := by
  rw [foldl_nextUri_eq_iff]
  refine imp_congr_right fun _ => ?_
  have hnil : uriOrSlash [] = bytes "/" := rfl
  split_ifs with h
  · rw [hnil, uriOrSlash_eq_slash_iff]
    simp only [h, and_true]
  · simp only [h, and_false, or_false]

theorem port_same_iff {urls : List Bytes} {port : Option Nat} :
    lastWritten (fun s => (ownPort L s).map some) port urls =
        lastWritten (fun s => (ownPort L s).map some) none urls ↔
      ((∀ s ∈ urls, L.parseUrl s = none) → port = none) := by
  simp [lastWritten_eq_iff, ownPort]

theorem url_same_iff {urls : List Bytes} {u : URL} :
    (urls.foldl (fun u s => (HttpParserImpl.parseUrl L s u).2) u).SameAs
        (urls.foldl (fun u s => (HttpParserImpl.parseUrl L s u).2) {}) ↔
      UrlOverwritten L urls u := by
  rw [HttpParserImpl.foldl_parseUrl, HttpParserImpl.foldl_parseUrl]
  have hq := queryParams_same_iff (L := L) u urls
  exact ⟨fun h => ⟨lastWritten_eq_iff.mp h.schema, lastWritten_eq_iff.mp h.host,
      port_same_iff.mp h.port, uri_same_iff.mp h.uri, lastWritten_eq_iff.mp h.path,
      lastWritten_eq_iff.mp h.query, lastWritten_eq_iff.mp h.fragment,
      lastWritten_eq_iff.mp h.userinfo, hq.mp h.queryParams⟩,
    fun h => ⟨lastWritten_eq_iff.mpr h.schema, lastWritten_eq_iff.mpr h.host,
      port_same_iff.mpr h.port, uri_same_iff.mpr h.uri, lastWritten_eq_iff.mpr h.path,
      lastWritten_eq_iff.mpr h.query, lastWritten_eq_iff.mpr h.fragment,
      lastWritten_eq_iff.mpr h.userinfo, hq.mpr h.queryParams⟩⟩

theorem headers_same_iff {r q : HttpRequest} :
    (∀ h, r.isHeader h = q.isHeader h ∧ r.getHeader h = q.getHeader h) ↔
      ∀ h, r.headers.find h = q.headers.find h := by
  refine forall_congr' fun h => ⟨fun hh => ?_, fun hh => ?_⟩
  · obtain ⟨hi, hg⟩ := hh
    simp only [HttpRequest.isHeader, HttpRequest.getHeader] at hi hg
    cases hr : r.headers.find h <;> cases hq : q.headers.find h <;> simp_all
  · simp [HttpRequest.isHeader, HttpRequest.getHeader, hh]

/-- `keepalive_` after a message whose `Connection` header is `connection`. -/
def keepaliveAfter (connection : Option Bytes) (keepalive : Bool) : Bool :=
  match connection with
  | none => true
  | some v => if v.map tolower = bytes "keep-alive" then true else keepalive

theorem setKeepAlive_eq (r : HttpRequest) :
    HttpParserImpl.setKeepAlive r =
      { r with keepalive := keepaliveAfter (r.headers.find (bytes "Connection")) r.keepalive } := by
  rcases Option.eq_none_or_eq_some (r.headers.find (bytes "Connection")) with hc | ⟨v, hc⟩
  · simp [HttpParserImpl.setKeepAlive, HttpRequest.isHeader, hc, keepaliveAfter]
  · by_cases hv : v.map tolower = bytes "keep-alive" <;>
      simp [HttpParserImpl.setKeepAlive, HttpRequest.isHeader, HttpRequest.getHeader, hc,
        keepaliveAfter, hv]

theorem keepaliveAfter_eq_iff {connection : Option Bytes} {keepalive : Bool} :
    keepaliveAfter connection keepalive = keepaliveAfter connection false ↔
      ((∃ v, connection = some v ∧ v.map tolower ≠ bytes "keep-alive") → keepalive = false) := by
  cases connection with
  | none => simp [keepaliveAfter]
  | some v => by_cases hv : v.map tolower = bytes "keep-alive" <;> simp [keepaliveAfter, hv]

theorem request_same_iff (L : HttpLib) (sc : ParserScan) (r : HttpRequest) :
    (HttpParserImpl.setKeepAlive (HttpParserImpl.written L sc r)).SameAs
        (HttpParserImpl.setKeepAlive (HttpParserImpl.written L sc {})) ↔
      RequestOverwritten L sc r := by
  have hheaders : (∀ k, (r.headers.assignAll sc.writtenHeaders).find k =
      (AssocMap.empty.assignAll sc.writtenHeaders).find k) ↔
      ∀ k ∈ r.headers.keys, k ∈ sc.writtenHeaders.map Prod.fst := AssocMap.find_assignAll_eq_iff
  rw [setKeepAlive_eq, setKeepAlive_eq]
  constructor
  · intro h
    have hfind := headers_same_iff.mp h.headers
    have hconn := hfind (bytes "Connection")
    refine ⟨lastWritten_some_eq_iff.mp h.struri, url_same_iff.mp h.uri, hheaders.mp hfind,
      lastWritten_some_eq_iff.mp h.content, ?_⟩
    have hkeep := h.keepalive
    simp only [HttpParserImpl.written] at hkeep hconn
    rw [hconn] at hkeep
    exact keepaliveAfter_eq_iff.mp hkeep
  · intro h
    have hfind := hheaders.mpr h.headers
    refine ⟨rfl, lastWritten_some_eq_iff.mpr h.struri, url_same_iff.mpr h.uri,
      headers_same_iff.mpr hfind, lastWritten_some_eq_iff.mpr h.content, ?_⟩
    simp only [HttpParserImpl.written]
    rw [hfind (bytes "Connection")]
    exact keepaliveAfter_eq_iff.mpr h.keepalive

/-- A message parsed into a used object is seen as if parsed into a new one exactly
when it writes every member that is not as in a new object. -/
theorem parse_isolated_iff_overwritten (L : HttpLib) {qbuf pbuf : Bytes} {q : HttpRequest}
    {p p' : HttpResponse} (hq : (HttpParserImpl.parseHttpRequest L qbuf q).1 = 0)
    (hp : HttpParserImpl.parseHttpResponse L pbuf p = some (0, p')) :
    ((HttpParserImpl.parseHttpRequest L qbuf {}).1 = 0 ∧
      ((HttpParserImpl.parseHttpRequest L qbuf q).2.SameAs
          (HttpParserImpl.parseHttpRequest L qbuf {}).2 ↔
        RequestOverwritten L (L.scan .request qbuf) q)) ∧
    ∃ p₀, HttpParserImpl.parseHttpResponse L pbuf {} = some (0, p₀) ∧
      (p'.SameAs p₀ ↔ ResponseOverwritten (L.scan .response pbuf) p) := by
  have haq := HttpParserImpl.parseHttpRequest_zero_iff.mp hq
  have hap := HttpParserImpl.accepts_of_parseHttpResponse hp
  refine ⟨⟨HttpParserImpl.parseHttpRequest_zero_iff.mpr haq, ?_⟩,
    _, HttpParserImpl.parseHttpResponse_eq {} hap, ?_⟩
  · rw [HttpParserImpl.parseHttpRequest_eq q haq, HttpParserImpl.parseHttpRequest_eq {} haq]
    exact request_same_iff L _ q
  · rw [HttpParserImpl.parseHttpResponse_eq p hap, Option.some.injEq, Prod.mk.injEq] at hp
    rw [← hp.2]
    exact ⟨fun h => ⟨AssocMap.find_assignAll_eq_iff.mp h.headers,
        lastWritten_some_eq_iff.mp h.content⟩,
      fun h => ⟨rfl, AssocMap.find_assignAll_eq_iff.mpr h.headers,
        lastWritten_some_eq_iff.mpr h.content⟩⟩

def postRequest : Bytes := bytes "POST /a HTTP/1.1\r\nContent-Length: 2\r\n\r\nhi"

def closeRequest : Bytes := bytes "GET /b HTTP/1.1\r\nConnection: close\r\n\r\n"

def emptyResponse : Bytes := bytes "HTTP/1.1 200 OK\r\nContent-Length: 0\r\n\r\n"

/-- `http_parser` on a `POST` with a body, a `GET` that closes the connection and a
response. -/
def sampleLib : HttpLib :=
  .ofTables
    [((.request, postRequest),
      { events := [(.url (bytes "/a"), 7), (.headerField (bytes "Content-Length"), 32),
          (.headerValue (bytes "2"), 35), (.headersComplete, 38), (.body (bytes "hi"), 41),
          (.messageComplete, 41)]
        nparsed := 41
        method := 3 }),
      ((.request, closeRequest),
        { events := [(.url (bytes "/b"), 6), (.headerField (bytes "Connection"), 27),
            (.headerValue (bytes "close"), 34), (.headersComplete, 37), (.messageComplete, 38)]
          nparsed := 38
          method := 1 }),
      ((.response, emptyResponse),
        { events := [(.headerField (bytes "Content-Length"), 31), (.headerValue (bytes "0"), 34),
            (.headersComplete, 37), (.messageComplete, 38)]
          nparsed := 38
          statusCode := 200 })]
    [(bytes "/a", { path := some (0, 2) }), (bytes "/b", { path := some (0, 2) })]

def afterPost : HttpRequest := (HttpParserImpl.parseHttpRequest sampleLib postRequest {}).2

/-- The `GET` after the `POST` is seen as on a new object exactly if it overwrites what
the `POST` has left. -/
theorem parse_isolated_iff_overwritten_after_post :
    (HttpParserImpl.parseHttpRequest sampleLib closeRequest afterPost).2.SameAs
        (HttpParserImpl.parseHttpRequest sampleLib closeRequest {}).2 ↔
      RequestOverwritten sampleLib (sampleLib.scan .request closeRequest) afterPost := by
  have hq : (HttpParserImpl.parseHttpRequest sampleLib closeRequest afterPost).1 = 0 := by
    decide +kernel
  have hp : HttpParserImpl.parseHttpResponse sampleLib emptyResponse {} =
      some (0, HttpResponse.setHeader {} (bytes "Content-Length") (bytes "0")) := by
    decide +kernel
  exact (parse_isolated_iff_overwritten sampleLib hq hp).1.2

/-- The `GET` after the `POST` shows the body of the `POST` and asks to keep the
connection that it closes. -/
theorem post_leaks_into_next_request :
    (HttpParserImpl.parseHttpRequest sampleLib postRequest {}).1 = 0 ∧
    (HttpParserImpl.parseHttpRequest sampleLib closeRequest afterPost).1 = 0 ∧
    (HttpParserImpl.parseHttpRequest sampleLib closeRequest afterPost).2.content = bytes "hi" ∧
    (HttpParserImpl.parseHttpRequest sampleLib closeRequest afterPost).2.keepalive = true ∧
    (HttpParserImpl.parseHttpRequest sampleLib closeRequest {}).2.content = [] ∧
    (HttpParserImpl.parseHttpRequest sampleLib closeRequest {}).2.keepalive = false ∧
    ¬ ∀ (L : HttpLib) (buf : Bytes) (r : HttpRequest),
      (HttpParserImpl.parseHttpRequest L buf r).1 = 0 →
        (HttpParserImpl.parseHttpRequest L buf r).2.SameAs
          (HttpParserImpl.parseHttpRequest L buf {}).2 := by
  have hret : (HttpParserImpl.parseHttpRequest sampleLib closeRequest afterPost).1 = 0 := by
    decide +kernel
  have hkeep : (HttpParserImpl.parseHttpRequest sampleLib closeRequest afterPost).2.keepalive ≠
      (HttpParserImpl.parseHttpRequest sampleLib closeRequest {}).2.keepalive := by
    decide +kernel
  refine ⟨by decide +kernel, hret, by decide +kernel, by decide +kernel, by decide +kernel,
    by decide +kernel, fun h => hkeep (h sampleLib closeRequest afterPost hret).keepalive⟩

end Tinyco
