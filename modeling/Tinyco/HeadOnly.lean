import Tinyco.RequestIsolation

/-! `ParseHttpRequestHeadOnly` beside `ParseHttpRequest` on the same buffer. -/

namespace Tinyco

variable {σ : Type*} {L : HttpLib}

/-- `runCallbacks` with an `on_headers_complete` that may return 2: the message then ends with
its head, whose last byte is the one the parser is at. -/
def runHeadCallbacks (cb : σ → ParserEvent → σ × Int) (total : Nat) :
    σ → List (ParserEvent × Nat) → σ × Nat
  | s, [] => (s, total)
  | s, (e, off) :: es =>
    if (cb s e).2 = 0 then runHeadCallbacks cb total (cb s e).1 es
    else if e = .headersComplete ∧ (cb s e).2 = 2 then ((cb s e).1, off + 1)
    else ((cb s e).1, off)

/-- The callbacks up to the end of the head. -/
def headEvents (es : List (ParserEvent × Nat)) : List (ParserEvent × Nat) :=
  es.takeWhile fun e => decide (e.1 ≠ .headersComplete)

def laterEvents (es : List (ParserEvent × Nat)) : List (ParserEvent × Nat) :=
  es.dropWhile fun e => decide (e.1 ≠ .headersComplete)

/-- The bytes of the head, of which a buffer may hold only a part. -/
def ParserScan.headLength (sc : ParserScan) : Nat :=
  match laterEvents sc.events with
  | [] => sc.nparsed
  | e :: _ => e.2 + 1

namespace HttpParserImpl

/-- There is no `on_body`, and `header_complete_cb` returns 2. -/
def headCallback (L : HttpLib) (t : HttpRequest × List Bytes) (e : ParserEvent) :
    (HttpRequest × List Bytes) × Int :=
  match e with
  | .headersComplete => (t, 2)
  | .body _ => (t, 0)
  | e => requestCallback L t e

/-- The result, the request and `*nparsed`, which is none for a null pointer. -/
def parseHttpRequestHeadOnly (L : HttpLib) (httpbuf : Bytes) (r : HttpRequest)
    (nparsed : Option Nat) : Int × HttpRequest × Option Nat :=
  let sc := L.scan .request httpbuf
  let t := runHeadCallbacks (headCallback L) sc.nparsed (r, []) sc.events
  if 0 = t.2 then (-1, t.1.1, nparsed)
  else if t.1.2.length % 2 ≠ 0 then (-2, t.1.1, nparsed)
  else
    (0, (headerPairs t.1.2).foldl (fun r e => r.setHeader e.1 e.2) t.1.1,
      nparsed.map fun _ => t.2 % 2 ^ 32)

theorem headCallback_of_ne (L : HttpLib) (t : HttpRequest × List Bytes) {e : ParserEvent}
    (h : e ≠ .headersComplete) : (headCallback L t e).2 = 0 := by
  cases e with
  | headersComplete => exact absurd rfl h
  | _ => rfl

theorem runHeadCallbacks_eq (L : HttpLib) (total : Nat) (t : HttpRequest × List Bytes)
    (es : List (ParserEvent × Nat)) :
    runHeadCallbacks (headCallback L) total t es =
      ((headEvents es).foldl (fun t e => (headCallback L t e.1).1) t,
        match laterEvents es with
        | [] => total
        | e :: _ => e.2 + 1) := by
  induction es generalizing t with
  | nil => rfl
  | cons e es ih =>
    obtain ⟨e, off⟩ := e
    by_cases he : e = .headersComplete
    · subst he
      rfl
    · simp only [runHeadCallbacks, headCallback_of_ne L t he, if_true, ih, headEvents, laterEvents,
        ne_eq, he, not_false_eq_true, decide_true, List.takeWhile_cons_of_pos,
        List.dropWhile_cons_of_pos, List.foldl_cons]

theorem foldl_headCallback (es : List (ParserEvent × Nat)) (r : HttpRequest) (hs : List Bytes) :
    es.foldl (fun t e => (headCallback L t e.1).1) (r, hs) =
      ({ r with
          struri := lastWritten some r.struri (urlsOf es)
          uri := (urlsOf es).foldl (fun u s => (parseUrl L s u).2) r.uri },
        hs ++ headerStringsOf es) := by
  induction es generalizing r hs with
  | nil => simp [urlsOf, headerStringsOf, lastWritten]
  | cons e es ih =>
    obtain ⟨e, off⟩ := e
    cases e with
    | url data =>
      rw [List.foldl_cons, ih]
      rfl
    | headerField data =>
      rw [List.foldl_cons, ih, headerStringsOf_headerField, List.append_cons]
      rfl
    | headerValue data =>
      rw [List.foldl_cons, ih, headerStringsOf_headerValue, List.append_cons]
      rfl
    | headersComplete => exact ih r hs
    | body data => exact ih r hs
    | messageComplete => exact ih r hs

theorem headerPairs_append {hs later : List Bytes} (h : hs.length % 2 = 0) :
    headerPairs (hs ++ later) = headerPairs hs ++ headerPairs later := by
  induction hs using headerPairs.induct with
  | case1 f v hs ih =>
    have heven : hs.length % 2 = 0 := by
      simp only [List.length_cons] at h
      omega
    simp [headerPairs, ih heven]
  | case2 hs hne =>
    cases hs with
    | nil => rfl
    | cons f hs =>
      cases hs with
      | nil => simp at h
      | cons v hs => exact absurd rfl (hne f v hs)

end HttpParserImpl

namespace ParserScan

def headUrls (sc : ParserScan) : List Bytes := urlsOf (headEvents sc.events)

def laterUrls (sc : ParserScan) : List Bytes := urlsOf (laterEvents sc.events)

def headStrings (sc : ParserScan) : List Bytes := headerStringsOf (headEvents sc.events)

def laterStrings (sc : ParserScan) : List Bytes := headerStringsOf (laterEvents sc.events)

theorem urls_eq_append (sc : ParserScan) : sc.urls = sc.headUrls ++ sc.laterUrls := by
  rw [headUrls, laterUrls, urlsOf, urlsOf, ← List.filterMap_append, headEvents, laterEvents,
    List.takeWhile_append_dropWhile]
  rfl

theorem headerStrings_eq_append (sc : ParserScan) :
    sc.headerStrings = sc.headStrings ++ sc.laterStrings := by
  rw [headStrings, laterStrings, headerStringsOf, headerStringsOf, ← List.filterMap_append,
    headEvents, laterEvents, List.takeWhile_append_dropWhile]
  rfl

end ParserScan

/-- What `ParseHttpRequestHeadOnly` returns for a buffer is what `ParseHttpRequest` finds in
the head of it. -/
structure HeadAgrees (L : HttpLib) (buf : Bytes) (out : Int × HttpRequest × Option Nat) : Prop where
  ret : out.1 = 0
  method : out.2.1.method = (HttpParserImpl.parseHttpRequest L buf {}).2.method
  struri : out.2.1.struri = (HttpParserImpl.parseHttpRequest L buf {}).2.struri
  uri : out.2.1.uri.SameAs (HttpParserImpl.parseHttpRequest L buf {}).2.uri
  keepalive : out.2.1.keepalive = (HttpParserImpl.parseHttpRequest L buf {}).2.keepalive
  headers : ∀ e ∈ HttpParserImpl.headerPairs (L.scan .request buf).headerStrings,
    out.2.1.headers.find e.1 = (HttpParserImpl.parseHttpRequest L buf {}).2.headers.find e.1
  nparsed : out.2.2 = some (L.scan .request buf).headLength

/-- The last value the later elements write is the one the head has. -/
def Repeats {α β : Type*} (g : β → Option α) (a : α) (head later : List β) : Prop :=
  ∀ x, (later.filterMap g).getLast? = some x → (head.filterMap g).getLast?.getD a = x

/-- The parameters of the queries that are gone through behind the head. -/
def laterParams (L : HttpLib) (head later : List Bytes) : List (Bytes × Bytes) :=
  (queriesInForce ((head.filterMap (urlField L UrlFields.query)).getLast?.getD [])
    (ownQueries L later)).flatMap (HttpParserImpl.queryPairs L)

/-- No part of a URL behind the head is another than in the head. -/
structure UrlRepeated (L : HttpLib) (head later : List Bytes) : Prop where
  schema : Repeats (urlField L UrlFields.schema) [] head later
  host : Repeats (urlField L UrlFields.host) [] head later
  port : Repeats (fun s => (ownPort L s).map some) none head later
  uri : later.foldl (nextUri L) (head.foldl (nextUri L) []) = head.foldl (nextUri L) []
  path : Repeats (urlField L UrlFields.path) [] head later
  query : Repeats (urlField L UrlFields.query) [] head later
  fragment : Repeats (urlField L UrlFields.fragment) [] head later
  userinfo : Repeats (urlField L UrlFields.userinfo) [] head later
  queryParams : ∀ k v, (AssocMap.empty.assignAll (laterParams L head later)).find k = some v →
    (AssocMap.empty.assignAll (ownParams L head)).find k = some v

/-- The head is not empty, its method is neither `GET` nor `POST`, it asks to close the
connection, and nothing behind it brings another URI or another value of a header. -/
structure HeadDecides (L : HttpLib) (sc : ParserScan) : Prop where
  nonempty : sc.headLength ≠ 0
  length : sc.headLength < 2 ^ 32
  paired : sc.headStrings.length % 2 = 0
  method : sc.method ≠ 1 ∧ sc.method ≠ 3
  closes : sc.AsksClose
  struri : Repeats some [] sc.headUrls sc.laterUrls
  uri : UrlRepeated L sc.headUrls sc.laterUrls
  headers : ∀ k v,
    (AssocMap.empty.assignAll (HttpParserImpl.headerPairs sc.laterStrings)).find k = some v →
      (AssocMap.empty.assignAll (HttpParserImpl.headerPairs sc.headStrings)).find k = some v

namespace HttpParserImpl

theorem parseHttpRequestHeadOnly_zero_iff {buf : Bytes} {r : HttpRequest} {nparsed : Option Nat} :
    (parseHttpRequestHeadOnly L buf r nparsed).1 = 0 ↔
      (L.scan .request buf).headLength ≠ 0 ∧ (L.scan .request buf).headStrings.length % 2 = 0 := by
  simp only [parseHttpRequestHeadOnly, runHeadCallbacks_eq, foldl_headCallback, List.nil_append,
    ParserScan.headStrings, ParserScan.headLength]
  split_ifs <;> simp_all [eq_comm]

theorem parseHttpRequestHeadOnly_eq {buf : Bytes} (r : HttpRequest) (nparsed : Option Nat)
    (hn : (L.scan .request buf).headLength ≠ 0)
    (hp : (L.scan .request buf).headStrings.length % 2 = 0) :
    parseHttpRequestHeadOnly L buf r nparsed =
      (0,
        { r with
          struri := lastWritten some r.struri (L.scan .request buf).headUrls
          uri := (L.scan .request buf).headUrls.foldl (fun u s => (parseUrl L s u).2) r.uri
          headers := r.headers.assignAll (headerPairs (L.scan .request buf).headStrings) },
        nparsed.map fun _ => (L.scan .request buf).headLength % 2 ^ 32) := by
  simp only [ParserScan.headStrings, ParserScan.headLength] at hn hp
  simp only [parseHttpRequestHeadOnly, runHeadCallbacks_eq, foldl_headCallback, List.nil_append,
    Ne.symm hn, hp, ne_eq, not_true_eq_false, if_false, foldl_setHeader_request]
  rfl

theorem requestMethod_eq_unknown_iff {method : Nat} :
    httpRequestMethodUnknown = requestMethod method ↔ method ≠ 1 ∧ method ≠ 3 := by
  unfold requestMethod
  split
  · simp [httpRequestMethodUnknown, httpRequestMethodGet]
  · simp [httpRequestMethodUnknown, httpRequestMethodPost]
  · rename_i h1 h3
    exact iff_of_true rfl ⟨h1, h3⟩

end HttpParserImpl

theorem lastWritten_eq_getLast {α β : Type*} (g : β → Option α) (a : α) (l : List β) :
    lastWritten g a l = (l.filterMap g).getLast?.getD a := by
  induction l generalizing a with
  | nil => rfl
  | cons s l ih =>
    rw [lastWritten_cons, ih]
    cases hs : g s with
    | none => rw [List.filterMap_cons_none hs, Option.getD_none]
    | some x => rw [List.filterMap_cons_some hs, List.getLast?_cons, Option.getD_some, Option.getD_some]

theorem lastWritten_append {α β : Type*} (g : β → Option α) (a : α) (head later : List β) :
    lastWritten g a (head ++ later) = lastWritten g (lastWritten g a head) later :=
  List.foldl_append

theorem lastWritten_unchanged_iff {α β : Type*} (g : β → Option α) (a : α) (head later : List β) :
    lastWritten g a head = lastWritten g (lastWritten g a head) later ↔ Repeats g a head later := by
  rw [lastWritten_eq_getLast g _ later, lastWritten_eq_getLast g a head, Repeats]
  cases hl : (later.filterMap g).getLast? with
  | none => simp
  | some x => simp

theorem url_unchanged_iff (L : HttpLib) (head later : List Bytes) :
    (head.foldl (fun u s => (HttpParserImpl.parseUrl L s u).2) {}).SameAs
        ((head ++ later).foldl (fun u s => (HttpParserImpl.parseUrl L s u).2) {}) ↔
      UrlRepeated L head later := by
  have hpart (field : UrlFields → Option (Nat × Nat)) :=
    lastWritten_unchanged_iff (urlField L field) [] head later
  have hport := lastWritten_unchanged_iff (fun s => (ownPort L s).map some) none head later
  have hparams : (∀ k, (AssocMap.empty.assignAll (ownParams L head)).find k =
      ((AssocMap.empty.assignAll (ownParams L head)).assignAll
        ((queriesInForce (lastWritten (urlField L UrlFields.query) [] head)
          (ownQueries L later)).flatMap (HttpParserImpl.queryPairs L))).find k) ↔
      ∀ k v, (AssocMap.empty.assignAll (laterParams L head later)).find k = some v →
        (AssocMap.empty.assignAll (ownParams L head)).find k = some v := by
    rw [lastWritten_eq_getLast, ← AssocMap.find_assignAll_unchanged_iff]
    exact forall_congr' fun k => eq_comm
  rw [List.foldl_append, HttpParserImpl.foldl_parseUrl later, HttpParserImpl.foldl_parseUrl head]
  constructor
  · intro h
    exact ⟨(hpart _).mp h.schema, (hpart _).mp h.host, hport.mp h.port, h.uri.symm,
      (hpart _).mp h.path, (hpart _).mp h.query, (hpart _).mp h.fragment, (hpart _).mp h.userinfo,
      hparams.mp h.queryParams⟩
  · intro h
    exact ⟨(hpart _).mpr h.schema, (hpart _).mpr h.host, hport.mpr h.port, h.uri.symm,
      (hpart _).mpr h.path, (hpart _).mpr h.query, (hpart _).mpr h.fragment,
      (hpart _).mpr h.userinfo, hparams.mpr h.queryParams⟩

theorem Repeats.of_nil {α β : Type*} (g : β → Option α) (a : α) (head : List β) :
    Repeats g a head [] := by
  intro x hx
  cases hx

theorem UrlRepeated.of_nil (L : HttpLib) (head : List Bytes) : UrlRepeated L head [] := by
  refine ⟨.of_nil _ _ _, .of_nil _ _ _, .of_nil _ _ _, rfl, .of_nil _ _ _, .of_nil _ _ _,
    .of_nil _ _ _, .of_nil _ _ _, fun k v hv => ?_⟩
  cases hv

theorem headers_unchanged_iff (bodies head later : List (Bytes × Bytes)) :
    (∀ e ∈ head ++ later, (AssocMap.empty.assignAll head).find e.1 =
        (AssocMap.empty.assignAll (bodies ++ (head ++ later))).find e.1) ↔
      ∀ k v, (AssocMap.empty.assignAll later).find k = some v →
        (AssocMap.empty.assignAll head).find k = some v := by
  have hwritten {e : Bytes × Bytes} (he : e ∈ head ++ later) :
      (AssocMap.empty.assignAll (bodies ++ (head ++ later))).find e.1 =
        ((AssocMap.empty.assignAll head).assignAll later).find e.1 := by
    rw [AssocMap.assignAll_append, ← AssocMap.assignAll_append _ head later]
    exact AssocMap.find_assignAll_congr (.inl (List.mem_map_of_mem he))
  rw [← AssocMap.find_assignAll_unchanged_iff]
  constructor
  · intro h k
    by_cases hk : k ∈ later.map Prod.fst
    · obtain ⟨e, he, rfl⟩ := List.mem_map.mp hk
      have hmem : e ∈ head ++ later := List.mem_append_right _ he
      rw [h e hmem, hwritten hmem]
    · exact AssocMap.find_assignAll_of_not_mem hk
  · intro h e he
    rw [hwritten he, h e.1]

theorem keepalive_unset_iff {connection : Option Bytes} :
    false = keepaliveAfter connection false ↔
      ∃ v, connection = some v ∧ v.map tolower ≠ bytes "keep-alive" := by
  cases connection with
  | none => simp [keepaliveAfter]
  | some v => by_cases hv : v.map tolower = bytes "keep-alive" <;> simp [keepaliveAfter, hv]

theorem some_mod_eq_iff {n : Nat} : some (n % 2 ^ 32) = some n ↔ n < 2 ^ 32 := by
  rw [Option.some.injEq]
  exact Nat.mod_eq_iff_lt (by decide)

theorem headAgrees_iff_of_paired {buf : Bytes} (nparsed : Nat)
    (h : (L.scan .request buf).Accepts buf.length) (hn : (L.scan .request buf).headLength ≠ 0)
    (hp : (L.scan .request buf).headStrings.length % 2 = 0) :
    HeadAgrees L buf (HttpParserImpl.parseHttpRequestHeadOnly L buf {} (some nparsed)) ↔
      HeadDecides L (L.scan .request buf) := by
  have hfull := HttpParserImpl.parseHttpRequest_eq {} h
  have hhead := HttpParserImpl.parseHttpRequestHeadOnly_eq {} (some nparsed) hn hp
  rw [setKeepAlive_eq] at hfull
  set sc := L.scan .request buf with hsc
  have hstruri := lastWritten_unchanged_iff some [] sc.headUrls sc.laterUrls
  have huri := url_unchanged_iff L sc.headUrls sc.laterUrls
  have hheaders := headers_unchanged_iff
    (sc.bodies.map fun b => (bytes "Content-Length", decimal b.length))
    (HttpParserImpl.headerPairs sc.headStrings) (HttpParserImpl.headerPairs sc.laterStrings)
  rw [← lastWritten_append, ← ParserScan.urls_eq_append] at hstruri
  rw [← ParserScan.urls_eq_append] at huri
  rw [← HttpParserImpl.headerPairs_append hp, ← ParserScan.headerStrings_eq_append] at hheaders
  constructor
  · rintro ⟨_, hmethod, hs, hu, hkeep, hhs, hlen⟩
    rw [hfull, hhead] at hmethod hs hu hkeep hhs
    rw [hhead] at hlen
    exact ⟨hn, some_mod_eq_iff.mp hlen, hp, HttpParserImpl.requestMethod_eq_unknown_iff.mp hmethod,
      keepalive_unset_iff.mp hkeep, hstruri.mp hs, huri.mp hu, hheaders.mp hhs⟩
  · intro hd
    refine ⟨?_, ?_, ?_, ?_, ?_, ?_, ?_⟩ <;> rw [hhead]
    · rw [hfull]
      exact HttpParserImpl.requestMethod_eq_unknown_iff.mpr hd.method
    · rw [hfull]
      exact hstruri.mpr hd.struri
    · rw [hfull]
      exact huri.mpr hd.uri
    · rw [hfull]
      exact keepalive_unset_iff.mpr hd.closes
    · rw [hfull]
      exact hheaders.mpr hd.headers
    · exact some_mod_eq_iff.mpr hd.length

/-- On a buffer `ParseHttpRequest` accepts, the two functions agree exactly when the head
decides everything that `ParseHttpRequest` reads from the buffer. -/
theorem head_agrees_iff_head_decides (L : HttpLib) {buf : Bytes} (nparsed : Nat)
    (h : (HttpParserImpl.parseHttpRequest L buf {}).1 = 0) :
    HeadAgrees L buf (HttpParserImpl.parseHttpRequestHeadOnly L buf {} (some nparsed)) ↔
      HeadDecides L (L.scan .request buf) := by
  have haccepts := HttpParserImpl.parseHttpRequest_zero_iff.mp h
  constructor
  · intro ha
    obtain ⟨hn, hp⟩ := HttpParserImpl.parseHttpRequestHeadOnly_zero_iff.mp ha.ret
    exact (headAgrees_iff_of_paired nparsed haccepts hn hp).mp ha
  · intro hd
    exact (headAgrees_iff_of_paired nparsed haccepts hd.nonempty hd.paired).mpr hd

def headRequest : Bytes := bytes "HEAD /b HTTP/1.1\r\nConnection: close\r\n\r\n"

/-- `http_parser` on a `HEAD` that closes the connection. -/
def headLib : HttpLib :=
  .ofTables
    [((.request, headRequest),
      { events := [(.url (bytes "/b"), 7), (.headerField (bytes "Connection"), 28),
          (.headerValue (bytes "close"), 35), (.headersComplete, 38), (.messageComplete, 39)]
        nparsed := 39
        method := 2 })]
    [(bytes "/b", { path := some (0, 2) })]

theorem head_agrees_on_head_request :
    HeadAgrees headLib headRequest
      (HttpParserImpl.parseHttpRequestHeadOnly headLib headRequest {} (some 0)) := by
  have hurls : (headLib.scan .request headRequest).laterUrls = [] := by decide +kernel
  have hstrings : (headLib.scan .request headRequest).laterStrings = [] := by decide +kernel
  have hclose : (AssocMap.empty.assignAll (headLib.scan .request headRequest).writtenHeaders).find
      (bytes "Connection") = some (bytes "close") := by decide +kernel
  refine (head_agrees_iff_head_decides headLib 0 (by decide +kernel)).mpr
    ⟨by decide +kernel, by decide +kernel, by decide +kernel, by decide +kernel,
      ⟨bytes "close", hclose, by decide +kernel⟩, ?_, ?_, ?_⟩
  · rw [hurls]
    exact .of_nil _ _ _
  · rw [hurls]
    exact .of_nil _ _
  · intro k v hv
    rw [hstrings] at hv
    cases hv

/-- A `POST` without a `Connection` header keeps the method of a new object and is not
kept alive. -/
theorem head_only_loses_method_and_keepalive :
    (HttpParserImpl.parseHttpRequest sampleLib postRequest {}).1 = 0 ∧
    (HttpParserImpl.parseHttpRequest sampleLib postRequest {}).2.method = httpRequestMethodPost ∧
    (HttpParserImpl.parseHttpRequest sampleLib postRequest {}).2.keepalive = true ∧
    (HttpParserImpl.parseHttpRequestHeadOnly sampleLib postRequest {} (some 0)).1 = 0 ∧
    (HttpParserImpl.parseHttpRequestHeadOnly sampleLib postRequest {} (some 0)).2.1.method =
      httpRequestMethodUnknown ∧
    (HttpParserImpl.parseHttpRequestHeadOnly sampleLib postRequest {} (some 0)).2.1.keepalive =
      false ∧
    ¬ ∀ (L : HttpLib) (buf : Bytes) (nparsed : Nat),
      (HttpParserImpl.parseHttpRequest L buf {}).1 = 0 →
        HeadAgrees L buf (HttpParserImpl.parseHttpRequestHeadOnly L buf {} (some nparsed)) := by
  have hret : (HttpParserImpl.parseHttpRequest sampleLib postRequest {}).1 = 0 := by decide +kernel
  have hmethod :
      (HttpParserImpl.parseHttpRequestHeadOnly sampleLib postRequest {} (some 0)).2.1.method ≠
        (HttpParserImpl.parseHttpRequest sampleLib postRequest {}).2.method := by
    decide +kernel
  refine ⟨hret, by decide +kernel, by decide +kernel, by decide +kernel, by decide +kernel,
    by decide +kernel, fun h => hmethod (h sampleLib postRequest 0 hret).method⟩

end Tinyco
