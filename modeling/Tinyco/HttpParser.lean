import Tinyco.HttpMessage
import Tinyco.StringUtil

/-! `HttpParserImpl` of `http_tool.cc` over the library `http_parser`. The library is a
parameter: what it finds in a buffer, as the sequence of the callbacks it makes. -/

namespace Tinyco

inductive ParserType where
  | request | response | both
  deriving DecidableEq, Repr

inductive ParserEvent where
  | url (data : Bytes)
  | headerField (data : Bytes)
  | headerValue (data : Bytes)
  | headersComplete
  | body (data : Bytes)
  | messageComplete
  deriving DecidableEq, Repr

/-- What the parser does with a buffer as long as the callbacks return zero. Each
callback has the number of bytes the parser reports if it stops there; `method` and
`statusCode` are the fields of the parser afterwards. -/
structure ParserScan where
  events : List (ParserEvent × Nat) := []
  nparsed : Nat := 0
  method : Nat := 0
  statusCode : Nat := 0
  deriving DecidableEq, Repr

/-- `field_data` of `http_parser_url`, offset and length of the fields that are set. -/
structure UrlFields where
  schema : Option (Nat × Nat) := none
  host : Option (Nat × Nat) := none
  port : Option (Nat × Nat) := none
  path : Option (Nat × Nat) := none
  query : Option (Nat × Nat) := none
  fragment : Option (Nat × Nat) := none
  userinfo : Option (Nat × Nat) := none
  deriving DecidableEq, Repr

/-- The functions of `http_parser` and `curl` that are used. -/
structure HttpLib where
  scan : ParserType → Bytes → ParserScan
  parseUrl : Bytes → Option UrlFields
  curlUnescape : Bytes → Bytes

/-- A library that knows the buffers and the URLs of two tables, and no others. -/
def HttpLib.ofTables (scans : List ((ParserType × Bytes) × ParserScan))
    (urls : List (Bytes × UrlFields)) : HttpLib where
  scan ty buf := (scans.lookup (ty, buf)).getD {}
  parseUrl s := urls.lookup s
  curlUnescape := id

variable {σ : Type*}

/-- The callbacks of a buffer in order, up to the first that does not return zero. -/
def runCallbacks (cb : σ → ParserEvent → σ × Int) (total : Nat) :
    σ → List (ParserEvent × Nat) → σ × Nat
  | s, [] => (s, total)
  | s, (e, off) :: es =>
    if (cb s e).2 = 0 then runCallbacks cb total (cb s e).1 es else ((cb s e).1, off)

def HttpLib.execute (L : HttpLib) (cb : σ → ParserEvent → σ × Int) (s : σ) (ty : ParserType)
    (buf : Bytes) : σ × Nat :=
  runCallbacks cb (L.scan ty buf).nparsed s (L.scan ty buf).events

def slice (s : Bytes) (f : Nat × Nat) : Bytes := (s.drop f.1).take f.2

def stoul (s : Bytes) : Nat :=
  (s.takeWhile fun c => 48 ≤ c && c ≤ 57).foldl (fun n c => 10 * n + (c.toNat - 48)) 0

namespace HttpParserImpl

def hasAndSet (s : Bytes) (field : Option (Nat × Nat)) (member : Bytes) : Bytes :=
  match field with
  | some f => slice s f
  | none => member

def urlPort (s : Bytes) (hpurl : UrlFields) (schema : Bytes) : Nat :=
  match hpurl.port with
  | some f => stoul (slice s f)
  | none =>
    if hpurl.schema.isSome then (if schema = bytes "http" then 80 else 443) else 80

def urlUri (s : Bytes) (hpurl : UrlFields) (uri : Bytes) : Bytes :=
  let uri := match hpurl.path with
    | some f => slice s (f.1, s.length - f.1 - 1)
    | none => uri
  if uri = [] then bytes "/" else uri

def queryPairs (L : HttpLib) (query : Bytes) : List (Bytes × Bytes) :=
  (split query 38).filterMap fun item =>
    match split item 61 with
    | k :: v :: _ => some (L.curlUnescape k, L.curlUnescape v)
    | _ => none

def parseUrl (L : HttpLib) (s : Bytes) (url : URL) : Int × URL :=
  match L.parseUrl s with
  | none => (-1, url)
  | some hpurl =>
    let schema := hasAndSet s hpurl.schema url.schema
    let query := hasAndSet s hpurl.query url.query
    (0,
      { schema := schema
        host := hasAndSet s hpurl.host url.host
        port := some (urlPort s hpurl schema)
        path := hasAndSet s hpurl.path url.path
        uri := urlUri s hpurl url.uri
        query := query
        fragment := hasAndSet s hpurl.fragment url.fragment
        userinfo := hasAndSet s hpurl.userinfo url.userinfo
        queryParams := url.queryParams.assignAll (queryPairs L query) })

/-- `header_field_cb`, `header_value_cb`, `request_url_cb` and `request_body_cb` on the
request and the vector of header strings. -/
def requestCallback (L : HttpLib) (t : HttpRequest × List Bytes) (e : ParserEvent) :
    (HttpRequest × List Bytes) × Int :=
  match e with
  | .url data =>
    let r := t.1.setUri data
    (({ r with uri := (parseUrl L r.struri r.uri).2 }, t.2), 0)
  | .headerField data => ((t.1, t.2 ++ [data]), 0)
  | .headerValue data => ((t.1, t.2 ++ [data]), 0)
  | .body data => ((t.1.setContent data, t.2), 0)
  | .headersComplete => (t, 0)
  | .messageComplete => (t, 0)

/-- `headers[i]` with `headers[i + 1]` for even `i`. -/
def headerPairs : List Bytes → List (Bytes × Bytes)
  | f :: v :: hs => (f, v) :: headerPairs hs
  | _ => []

/-- The parser numbers `GET` with 1 and `POST` with 3. -/
def requestMethod (method : Nat) : UInt8 :=
  match method with
  | 1 => httpRequestMethodGet
  | 3 => httpRequestMethodPost
  | _ => httpRequestMethodUnknown

def setKeepAlive (r : HttpRequest) : HttpRequest :=
  if r.isHeader (bytes "Connection") then
    if (r.getHeader (bytes "Connection")).map tolower = bytes "keep-alive" then
      { r with keepalive := true }
    else r
  else { r with keepalive := true }

def parseHttpRequest (L : HttpLib) (httpbuf : Bytes) (r : HttpRequest) : Int × HttpRequest :=
  let t := L.execute (requestCallback L) (r, []) .request httpbuf
  if t.2 ≠ httpbuf.length then (-1, t.1.1)
  else if t.1.2.length % 2 ≠ 0 then (-2, t.1.1)
  else
    let r := (headerPairs t.1.2).foldl (fun r e => r.setHeader e.1 e.2) t.1.1
    let r := { r with method := requestMethod (L.scan .request httpbuf).method }
    (0, setKeepAlive r)

def responseCallback (t : HttpResponse × List Bytes) (e : ParserEvent) :
    (HttpResponse × List Bytes) × Int :=
  match e with
  | .headerField data => ((t.1, t.2 ++ [data]), 0)
  | .headerValue data => ((t.1, t.2 ++ [data]), 0)
  | .body data => ((t.1.setContent data, t.2), 0)
  | .url _ | .headersComplete | .messageComplete => (t, 0)

/-- No result is the failure of the assertion. -/
def parseHttpResponse (L : HttpLib) (httpbuf : Bytes) (r : HttpResponse) :
    Option (Int × HttpResponse) :=
  let t := L.execute responseCallback (r, []) .response httpbuf
  if t.2 ≠ httpbuf.length then some (-1, t.1.1)
  else if t.1.2.length % 2 ≠ 0 then none
  else
    let r := (headerPairs t.1.2).foldl (fun r e => r.setHeader e.1 e.2) t.1.1
    some (0, r.setStatus (L.scan .response httpbuf).statusCode)

end HttpParserImpl

inductive HttpParseCode where
  | ok | notHttp | notCompleteHttp | unknown
  deriving DecidableEq, Repr

/-- The values of the enumeration; the last one follows on -2. -/
def HttpParseCode.code : HttpParseCode → Int
  | .ok => 0
  | .notHttp => -1
  | .notCompleteHttp => -2
  | .unknown => -1

theorem HttpParseCode.code_cases (c : HttpParseCode) :
    c.code = HttpParseCode.ok.code ∨ c.code = HttpParseCode.notHttp.code ∨
      c.code = HttpParseCode.notCompleteHttp.code := by
  cases c <;> simp [HttpParseCode.code]

namespace HttpParserImpl

def httpComplete (complete : Bool) : ParserEvent → Bool × Int
  | .messageComplete => (true, -1)
  | _ => (complete, 0)

/-- `CheckHttp` with `*szparsed`, which is zero before. The number of bytes goes through
an `int`. -/
def checkHttp (L : HttpLib) (httpbuf : Bytes) : HttpParseCode × Nat :=
  let t := L.execute httpComplete false .both httpbuf
  let nparsed : Int := Int.bmod t.2 (2 ^ 32)
  let fits := t.2 % 2 ^ 32 ≤ httpbuf.length
  if fits ∧ t.1 = true then (.ok, (nparsed % 2 ^ 64).toNat)
  else if nparsed = 0 then (.notHttp, 0)
  else if fits ∧ t.1 = false then (.notCompleteHttp, 0)
  else (.unknown, 0)

theorem checkHttp_of_complete {L : HttpLib} {buf : Bytes} {n : Nat} (hn : n < 2 ^ 31)
    (hle : n ≤ buf.length) (h : L.execute httpComplete false .both buf = (true, n)) :
    checkHttp L buf = (.ok, n) := by
  have hmod : n % 2 ^ 32 = n := Nat.mod_eq_of_lt (by omega)
  have hint : Int.bmod n (2 ^ 32) = n := Int.bmod_eq_of_le (by omega) (by omega)
  have hnat : ((n : Int) % 2 ^ 64).toNat = n := by omega
  simp only [checkHttp, h, hmod, hint, hle, hnat, and_self, if_true]

theorem checkHttp_of_incomplete {L : HttpLib} {buf : Bytes} {n : Nat} (h0 : 0 < n)
    (hn : n < 2 ^ 32) (hle : n ≤ buf.length)
    (h : L.execute httpComplete false .both buf = (false, n)) :
    checkHttp L buf = (.notCompleteHttp, 0) := by
  have hmod : n % 2 ^ 32 = n := Nat.mod_eq_of_lt hn
  have hint : Int.bmod n (2 ^ 32) ≠ 0 := by
    rw [Ne, ← Int.dvd_iff_bmod_eq_zero]
    omega
  simp only [checkHttp, h, hmod, hint, hle, Bool.false_eq_true, and_false, and_self, if_false,
    if_true]

end HttpParserImpl

def checkPkg (L : HttpLib) (buffer : Bytes) : Int :=
  let t := HttpParserImpl.checkHttp L buffer
  if t.1.code = HttpParseCode.ok.code then Int.bmod t.2 (2 ^ 32)
  else if t.1.code = HttpParseCode.notCompleteHttp.code then 0
  else -1

end Tinyco
