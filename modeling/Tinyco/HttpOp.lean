import Tinyco.DnsResolver
import Tinyco.HttpsClient
import Tinyco.UrlText

/-! `HttpOp`: requests to a server that is given by its address or by a URL, and which client they
go through. -/

namespace Tinyco

open HttpParserImpl

/-- Through `HttpClient`, in clear text, or through `HttpsClient`. -/
inductive Via where
  | plain | tls
  deriving DecidableEq, Repr

structure HttpReplies where
  init : InitReply
  reconnect : InitReply
  sends : List SendReply
  recvs : List RecvReply

structure HttpsReplies where
  init : SslInitReply
  writes : List SslReply
  reads : List SslReadReply

structure Replies where
  http : HttpReplies
  https : HttpsReplies

/-- A call of `__HttpRequest` or `__HttpsRequest`, with the request as it is serialized. -/
structure Route where
  via : Via
  ip : IP
  port : ℕ
  sendbuf : Bytes
  deriving DecidableEq

/-- There is no `ret` if the function does not return: a client is still waiting, has read behind
its buffer, or the assertion on the response has failed. -/
structure OpResult where
  ret : Option Int
  response : HttpResponse
  route : Option Route := none

def TcpConn.RecvEnd.result : TcpConn.RecvEnd → Option (Int × Bytes)
  | .returned ret _ output => some (ret, output.getD [])
  | .overread => none

namespace HttpOp

inductive ErrorCode where
  | none | dnsResolveError | initError | sendAndReceiveError | responseError | unknown
  deriving DecidableEq, Repr

def ErrorCode.code : ErrorCode → Int
  | .none => 0
  | .dnsResolveError => -1
  | .initError => -2
  | .sendAndReceiveError => -3
  | .responseError => -4
  | .unknown => -5

/-- From the result of `Init` and that of `SendAndReceive` of a new client. -/
def sendAndReveive (init : Int) (exchange : Option (Int × Bytes)) : Option (Int × Bytes) :=
  if init < 0 then some (ErrorCode.initError.code, [])
  else exchange.map fun t => if t.1 < 0 then (ErrorCode.sendAndReceiveError.code, t.2) else t

-- The clients only compare the addresses of the two strings with null.
def httpSendAndReveive (L : HttpLib) (r : HttpReplies) (ip : IP) (port : ℕ) (sendbuf : Bytes) :
    Option (Int × Bytes) :=
  let hc := HttpClient.init {} ip.toNat port r.init
  sendAndReveive hc.1 ((HttpClient.sendAndReceive L hc.2 1 sendbuf.length 1 r.reconnect r.sends
    r.recvs).bind TcpConn.RecvEnd.result)

def httpsSendAndReveive (L : HttpLib) (r : HttpsReplies) (ip : IP) (port : ℕ) (sendbuf : Bytes) :
    Option (Int × Bytes) :=
  let hc := HttpsClient.init {} ip.toNat port r.init
  sendAndReveive hc.1 ((hc.2.sendAndReceive L 1 sendbuf.length 1 r.writes r.reads).map fun t =>
    (t.ret, t.output.getD []))

def request (L : HttpLib) (O : IterationOrder) (via : Via) (send : Bytes → Option (Int × Bytes))
    (ip : IP) (port : ℕ) (httpRequest : HttpRequest) (httpResponse : HttpResponse) : OpResult :=
  let sendbuf := (httpRequest.serializeToString O []).2
  let route := some ⟨via, ip, port, sendbuf⟩
  match send sendbuf with
  | none => ⟨none, httpResponse, route⟩
  | some (ret, recvbuf) =>
    if ret < 0 then ⟨some ret, httpResponse, route⟩
    else
      match parseHttpResponse L recvbuf httpResponse with
      | none => ⟨none, httpResponse, route⟩
      | some (ret, httpResponse) =>
        ⟨some (if ret < 0 then ErrorCode.responseError.code else ret), httpResponse, route⟩

variable (L : HttpLib) (O : IterationOrder) (N : Replies)

/-- `__HttpRequest`, which `HttpRequest` calls with its arguments. -/
def httpRequest (ip : IP) (port : ℕ) : HttpRequest → HttpResponse → OpResult :=
  request L O .plain (httpSendAndReveive L N.http ip port) ip port

/-- `__HttpsRequest`, which `HttpsRequest` calls with its arguments. -/
def httpsRequest (ip : IP) (port : ℕ) : HttpRequest → HttpResponse → OpResult :=
  request L O .tls (httpsSendAndReveive L N.https ip port) ip port

def fixUrl (url : Bytes) : Bytes :=
  if url.take 7 ≠ bytes "http://" ∧ url.take 8 ≠ bytes "https://" then bytes "http://" ++ url else url

/-- The common part of `HttpGet` and `HttpPost`: `make` is the request for a URL before the extra
headers. The name of the host is passed on as a C string and the port as a `uint16_t`. -/
def fetch (resolve : Bytes → Option IP) (make : URL → HttpRequest) (url : Bytes)
    (extraHeaders : List (Bytes × Bytes)) (hr : HttpResponse) : OpResult :=
  let t := parseUrl L (fixUrl url) {}
  let urlobj := t.2
  if t.1 < 0 then ⟨some ErrorCode.unknown.code, hr, none⟩
  else
    match resolve (urlobj.host.takeWhile (· ≠ 0)) with
    | none => ⟨some ErrorCode.dnsResolveError.code, hr, none⟩
    | some ip =>
      let r := extraHeaders.foldl (fun r e => r.setHeader e.1 e.2) (make urlobj)
      let port := urlobj.port.getD 0 % 2 ^ 16
      if !urlobj.isHttps then httpRequest L O N ip port r hr else httpsRequest L O N ip port r hr

def httpGet (resolve : Bytes → Option IP) (url : Bytes) (extraHeaders : List (Bytes × Bytes))
    (hr : HttpResponse) : OpResult :=
  fetch L O N resolve (fun urlobj =>
    ((({} : HttpRequest).setHeader (bytes "Host") urlobj.host).setMethod httpRequestMethodGet).setUri
      urlobj.uri) url extraHeaders hr

def httpPost (resolve : Bytes → Option IP) (url : Bytes) (extraHeaders : List (Bytes × Bytes))
    (content : Bytes) (hr : HttpResponse) : OpResult :=
  fetch L O N resolve (fun urlobj =>
    (((({} : HttpRequest).setMethod httpRequestMethodPost).setUri urlobj.uri).setHeader
      (bytes "Host") urlobj.host).setContent content) url extraHeaders hr

section Route

def urlHost (url : Bytes) (f : UrlFields) : Bytes := (f.host.map (slice url)).getD []

def explicitPort (url : Bytes) (f : UrlFields) : Option ℕ := f.port.map fun p => stoul (slice url p)

def schemePort (url : Bytes) : ℕ := if bytes "https://" <+: url then 443 else 80

/-- A request goes out once the host has an address, to that address, through the client for the
scheme of the URL and on its port. -/
structure FollowsUrl (resolve : Bytes → Option IP) (url : Bytes) (f : UrlFields) (r : OpResult) :
    Prop where
  ip : r.route.map Route.ip = resolve ((urlHost url f).takeWhile (· ≠ 0))
  tls : ∀ t ∈ r.route, t.via = .tls ↔ bytes "https://" <+: url
  plain : ∀ t ∈ r.route, t.via = .plain ↔ bytes "http://" <+: url
  port : ∀ t ∈ r.route, t.port = (explicitPort url f).getD (schemePort url)

/-- An explicit port is 443 if the scheme is `https` and only then. -/
def PortFitsScheme (url : Bytes) (f : UrlFields) : Prop :=
  ∀ n, explicitPort url f = some n → (n = 443 ↔ bytes "https://" <+: url)

variable {L O N} {resolve : Bytes → Option IP} {url : Bytes} {f : UrlFields} {u : UrlText}

theorem route_request (via : Via) (send : Bytes → Option (Int × Bytes)) (ip : IP) (port : ℕ)
    (r : HttpRequest) (hr : HttpResponse) :
    (request L O via send ip port r hr).route =
      some ⟨via, ip, port, (r.serializeToString O []).2⟩ := by
  simp only [request]
  split
  · rfl
  · split
    · rfl
    · split <;> rfl

theorem fixUrl_of_begins (h : bytes "http://" <+: url ∨ bytes "https://" <+: url) :
    fixUrl url = url := by
  refine if_neg fun hne => ?_
  rcases h with h | h
  · exact hne.1 (List.prefix_iff_eq_take.mp h).symm
  · exact hne.2 (List.prefix_iff_eq_take.mp h).symm

/-- The client is chosen by the port. -/
theorem route_fetch (O : IterationOrder) (N : Replies) (resolve : Bytes → Option IP)
    (hfix : fixUrl url = url) (h : L.parseUrl url = some f) {port : ℕ}
    (hport : urlPort url f (hasAndSet url f.schema []) = port) (make : URL → HttpRequest)
    (extraHeaders : List (Bytes × Bytes)) (hr : HttpResponse) :
    ∃ sendbuf, (fetch L O N resolve make url extraHeaders hr).route =
      (resolve ((urlHost url f).takeWhile (· ≠ 0))).map fun ip =>
        ⟨if port = 443 then .tls else .plain, ip, port % 2 ^ 16, sendbuf⟩ := by
  refine ⟨((extraHeaders.foldl (fun r e => r.setHeader e.1 e.2)
    (make (parseUrl L url {}).2)).serializeToString O []).2, ?_⟩
  have hret : (parseUrl L url {}).1 = 0 := by simp [parseUrl, h]
  have hhost : (parseUrl L url {}).2.host = urlHost url f := by
    rw [parseUrl_of_some h]
    rfl
  have hurlPort : (parseUrl L url {}).2.port = some port := by rw [parseUrl_of_some h, ← hport]
  simp only [fetch, hfix, hret, lt_irrefl, if_false, hhost, URL.isHttps, hurlPort,
    Option.getD_some, Option.some.injEq]
  cases resolve ((urlHost url f).takeWhile (· ≠ 0)) with
  | none => rfl
  | some ip =>
    by_cases h443 : port = 443
    · simp [h443, httpsRequest, route_request]
    · simp [h443, httpRequest, route_request]

theorem urlPort_of_schema {t : Bytes} (ht : u.schema = some t) :
    urlPort u.toBytes u.fields (hasAndSet u.toBytes u.fields.schema []) =
      (explicitPort u.toBytes u.fields).getD (if t = bytes "http" then 80 else 443) := by
  have hschema : u.fields.schema = some (0, t.length) := by simp [UrlText.fields, ht]
  rw [urlPort, hschema, hasAndSet, u.slice_schema ht, explicitPort]
  cases u.fields.port <;> rfl

theorem explicitPort_lt (hu : u.WellFormed) {n : ℕ} (h : explicitPort u.toBytes u.fields = some n) :
    n < 2 ^ 16 := by
  rw [explicitPort, u.reported_port hu] at h
  obtain ⟨p, hp, rfl⟩ := Option.map_eq_some_iff.mp h
  exact (hu.port_lt p hp).2

theorem not_http_and_https : ¬ (bytes "http://" <+: url ∧ bytes "https://" <+: url) := by
  rintro ⟨h, hs⟩
  have hpre := List.prefix_of_prefix_length_le h hs (by decide)
  exact absurd hpre (by decide)

theorem urlPort_eq (hu : u.WellFormed)
    (h : bytes "http://" <+: u.toBytes ∨ bytes "https://" <+: u.toBytes) :
    urlPort u.toBytes u.fields (hasAndSet u.toBytes u.fields.schema []) =
      (explicitPort u.toBytes u.fields).getD (schemePort u.toBytes) := by
  rcases h with h | h
  · have hs : u.schema = some (bytes "http") :=
      u.schema_of_begins hu (by decide) (by decide) (by decide) h
    rw [urlPort_of_schema hs, schemePort, if_pos rfl, if_neg fun hn => not_http_and_https ⟨h, hn⟩]
  · have hs : u.schema = some (bytes "https") :=
      u.schema_of_begins hu (by decide) (by decide) (by decide) h
    rw [urlPort_of_schema hs, schemePort, if_neg (by decide), if_pos h]

theorem explicitPort_getD_lt (hu : u.WellFormed) :
    (explicitPort u.toBytes u.fields).getD (schemePort u.toBytes) < 2 ^ 16 := by
  cases h : explicitPort u.toBytes u.fields with
  | none =>
    rw [Option.getD_none, schemePort]
    split <;> decide
  | some n => exact explicitPort_lt hu h

theorem portFitsScheme_iff :
    PortFitsScheme url f ↔
      ((explicitPort url f).getD (schemePort url) = 443 ↔ bytes "https://" <+: url) := by
  cases h : explicitPort url f with
  | none => by_cases hs : bytes "https://" <+: url <;> simp [PortFitsScheme, h, schemePort, hs]
  | some n => simp [PortFitsScheme, h]

theorem followsUrl_fetch_iff (hL : L.ReadsUrls)
    (hurl : bytes "http://" <+: url ∨ bytes "https://" <+: url) (hf : L.parseUrl url = some f)
    (make : URL → HttpRequest) (extraHeaders : List (Bytes × Bytes)) (hr : HttpResponse) :
    FollowsUrl resolve url f (fetch L O N resolve make url extraHeaders hr) ↔
      PortFitsScheme url f ∨ resolve ((urlHost url f).takeWhile (· ≠ 0)) = none := by
  obtain ⟨u, hu, rfl, rfl⟩ := hL url f hf
  obtain ⟨sendbuf, hroute⟩ := route_fetch O N resolve (fixUrl_of_begins hurl) hf
    (urlPort_eq hu hurl) make extraHeaders hr
  rw [Nat.mod_eq_of_lt (explicitPort_getD_lt hu)] at hroute
  rw [portFitsScheme_iff]
  cases hip : resolve ((urlHost u.toBytes u.fields).takeWhile (· ≠ 0)) with
  | none =>
    rw [hip, Option.map_none] at hroute
    refine iff_of_true ⟨?_, ?_, ?_, ?_⟩ (.inr rfl)
    · rw [hroute, hip, Option.map_none]
    all_goals simp [hroute]
  | some ip =>
    rw [hip, Option.map_some] at hroute
    have hone : bytes "http://" <+: u.toBytes ↔ ¬ bytes "https://" <+: u.toBytes :=
      ⟨fun h hs => not_http_and_https ⟨h, hs⟩, hurl.resolve_right⟩
    constructor
    · intro h
      have htls := h.tls _ hroute
      simpa using htls
    · rintro (h | h)
      · refine ⟨?_, ?_, ?_, ?_⟩
        · rw [hroute, hip, Option.map_some]
        all_goals simp [hroute, hone, h]
      · cases h

end Route

/-- `HttpGet` and `HttpPost` follow a URL exactly when its explicit port, if there is one, is 443 for
`https` and for nothing else, or when its host has no address. -/
theorem get_and_post_follow_iff (L : HttpLib) (hL : L.ReadsUrls) (O : IterationOrder) (N : Replies)
    (resolve : Bytes → Option IP) (url : Bytes) (f : UrlFields)
    (hurl : bytes "http://" <+: url ∨ bytes "https://" <+: url) (hf : L.parseUrl url = some f)
    (extraHeaders : List (Bytes × Bytes)) (content : Bytes) (hr : HttpResponse) :
    FollowsUrl resolve url f (httpGet L O N resolve url extraHeaders hr) ∧
        FollowsUrl resolve url f (httpPost L O N resolve url extraHeaders content hr) ↔
      PortFitsScheme url f ∨ resolve ((urlHost url f).takeWhile (· ≠ 0)) = none := by
  rw [httpGet, httpPost, followsUrl_fetch_iff hL hurl hf, followsUrl_fetch_iff hL hurl hf, and_self]

theorem https_root_follows :
    (urlLib [plainUrl (bytes "https") (bytes "/")]).ReadsUrls ∧
      ∀ O N resolve, FollowsUrl resolve (bytes "https://h/") (plainUrl (bytes "https") (bytes "/")).fields
        (httpGet (urlLib [plainUrl (bytes "https") (bytes "/")]) O N resolve (bytes "https://h/") []
          {}) := by
  have hL : (urlLib [plainUrl (bytes "https") (bytes "/")]).ReadsUrls :=
    urlLib_readsUrls (by simpa using plainUrl_wellFormed (by decide))
  refine ⟨hL, fun O N resolve => ?_⟩
  have hfits : PortFitsScheme (bytes "https://h/") (plainUrl (bytes "https") (bytes "/")).fields :=
    fun n hn => by cases hn
  exact ((get_and_post_follow_iff _ hL O N resolve _ _ (.inr (by decide)) (by decide) [] [] {}).mpr
    (.inl hfits)).1

def altPortUrl : UrlText :=
  { schema := some (bytes "https"), host := bytes "h", port := some (bytes "8443"), path := bytes "/" }

theorem altPortUrl_wellFormed : altPortUrl.WellFormed where
  schema_colon t ht := by
    cases ht
    decide
  relative h := by cases h
  port_lt p hp := by
    cases hp
    decide
  fragment_hash _ := rfl

/-- A request for `https` on another port than 443 is sent in clear text. -/
theorem https_sent_in_clear :
    (urlLib [altPortUrl]).ReadsUrls ∧ bytes "https://" <+: bytes "https://h:8443/" ∧
      (urlLib [altPortUrl]).parseUrl (bytes "https://h:8443/") = some altPortUrl.fields ∧
      ∀ O N, (∃ sendbuf, (httpGet (urlLib [altPortUrl]) O N (fun _ => some 1) (bytes "https://h:8443/")
          [] {}).route = some ⟨.plain, 1, 8443, sendbuf⟩) ∧
        ¬ FollowsUrl (fun _ => some 1) (bytes "https://h:8443/") altPortUrl.fields
          (httpGet (urlLib [altPortUrl]) O N (fun _ => some 1) (bytes "https://h:8443/") [] {}) := by
  refine ⟨urlLib_readsUrls (by simpa using altPortUrl_wellFormed), by decide, by decide,
    fun O N => ?_⟩
  obtain ⟨sendbuf, hroute⟩ : ∃ sendbuf, (httpGet (urlLib [altPortUrl]) O N (fun _ => some 1)
      (bytes "https://h:8443/") [] {}).route = some ⟨.plain, 1, 8443, sendbuf⟩ :=
    route_fetch O N (fun _ => some 1) (by decide) (by decide)
      (show urlPort (bytes "https://h:8443/") altPortUrl.fields
        (hasAndSet (bytes "https://h:8443/") altPortUrl.fields.schema []) = 8443 by decide) _ [] {}
  refine ⟨⟨sendbuf, hroute⟩, fun h => ?_⟩
  have htls := (h.tls _ hroute).mpr (by decide)
  cases htls

end HttpOp

end Tinyco
