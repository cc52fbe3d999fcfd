import Tinyco.RpcService

/-! The response object of a `TinycoRpc` over the requests of a connection, and when a
reply carries nothing over from the earlier ones. -/

namespace Tinyco

variable {M : Type*} {map : MethodMap M} {O : IterationOrder} {rs : List HttpRequest}
  {r : HttpRequest} {h : HttpResponse}

def okBody (map : MethodMap M) (r : HttpRequest) : Option Bytes :=
  match rpcOutcome map r with
  | .ok response => some response
  | _ => none

/-- The `Connection` header of a request that is answered. -/
def replyConnection (map : MethodMap M) (r : HttpRequest) : Option Bytes :=
  if rpcOutcome map r = .badBody then none else r.headers.find (bytes "Connection")

def sawNotFound (map : MethodMap M) (rs : List HttpRequest) : Bool :=
  rs.any fun r => decide (rpcOutcome map r = .notFound)

def lastOk (map : MethodMap M) (rs : List HttpRequest) : Option Bytes :=
  lastWritten (fun r => (okBody map r).map some) none rs

def lastConnection (map : MethodMap M) (rs : List HttpRequest) : Option Bytes :=
  lastWritten (fun r => (replyConnection map r).map some) none rs

/-- `hrsp_` after the requests `rs` on a new object. -/
def hrspAfter (O : IterationOrder) (map : MethodMap M) (rs : List HttpRequest) : HttpResponse :=
  rs.foldl (fun h r => (TinycoRpc.serve O map r h).1) {}

def contentEntry (ok : Option Bytes) : List (Bytes × Bytes) :=
  (ok.map fun b => (bytes "Content-Length", decimal b.length)).toList

def connectionEntry (connection : Option Bytes) : List (Bytes × Bytes) :=
  (connection.map fun v => (bytes "Connection", v)).toList

/-- The headers of a reply. They can stand the other way round only if a request was not
found. -/
def HeadersAre (notFound : Bool) (ok connection : Option Bytes) (es : List (Bytes × Bytes)) :
    Prop :=
  es = contentEntry ok ++ connectionEntry connection ∨
    notFound = true ∧ es = connectionEntry connection ++ contentEntry ok

/-- `h` after a history in which a request was not found or not, with the last response
`ok` and the last `Connection` header that was copied. -/
structure Holds (notFound : Bool) (ok connection : Option Bytes) (h : HttpResponse) : Prop where
  status : h.status = if notFound then 404 else 200
  content : h.content = ok.getD []
  headers : HeadersAre notFound ok connection h.headers.entries

theorem contentLength_ne_connection : bytes "Content-Length" ≠ bytes "Connection" := by decide

theorem HeadersAre.setContent {notFound : Bool} {ok connection : Option Bytes}
    {es : List (Bytes × Bytes)} (hes : HeadersAre notFound ok connection es)
    (hfirst : ok = none → connection ≠ none → notFound = true) (b : Bytes) :
    HeadersAre notFound (some b) connection
      (AssocMap.assignEntries (bytes "Content-Length") (decimal b.length) es) := by
  have hne := contentLength_ne_connection
  rcases hes with rfl | ⟨hnf, rfl⟩ <;> cases ok <;> cases connection <;>
    simp_all [HeadersAre, contentEntry, connectionEntry, AssocMap.assignEntries, Ne.symm]

theorem HeadersAre.setConnection {notFound : Bool} {ok connection : Option Bytes}
    {es : List (Bytes × Bytes)} (hes : HeadersAre notFound ok connection es) (v : Bytes) :
    HeadersAre notFound ok (some v) (AssocMap.assignEntries (bytes "Connection") v es) := by
  have hne := contentLength_ne_connection
  rcases hes with rfl | ⟨hnf, rfl⟩ <;> cases ok <;> cases connection <;>
    simp_all [HeadersAre, contentEntry, connectionEntry, AssocMap.assignEntries, Ne.symm]

theorem HeadersAre.eq_of_one {notFound : Bool} {ok connection : Option Bytes}
    {es : List (Bytes × Bytes)} (hes : HeadersAre notFound ok connection es)
    (hone : notFound = false ∨ ok = none) :
    es = contentEntry ok ++ connectionEntry connection := by
  rcases hes with hes | ⟨hnf, hes⟩
  · exact hes
  · rcases hone with hone | rfl
    · exact absurd (hnf.symm.trans hone) (by decide)
    · rw [hes]
      simp [contentEntry]

section

variable {α β : Type*} {g : β → Option α} {l : List β}

theorem lastWritten_some_concat (g : β → Option α) (l : List β) (s : β) :
    lastWritten (fun s => (g s).map some) none (l ++ [s]) =
      (g s).or (lastWritten (fun s => (g s).map some) none l) := by
  simp only [lastWritten, List.foldl_append, List.foldl_cons, List.foldl_nil]
  cases g s <;> rfl

theorem exists_of_lastWritten_some {a : α}
    (h : lastWritten (fun s => (g s).map some) none l = some a) : ∃ s ∈ l, g s = some a := by
  induction l using List.reverseRecOn with
  | nil => simp [lastWritten] at h
  | append_singleton l s ih =>
    rw [lastWritten_some_concat] at h
    cases hs : g s with
    | none =>
      obtain ⟨t, ht, hg⟩ := ih (by simpa [hs] using h)
      exact ⟨t, List.mem_append_left _ ht, hg⟩
    | some b => exact ⟨s, by simp, by simpa [hs] using h⟩

end

theorem lastOk_concat (map : MethodMap M) (rs : List HttpRequest) (r : HttpRequest) :
    lastOk map (rs ++ [r]) = (okBody map r).or (lastOk map rs) :=
  lastWritten_some_concat _ _ _

theorem lastConnection_concat (map : MethodMap M) (rs : List HttpRequest) (r : HttpRequest) :
    lastConnection map (rs ++ [r]) = (replyConnection map r).or (lastConnection map rs) :=
  lastWritten_some_concat _ _ _

theorem sawNotFound_concat (map : MethodMap M) (rs : List HttpRequest) (r : HttpRequest) :
    sawNotFound map (rs ++ [r]) =
      (sawNotFound map rs || decide (rpcOutcome map r = .notFound)) := by
  simp [sawNotFound]

theorem Holds.reply {notFound : Bool} {ok connection : Option Bytes}
    (hh : Holds notFound ok connection h) (O : IterationOrder) (r : HttpRequest) :
    Holds notFound ok ((r.headers.find (bytes "Connection")).or connection)
      (TinycoRpc.reply O r h).1 := by
  cases hc : r.headers.find (bytes "Connection") with
  | none => simpa [TinycoRpc.reply, HttpRequest.isHeader, hc] using hh
  | some v =>
    have hr : (TinycoRpc.reply O r h).1 = h.setHeader (bytes "Connection") v := by
      simp [TinycoRpc.reply, HttpRequest.isHeader, HttpRequest.getHeader, hc]
    rw [hr]
    exact ⟨hh.status, hh.content, hh.headers.setConnection v⟩

/-- A connection is copied before any response only in a reply that was not found. -/
def ConnectionFirst (map : MethodMap M) (rs : List HttpRequest) : Prop :=
  lastOk map rs = none → lastConnection map rs ≠ none → sawNotFound map rs = true

theorem ConnectionFirst.concat (hf : ConnectionFirst map rs) (r : HttpRequest) :
    ConnectionFirst map (rs ++ [r]) := by
  unfold ConnectionFirst at hf ⊢
  rw [lastOk_concat, lastConnection_concat, sawNotFound_concat]
  cases ho : rpcOutcome map r <;> simp [okBody, replyConnection, ho]
  exact hf

theorem Holds.serve (hh : Holds (sawNotFound map rs) (lastOk map rs) (lastConnection map rs) h)
    (hf : ConnectionFirst map rs) (O : IterationOrder) (r : HttpRequest) :
    Holds (sawNotFound map (rs ++ [r])) (lastOk map (rs ++ [r])) (lastConnection map (rs ++ [r]))
      (TinycoRpc.serve O map r h).1 := by
  rw [lastOk_concat, lastConnection_concat, sawNotFound_concat, TinycoRpc.serve_eq]
  cases ho : rpcOutcome map r with
  | notFound =>
    have h404 : Holds true (lastOk map rs) (lastConnection map rs) (h.setStatus 404) :=
      ⟨rfl, hh.content, hh.headers.imp_right fun hes => ⟨rfl, hes.2⟩⟩
    simpa [okBody, replyConnection, ho, TinycoRpc.reply404] using h404.reply O r
  | badBody => simpa [okBody, replyConnection, ho] using hh
  | ok b =>
    have hset : Holds (sawNotFound map rs) (some b) (lastConnection map rs) (h.setContent b) :=
      ⟨hh.status, rfl, hh.headers.setContent hf b⟩
    simpa [okBody, replyConnection, ho] using hset.reply O r

theorem holds_hrspAfter (O : IterationOrder) (map : MethodMap M) (rs : List HttpRequest) :
    ConnectionFirst map rs ∧ Holds (sawNotFound map rs) (lastOk map rs) (lastConnection map rs)
      (hrspAfter O map rs) := by
  induction rs using List.reverseRecOn with
  | nil => exact ⟨fun _ hne => absurd rfl hne, rfl, rfl, .inl rfl⟩
  | append_singleton rs r ih =>
    refine ⟨ih.1.concat r, ?_⟩
    rw [hrspAfter, List.foldl_append]
    exact ih.2.serve ih.1 O r

theorem serve_sent (O : IterationOrder) (map : MethodMap M) (r : HttpRequest) (h : HttpResponse) :
    (TinycoRpc.serve O map r h).2 =
      if rpcOutcome map r = .badBody then []
      else [(TinycoRpc.serve O map r h).1.serializeToString O] := by
  rw [TinycoRpc.serve_eq]
  cases rpcOutcome map r <;> simp [TinycoRpc.reply404, TinycoRpc.reply]

def headerLength (e : Bytes × Bytes) : Nat :=
  if e.2 = [] then 0 else (HttpResponse.headerLine e).length

def headersLength (es : List (Bytes × Bytes)) : Nat := (es.map headerLength).sum

theorem headersLength_append (es es' : List (Bytes × Bytes)) :
    headersLength (es ++ es') = headersLength es + headersLength es' := by
  simp [headersLength]

theorem length_printed (es : List (Bytes × Bytes)) :
    (((es.filter fun e => decide (e.2 ≠ [])).map HttpResponse.headerLine).flatten).length =
      headersLength es := by
  induction es with
  | nil => rfl
  | cons e es ih =>
    simp only [headersLength, List.map_cons, List.sum_cons] at ih ⊢
    by_cases he : e.2 = [] <;> simp [headerLength, he, ← ih]

theorem length_printedHeaders (O : IterationOrder) (h : HttpResponse) :
    (((h.printedHeaders O).map HttpResponse.headerLine).flatten).length =
      headersLength h.headers.entries := by
  rw [HttpResponse.printedHeaders, length_printed]
  exact ((O.order_perm _).map headerLength).sum_nat

theorem HeadersAre.length {notFound : Bool} {ok connection : Option Bytes}
    {es : List (Bytes × Bytes)} (hes : HeadersAre notFound ok connection es) :
    headersLength es =
      headersLength (contentEntry ok) + headersLength (connectionEntry connection) := by
  rcases hes with rfl | ⟨_, rfl⟩ <;> rw [headersLength_append]
  exact Nat.add_comm _ _

theorem headersLength_contentEntry_pos (b : Bytes) : 0 < headersLength (contentEntry (some b)) := by
  have hd := decimal_ne_nil b.length
  simp only [contentEntry, headersLength, headerLength, hd, HttpResponse.headerLine, crlf,
    Option.map_some, Option.toList_some, List.map_cons, List.map_nil, List.sum_cons, List.sum_nil,
    if_false, List.length_append, List.length_cons, List.length_nil]
  omega

theorem headersLength_connectionEntry_eq_zero_iff {connection : Option Bytes} :
    headersLength (connectionEntry connection) = 0 ↔ connection.getD [] = [] := by
  cases connection with
  | none => simp [connectionEntry, headersLength]
  | some v =>
    by_cases hv : v = [] <;>
      simp [connectionEntry, headersLength, headerLength, hv, HttpResponse.headerLine, crlf]

theorem Holds.serialize {notFound : Bool} {ok connection : Option Bytes}
    (hh : Holds notFound ok connection h) (O : IterationOrder) :
    (h.serializeToString O)[9]? = some (if notFound then 52 else 50) ∧
      (h.serializeToString O).length =
        (HttpResponse.statusLine (if notFound then 404 else 200)).length +
          headersLength (contentEntry ok) + headersLength (connectionEntry connection) + 2 +
          (ok.getD []).length := by
  constructor
  · rw [HttpResponse.serializeToString, hh.status]
    cases notFound <;> rfl
  · simp only [HttpResponse.serializeToString, List.length_append, length_printedHeaders,
      hh.headers.length, hh.status, hh.content, crlf, List.length_cons, List.length_nil]
    omega

theorem Holds.eq_of_serialize {notFound notFound' : Bool} {ok ok' c c' : Option Bytes}
    {g : HttpResponse} (hh : Holds notFound ok c h) (hg : Holds notFound' ok' c' g)
    (he : h.serializeToString O = g.serializeToString O) :
    notFound = notFound' ∧
      headersLength (contentEntry ok) + headersLength (connectionEntry c) + (ok.getD []).length =
        headersLength (contentEntry ok') + headersLength (connectionEntry c') +
          (ok'.getD []).length := by
  obtain ⟨hs, hl⟩ := hh.serialize O
  obtain ⟨hs', hl'⟩ := hg.serialize O
  rw [he] at hs hl
  have hnf : notFound = notFound' := by
    have hbyte := hs.symm.trans hs'
    cases notFound <;> cases notFound' <;> simp at hbyte ⊢
  subst hnf
  exact ⟨rfl, by omega⟩

theorem Holds.printedHeaders {notFound : Bool} {ok c : Option Bytes} (hh : Holds notFound ok c h)
    (O : IterationOrder) (hc : c.getD [] = []) : h.printedHeaders O = contentEntry ok := by
  have hconn : (connectionEntry c).filter (fun e => decide (e.2 ≠ [])) = [] := by
    cases c with
    | none => rfl
    | some v => simp_all [connectionEntry]
  have hcont : (contentEntry ok).filter (fun e => decide (e.2 ≠ [])) = contentEntry ok := by
    cases ok with
    | none => rfl
    | some b => simp [contentEntry, decimal_ne_nil]
  have hes : h.headers.entries.filter (fun e => decide (e.2 ≠ [])) = contentEntry ok := by
    rcases hh.headers with he | ⟨_, he⟩ <;> rw [he, List.filter_append, hconn, hcont] <;> simp
  have hperm := (O.order_perm h.headers.entries).filter fun e => decide (e.2 ≠ [])
  rw [hes] at hperm
  cases ok with
  | none => exact List.perm_nil.mp hperm
  | some b => exact List.perm_singleton.mp hperm

theorem Holds.serialize_eq {notFound : Bool} {ok c c' : Option Bytes} {g : HttpResponse}
    (hh : Holds notFound ok c h) (hg : Holds notFound ok c' g)
    (hc : (c = c' ∧ (notFound = false ∨ ok = none)) ∨ (c.getD [] = [] ∧ c'.getD [] = [])) :
    h.serializeToString O = g.serializeToString O := by
  have hprinted : h.printedHeaders O = g.printedHeaders O := by
    rcases hc with ⟨rfl, hone⟩ | ⟨hc, hc'⟩
    · have he : h.headers.entries = g.headers.entries :=
        (hh.headers.eq_of_one hone).trans (hg.headers.eq_of_one hone).symm
      rw [HttpResponse.printedHeaders, he]
      rfl
    · rw [hh.printedHeaders O hc, hg.printedHeaders O hc']
  rw [HttpResponse.serializeToString, HttpResponse.serializeToString, hprinted, hh.status,
    hg.status, hh.content, hg.content]

theorem lastOk_eq_none_iff : lastOk map rs = none ↔ ∀ q ∈ rs, okBody map q = none := by
  induction rs using List.reverseRecOn with
  | nil => simp [lastOk, lastWritten]
  | append_singleton rs r ih =>
    rw [lastOk_concat, Option.or_eq_none_iff, ih]
    simp only [List.mem_append, List.mem_singleton]
    constructor
    · rintro ⟨hr, hrs⟩ q (hq | rfl)
      · exact hrs q hq
      · exact hr
    · intro hall
      exact ⟨hall r (.inr rfl), fun q hq => hall q (.inl hq)⟩

theorem sawNotFound_eq_false_iff :
    sawNotFound map rs = false ↔ ∀ q ∈ rs, rpcOutcome map q ≠ .notFound := by
  simp [sawNotFound]

/-- The reply has a `Connection` header of its own, or none that is printed was copied
before. -/
def NoStaleConnection (map : MethodMap M) (rs : List HttpRequest) (r : HttpRequest) : Prop :=
  r.isHeader (bytes "Connection") = true ∨ (lastConnection map rs).getD [] = []

/-- After the requests `rs` a reply with a response must not follow one that was not found,
and one that was not found must not follow a response. -/
def Isolated (map : MethodMap M) (rs : List HttpRequest) (r : HttpRequest) : Prop :=
  match rpcOutcome map r with
  | .badBody => True
  | .notFound => (∀ q ∈ rs, okBody map q = none) ∧ NoStaleConnection map rs r
  | .ok _ => (∀ q ∈ rs, rpcOutcome map q ≠ .notFound) ∧ NoStaleConnection map rs r

theorem connection_eq_or_silent {c last : Option Bytes} (hc : c.isSome = true ∨ last.getD [] = []) :
    c.or last = c ∨ ((c.or last).getD [] = [] ∧ c.getD [] = []) := by
  cases c <;> simp_all

theorem headersLength_or (c last : Option Bytes) :
    headersLength (connectionEntry (c.or last)) = headersLength (connectionEntry c) +
      if c.isSome then 0 else headersLength (connectionEntry last) := by
  cases c <;> simp [connectionEntry, headersLength]

theorem noStaleConnection_iff :
    NoStaleConnection map rs r ↔
      (if (r.headers.find (bytes "Connection")).isSome then 0
        else headersLength (connectionEntry (lastConnection map rs))) = 0 := by
  rw [NoStaleConnection, HttpRequest.isHeader]
  split_ifs with hc
  · simp [hc]
  · simp [hc, headersLength_connectionEntry_eq_zero_iff]

theorem holds_serve (O : IterationOrder) (map : MethodMap M) (rs : List HttpRequest)
    (r : HttpRequest) :
    Holds (sawNotFound map rs || decide (rpcOutcome map r = .notFound))
      ((okBody map r).or (lastOk map rs)) ((replyConnection map r).or (lastConnection map rs))
      (TinycoRpc.serve O map r (hrspAfter O map rs)).1 := by
  obtain ⟨hf, hh⟩ := holds_hrspAfter O map rs
  rw [← sawNotFound_concat, ← lastOk_concat, ← lastConnection_concat]
  exact hh.serve hf O r

theorem holds_serve_new (O : IterationOrder) (map : MethodMap M) (r : HttpRequest) :
    Holds (decide (rpcOutcome map r = .notFound)) (okBody map r) (replyConnection map r)
      (TinycoRpc.serve O map r {}).1 := by
  simpa [sawNotFound, lastOk, lastConnection, lastWritten, hrspAfter] using holds_serve O map [] r

theorem or_eq_left {α : Type*} {a b : Option α} (h : a = none → b = none) : a.or b = a := by
  cases a with
  | none => simp [h rfl]
  | some x => rfl

theorem serialize_eq_iff (O : IterationOrder) (rs : List HttpRequest)
    (ho : rpcOutcome map r ≠ .badBody) :
    (TinycoRpc.serve O map r (hrspAfter O map rs)).1.serializeToString O =
        (TinycoRpc.serve O map r {}).1.serializeToString O ↔
      (sawNotFound map rs = true → rpcOutcome map r = .notFound) ∧
        (okBody map r = none → lastOk map rs = none) ∧ NoStaleConnection map rs r := by
  have hh := holds_serve O map rs r
  have hg := holds_serve_new O map r
  have hconn : replyConnection map r = r.headers.find (bytes "Connection") := by
    simp [replyConnection, ho]
  rw [hconn] at hh hg
  constructor
  · intro he
    obtain ⟨hnf, hlen⟩ := hh.eq_of_serialize hg he
    rw [headersLength_or] at hlen
    have hok : okBody map r = none → lastOk map rs = none := by
      intro hnone
      cases hlast : lastOk map rs with
      | none => rfl
      | some b =>
        have hpos := headersLength_contentEntry_pos b
        have hzero : headersLength (contentEntry none) = 0 := rfl
        simp only [hnone, hlast, Option.none_or, Option.getD_none, List.length_nil, hzero] at hlen
        omega
    refine ⟨fun hsaw => by simpa [hsaw] using hnf, hok, ?_⟩
    rw [noStaleConnection_iff]
    rw [or_eq_left hok] at hlen
    omega
  · rintro ⟨hnf, hok, hstale⟩
    have hsaw : (sawNotFound map rs || decide (rpcOutcome map r = .notFound)) =
        decide (rpcOutcome map r = .notFound) := by
      cases hs : sawNotFound map rs with
      | false => simp
      | true => simp [hnf hs]
    rw [or_eq_left hok, hsaw] at hh
    refine hh.serialize_eq hg ?_
    rcases connection_eq_or_silent hstale with hc | hc
    · refine .inl ⟨hc, ?_⟩
      cases hr : rpcOutcome map r <;> simp_all [okBody]
    · exact .inr hc

/-- On any map built by `AddRpcService` and after any requests, the bytes sent for a request
are those of a new object exactly if the reply is `Isolated` from the earlier ones. -/
theorem reply_isolated_iff (O : IterationOrder) (calls : List (RpcService M × Bytes))
    (rs : List HttpRequest) (r : HttpRequest) :
    (TinycoRpc.serve O (methodMap calls) r (hrspAfter O (methodMap calls) rs)).2 =
        (TinycoRpc.serve O (methodMap calls) r {}).2 ↔
      Isolated (methodMap calls) rs r := by
  rw [serve_sent, serve_sent]
  by_cases hbad : rpcOutcome (methodMap calls) r = .badBody
  · simp [hbad, Isolated]
  · rw [if_neg hbad, if_neg hbad, List.singleton_inj, serialize_eq_iff O rs hbad]
    rw [lastOk_eq_none_iff, Isolated]
    cases hr : rpcOutcome (methodMap calls) r with
    | badBody => exact absurd hr hbad
    | notFound => simp [okBody, hr]
    | ok b => simp [okBody, hr, ← sawNotFound_eq_false_iff]

/-- A service with one method, which answers every request of two bytes. -/
def pingService : RpcService Unit where
  methods := [⟨bytes "Ping", bytes "demo.Ping"⟩]
  parseFromString _ content := if content.length = 2 then some () else none
  callMethod _ m := m
  serializeToString _ := bytes "hi"
  length_serialize_lt _ := by decide

def pingCalls : List (RpcService Unit × Bytes) := [(pingService, bytes "/ping > Ping")]

def pingRequest : HttpRequest :=
  { uri := { path := bytes "/ping" }, content := bytes "yo", keepalive := true }

def unknownRequest : HttpRequest :=
  { uri := { path := bytes "/pong" }, content := bytes "yo", keepalive := true }

/-- The call after a request that was not found is answered with status 404. -/
theorem status_404_carried_over :
    (TinycoRpc.serve insertionOrder (methodMap pingCalls) pingRequest
        (hrspAfter insertionOrder (methodMap pingCalls) [unknownRequest])).2 =
      [bytes "HTTP/1.1 404 Not Found\r\nContent-Length: 2\r\n\r\nhi"] ∧
    (TinycoRpc.serve insertionOrder (methodMap pingCalls) pingRequest {}).2 =
      [bytes "HTTP/1.1 200 OK\r\nContent-Length: 2\r\n\r\nhi"] ∧
    ¬ ∀ (O : IterationOrder) (calls : List (RpcService Unit × Bytes)) (rs : List HttpRequest)
        (r : HttpRequest),
      (TinycoRpc.serve O (methodMap calls) r (hrspAfter O (methodMap calls) rs)).2 =
        (TinycoRpc.serve O (methodMap calls) r {}).2 := by
  have h404 : (TinycoRpc.serve insertionOrder (methodMap pingCalls) pingRequest
      (hrspAfter insertionOrder (methodMap pingCalls) [unknownRequest])).2 =
      [bytes "HTTP/1.1 404 Not Found\r\nContent-Length: 2\r\n\r\nhi"] := by
    decide +kernel
  have h200 : (TinycoRpc.serve insertionOrder (methodMap pingCalls) pingRequest {}).2 =
      [bytes "HTTP/1.1 200 OK\r\nContent-Length: 2\r\n\r\nhi"] := by
    decide +kernel
  refine ⟨h404, h200, fun h => ?_⟩
  have heq := h insertionOrder pingCalls [unknownRequest] pingRequest
  rw [h404, h200] at heq
  exact absurd heq (by decide)

end Tinyco
