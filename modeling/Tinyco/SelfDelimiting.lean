import Tinyco.ResponseIsolation
import Tinyco.ResponseFraming

/-! When the reply of a `TinycoRpc` can be told from what follows it by its length. -/

namespace Tinyco

open HttpParserImpl

variable {M : Type*} {L : HttpLib} {maxHead : Nat} {map : MethodMap M} {O : IterationOrder}
  {rs : List HttpRequest} {r : HttpRequest} {h : HttpResponse}

/-- A string the library gives to `on_header_field` or `on_header_value`. -/
def HttpLib.HeaderString (L : HttpLib) (s : Bytes) : Prop :=
  ∃ ty buf, s ∈ (L.scan ty buf).headerStrings

/-- A reply with no other fields than a length and a connection copied from a request. -/
structure PlainReply (L : HttpLib) (m : RawMessage) : Prop where
  start : m.start = bytes "HTTP/1.1 200 OK" ∨ m.start = bytes "HTTP/1.1 404 Not Found"
  nodup : (m.fields.map Prod.fst).Nodup
  field : ∀ e ∈ m.fields, (e.1 = bytes "Content-Length" ∧ ∃ n < 2 ^ 31, e.2 = decimal n) ∨
    (e.1 = bytes "Connection" ∧ e.2 ≠ [] ∧ L.HeaderString e.2)

/-- What is assumed of the library: a header string has no line end in it, and a plain
reply is complete as soon as its head, of `maxHead` bytes at most, and the bytes of its
`Content-Length` are there. -/
structure HttpLib.FramesReplies (L : HttpLib) (maxHead : Nat) : Prop where
  clean : ∀ s, L.HeaderString s → 13 ∉ s
  complete : ∀ m buf n, PlainReply L m → buf <+: m.toBytes → frame maxHead buf = some n →
    L.execute httpComplete false .both buf = (true, n)
  incomplete : ∀ m buf, PlainReply L m → buf <+: m.toBytes → buf ≠ [] →
    frame maxHead buf = none →
      ∃ k, 0 < k ∧ k ≤ buf.length ∧ L.execute httpComplete false .both buf = (false, k)

/-- What `hreq_` can be: a new object, with requests parsed into it one after another. -/
inductive HttpLib.Received (L : HttpLib) : HttpRequest → Prop
  | new : L.Received {}
  | parse {r : HttpRequest} {buf : Bytes} (h : L.Received r)
      (hp : (parseHttpRequest L buf r).1 = 0) : L.Received (parseHttpRequest L buf r).2

/-- The message has a `Content-Length` with the number of its body bytes, and `CheckHttp`
finds it complete at its last byte and at none before. -/
structure SelfDelimiting (L : HttpLib) (b : Bytes) : Prop where
  declared : ∃ m, RawMessage.read b = some m ∧
    m.fields.lookup (bytes "Content-Length") = some (decimal m.body.length)
  complete : (checkHttp L b).1 = .ok
  incomplete : ∀ p, p <+: b → p ≠ [] → p ≠ b → (checkHttp L p).1 = .notCompleteHttp

theorem HttpLib.Received.headerString {v : Bytes} (hr : L.Received r)
    (hv : r.headers.find (bytes "Connection") = some v) : L.HeaderString v := by
  induction hr with
  | new => simp at hv
  | @parse r buf _ hp ih =>
    rw [parseHttpRequest_eq r (parseHttpRequest_zero_iff.mp hp), setKeepAlive_eq] at hv
    rcases AssocMap.mem_or_find_of_find_assignAll hv with hmem | hfind
    · rcases List.mem_append.mp hmem with hbody | hpair
      · obtain ⟨b, -, he⟩ := List.mem_map.mp hbody
        exact absurd (congrArg Prod.fst he) contentLength_ne_connection
      · exact ⟨.request, buf, (mem_of_mem_headerPairs hpair).2⟩
    · exact ih hfind

theorem checkHttp_fst_ok_iff {buf : Bytes} {n : Nat} {c : Bool} (hn : n ≤ buf.length)
    (he : L.execute httpComplete false .both buf = (c, n)) :
    (checkHttp L buf).1 = .ok ↔ c = true := by
  have hmod : n % 2 ^ 32 ≤ buf.length := (Nat.mod_le _ _).trans hn
  cases c with
  | true => simp only [checkHttp, he, hmod, and_self, if_true]
  | false =>
    simp only [checkHttp, he, hmod]
    split_ifs <;> simp_all

def HttpResponse.startLine (status : Int) : Bytes :=
  bytes "HTTP/1.1 " ++ decimalInt status ++ bytes " " ++ reason status

def HttpResponse.raw (O : IterationOrder) (h : HttpResponse) : RawMessage where
  start := startLine h.status
  fields := h.printedHeaders O
  body := h.content

theorem HttpResponse.toBytes_raw (O : IterationOrder) (h : HttpResponse) :
    (h.raw O).toBytes = h.serializeToString O := rfl

section

variable {notFound : Bool} {ok c : Option Bytes}

theorem Holds.mem_printedHeaders (hh : Holds notFound ok c h) {e : Bytes × Bytes} :
    e ∈ h.printedHeaders O ↔ e.2 ≠ [] ∧ (e ∈ contentEntry ok ∨ e ∈ connectionEntry c) := by
  rw [HttpResponse.printedHeaders, List.mem_filter, (O.order_perm _).mem_iff, decide_eq_true_eq,
    and_comm]
  rcases hh.headers with he | ⟨-, he⟩ <;> rw [he, List.mem_append]
  rw [or_comm]

theorem Holds.plainReply (hh : Holds notFound ok c h) (O : IterationOrder)
    (hok : ∀ b, ok = some b → b.length < 2 ^ 31) (hc : ∀ v, c = some v → L.HeaderString v) :
    PlainReply L (h.raw O) where
  start := by
    change HttpResponse.startLine h.status = _ ∨ HttpResponse.startLine h.status = _
    rw [hh.status]
    cases notFound
    · exact .inl (by decide)
    · exact .inr (by decide)
  nodup := O.nodup_keys_filter h.headers _
  field e he := by
    obtain ⟨hne, he | he⟩ := hh.mem_printedHeaders.mp he
    · obtain ⟨b, rfl, rfl⟩ : ∃ b, ok = some b ∧ (bytes "Content-Length", decimal b.length) = e := by
        simpa [contentEntry] using he
      exact .inl ⟨rfl, b.length, hok b rfl, rfl⟩
    · obtain ⟨v, rfl, rfl⟩ : ∃ v, c = some v ∧ (bytes "Connection", v) = e := by
        simpa [connectionEntry] using he
      exact .inr ⟨rfl, hne, hc v rfl⟩

theorem PlainReply.wellFormed {m : RawMessage} (hL : L.FramesReplies maxHead)
    (hm : PlainReply L m) : m.WellFormed where
  start_ne := by rcases hm.start with hs | hs <;> rw [hs] <;> decide
  start_cr := by rcases hm.start with hs | hs <;> rw [hs] <;> decide
  name_colon e he := by rcases hm.field e he with ⟨hk, -⟩ | ⟨hk, -⟩ <;> rw [hk] <;> decide
  name_cr e he := by rcases hm.field e he with ⟨hk, -⟩ | ⟨hk, -⟩ <;> rw [hk] <;> decide
  value_cr e he := by
    rcases hm.field e he with ⟨-, n, -, hv⟩ | ⟨-, -, hv⟩
    · intro hcr
      rw [hv] at hcr
      exact absurd (mem_decimal hcr) (by decide)
    · exact hL.clean _ hv

theorem Holds.lookup_contentLength (hh : Holds notFound ok c h) (O : IterationOrder) :
    (h.printedHeaders O).lookup (bytes "Content-Length") = ok.map fun b => decimal b.length := by
  cases hl : (h.printedHeaders O).lookup (bytes "Content-Length") with
  | none =>
    cases ok with
    | none => rfl
    | some b =>
      have hmem : (bytes "Content-Length", decimal b.length) ∈ h.printedHeaders O :=
        hh.mem_printedHeaders.mpr ⟨decimal_ne_nil _, .inl (by simp [contentEntry])⟩
      simpa using List.lookup_eq_none_iff.mp hl _ hmem
  | some v =>
    obtain ⟨l₁, l₂, hsplit, -⟩ := List.lookup_eq_some_iff.mp hl
    have hmem : (bytes "Content-Length", v) ∈ h.printedHeaders O := by simp [hsplit]
    obtain ⟨-, he | he⟩ := hh.mem_printedHeaders.mp hmem
    · cases ok <;> simp_all [contentEntry]
    · have hne := contentLength_ne_connection
      simp [connectionEntry, hne.symm] at he

def headLength (notFound : Bool) (ok connection : Option Bytes) : Nat :=
  (HttpResponse.statusLine (if notFound then 404 else 200)).length +
    headersLength (contentEntry ok) + headersLength (connectionEntry connection) + 2

theorem Holds.frame_eq (hh : Holds notFound ok c h) (O : IterationOrder)
    (hread : RawMessage.read (h.serializeToString O) = some (h.raw O)) (maxHead : Nat) :
    frame maxHead (h.serializeToString O) =
      if ok.isSome ∧ headLength notFound ok c ≤ maxHead then
        some (h.serializeToString O).length
      else none := by
  have hlen : (h.serializeToString O).length = headLength notFound ok c + (ok.getD []).length :=
    (hh.serialize O).2
  have hbody : (h.raw O).body = ok.getD [] := hh.content
  have hcl : (h.raw O).contentLength = ok.map List.length := by
    rw [RawMessage.contentLength, HttpResponse.raw, hh.lookup_contentLength]
    cases ok <;> simp [readDecimal_decimal]
  rw [frame, hread, Option.bind_some, hcl, hbody, hlen, Nat.add_sub_cancel]
  cases ok <;> simp

theorem Holds.selfDelimiting_iff (hL : L.FramesReplies maxHead) (hmax : maxHead < 2 ^ 31)
    (hh : Holds notFound ok c h) (O : IterationOrder)
    (hok : ∀ b, ok = some b → b.length < 2 ^ 31) (hc : ∀ v, c = some v → L.HeaderString v) :
    SelfDelimiting L (h.serializeToString O) ↔
      ok.isSome ∧ headLength notFound ok c ≤ maxHead := by
  have hplain := hh.plainReply O hok hc
  have hread : RawMessage.read (h.serializeToString O) = some (h.raw O) := by
    rw [← HttpResponse.toBytes_raw]
    exact RawMessage.read_toBytes (hplain.wellFormed hL)
  have hframe := hh.frame_eq O hread maxHead
  have hlen : (h.serializeToString O).length = headLength notFound ok c + (ok.getD []).length :=
    (hh.serialize O).2
  constructor
  · intro hs
    by_contra hnot
    rw [if_neg hnot] at hframe
    have hne : h.serializeToString O ≠ [] := by
      rw [← List.length_pos_iff, hlen, headLength]
      omega
    obtain ⟨k, -, hk, he⟩ := hL.incomplete _ _ hplain (List.prefix_refl _) hne hframe
    exact absurd ((checkHttp_fst_ok_iff hk he).mp hs.complete) (by decide)
  · rintro ⟨hsome, hhead⟩
    rw [if_pos ⟨hsome, hhead⟩] at hframe
    obtain ⟨b, rfl⟩ := Option.isSome_iff_exists.mp hsome
    have hlt : (h.serializeToString O).length < 2 ^ 32 := by
      have hb := hok b rfl
      rw [hlen, Option.getD_some]
      omega
    refine ⟨⟨h.raw O, hread, ?_⟩, ?_, ?_⟩
    · exact (hh.lookup_contentLength O).trans (by rw [HttpResponse.raw, hh.content]; rfl)
    · exact (checkHttp_fst_ok_iff le_rfl
        (hL.complete _ _ _ hplain (List.prefix_refl _) hframe)).mpr rfl
    · intro p hp hnil hne
      obtain ⟨k, hpos, hk, he⟩ := hL.incomplete _ _ hplain hp hnil
        (frame_eq_none_of_isPrefix hframe hp hne)
      have hk32 : k < 2 ^ 32 := (hk.trans hp.length_le).trans_lt hlt
      rw [checkHttp_of_incomplete hpos hk32 hk he]

end

theorem length_okBody_lt {b : Bytes} (hb : okBody map r = some b) : b.length < 2 ^ 31 := by
  unfold okBody at hb
  split at hb
  · next response ho =>
    cases hb
    unfold rpcOutcome at ho
    split at ho
    · simp at ho
    · next md _ =>
      split at ho
      · simp at ho
      · split at ho
        · simp at ho
        · cases ho
          exact md.service.length_serialize_lt _
  · simp at hb

def replyHeadLength (map : MethodMap M) (rs : List HttpRequest) (r : HttpRequest) : Nat :=
  headLength (sawNotFound map rs || decide (rpcOutcome map r = .notFound))
    ((okBody map r).or (lastOk map rs)) ((replyConnection map r).or (lastConnection map rs))

theorem length_content_lt {b : Bytes} (hb : (okBody map r).or (lastOk map rs) = some b) :
    b.length < 2 ^ 31 := by
  rcases Option.or_eq_some_iff.mp hb with hr | ⟨-, hlast⟩
  · exact length_okBody_lt hr
  · obtain ⟨q, -, hq⟩ := exists_of_lastWritten_some hlast
    exact length_okBody_lt hq

theorem headerString_of_replyConnection {v : Bytes} (hr : L.Received r)
    (hv : replyConnection map r = some v) : L.HeaderString v := by
  refine hr.headerString ?_
  unfold replyConnection at hv
  split_ifs at hv
  exact hv

theorem headerString_of_connection {v : Bytes} (hrs : ∀ q ∈ rs, L.Received q) (hr : L.Received r)
    (hv : (replyConnection map r).or (lastConnection map rs) = some v) : L.HeaderString v := by
  rcases Option.or_eq_some_iff.mp hv with hv | ⟨-, hlast⟩
  · exact headerString_of_replyConnection hr hv
  · obtain ⟨q, hq, hv⟩ := exists_of_lastWritten_some hlast
    exact headerString_of_replyConnection (hrs q hq) hv

theorem lastOk_isSome_iff : (lastOk map rs).isSome ↔ ∃ q ∈ rs, (okBody map q).isSome := by
  rw [← not_iff_not, Option.not_isSome_iff_eq_none, lastOk_eq_none_iff]
  simp

/-- On any map built by `AddRpcService` and after any requests on the connection, a request
is answered with one self-delimiting message exactly if its call succeeds, or its path is
unknown and an earlier call has succeeded, and the head fits into what the parser takes. -/
theorem self_delimiting_iff (hL : L.FramesReplies maxHead) (hmax : maxHead < 2 ^ 31)
    (O : IterationOrder) (calls : List (RpcService M × Bytes)) (hrs : ∀ q ∈ rs, L.Received q)
    (hr : L.Received r) :
    (∃ b, (TinycoRpc.serve O (methodMap calls) r (hrspAfter O (methodMap calls) rs)).2 = [b] ∧
        SelfDelimiting L b) ↔
      ((okBody (methodMap calls) r).isSome ∨
          (r.uri.path ∉ (methodMap calls).keys ∧ ∃ q ∈ rs, (okBody (methodMap calls) q).isSome)) ∧
        replyHeadLength (methodMap calls) rs r ≤ maxHead := by
  have hiff := (holds_serve O (methodMap calls) rs r).selfDelimiting_iff hL hmax O
    (fun b hb => length_content_lt hb) (fun v hv => headerString_of_connection hrs hr hv)
  rw [serve_sent, ← rpcOutcome_notFound_iff, ← lastOk_isSome_iff]
  cases ho : rpcOutcome (methodMap calls) r with
  | badBody => simp [okBody, ho]
  | notFound =>
    simp only [okBody, ho] at hiff
    simpa [okBody, ho, replyHeadLength] using hiff
  | ok b =>
    simp only [okBody, ho] at hiff
    simpa [okBody, ho, replyHeadLength] using hiff

/-- A library that knows the requests of a table, and frames whatever else it is given. -/
def frameLib (maxHead : Nat) (requests : List (Bytes × ParserScan)) : HttpLib where
  scan
    | .request, buf => (requests.lookup buf).getD {}
    | .response, _ => {}
    | .both, buf =>
      match frame maxHead buf with
      | some n => { events := [(.messageComplete, n)], nparsed := n }
      | none => { nparsed := buf.length }
  parseUrl s := some { path := some (0, s.length) }
  curlUnescape := id

theorem framesReplies_frameLib {requests : List (Bytes × ParserScan)}
    (hclean : ∀ e ∈ requests, ∀ s ∈ e.2.headerStrings, 13 ∉ s) :
    (frameLib maxHead requests).FramesReplies maxHead where
  clean := by
    rintro s ⟨ty, buf, hs⟩
    cases ty with
    | request =>
      cases hl : requests.lookup buf with
      | none => simp [frameLib, hl, ParserScan.headerStrings, headerStringsOf] at hs
      | some sc =>
        obtain ⟨l₁, l₂, hsplit, -⟩ := List.lookup_eq_some_iff.mp hl
        exact hclean (buf, sc) (by simp [hsplit]) s (by simpa [frameLib, hl] using hs)
    | response => simp [frameLib, ParserScan.headerStrings, headerStringsOf] at hs
    | both =>
      cases hf : frame maxHead buf <;>
        simp [frameLib, hf, ParserScan.headerStrings, headerStringsOf] at hs
  complete m buf n _ _ hf := by simp [HttpLib.execute, frameLib, hf, runCallbacks, httpComplete]
  incomplete m buf _ _ hne hf :=
    ⟨buf.length, List.length_pos_iff.mpr hne, le_rfl, by
      simp [HttpLib.execute, frameLib, hf, runCallbacks]⟩

def pingCall : Bytes := bytes "POST /ping HTTP/1.1\r\nContent-Length: 2\r\n\r\nyo"

def pingBadCall : Bytes := bytes "POST /ping HTTP/1.1\r\nContent-Length: 3\r\n\r\nyoo"

def pongCall : Bytes := bytes "POST /pong HTTP/1.1\r\nContent-Length: 2\r\n\r\nyo"

def callScan (path length body : Bytes) (nparsed : Nat) : ParserScan where
  events := [(.url path, 10), (.headerField (bytes "Content-Length"), 35),
    (.headerValue length, 38), (.headersComplete, 40), (.body body, nparsed),
    (.messageComplete, nparsed)]
  nparsed := nparsed
  method := 3

def pingLib : HttpLib := frameLib 81920
  [(pingCall, callScan (bytes "/ping") (bytes "2") (bytes "yo") pingCall.length),
    (pingBadCall, callScan (bytes "/ping") (bytes "3") (bytes "yoo") pingBadCall.length),
    (pongCall, callScan (bytes "/pong") (bytes "2") (bytes "yo") pongCall.length)]

theorem framesReplies_pingLib : pingLib.FramesReplies 81920 :=
  framesReplies_frameLib (by decide)

def received (buf : Bytes) : HttpRequest := (parseHttpRequest pingLib buf {}).2

theorem self_delimiting_iff_ping :
    (∃ b, (TinycoRpc.serve insertionOrder (methodMap pingCalls) (received pongCall)
        (hrspAfter insertionOrder (methodMap pingCalls) [received pingCall])).2 = [b] ∧
      SelfDelimiting pingLib b) :=
  (self_delimiting_iff framesReplies_pingLib (by decide) insertionOrder pingCalls
    (fun q hq => List.mem_singleton.mp hq ▸ .parse .new (by decide +kernel))
    (.parse .new (by decide +kernel))).mpr
    (by decide +kernel)

/-- A new object answers an unknown path without a length, and a body that does not parse
with nothing. -/
theorem unknown_path_not_delimited :
    (parseHttpRequest pingLib pongCall {}).1 = 0 ∧
    (TinycoRpc.serve insertionOrder (methodMap pingCalls) (received pongCall) {}).2 =
      [bytes "HTTP/1.1 404 Not Found\r\n\r\n"] ∧
    (checkHttp pingLib (bytes "HTTP/1.1 404 Not Found\r\n\r\n")).1 = .notCompleteHttp ∧
    (parseHttpRequest pingLib pingBadCall {}).1 = 0 ∧
    (TinycoRpc.serve insertionOrder (methodMap pingCalls) (received pingBadCall) {}).2 = [] ∧
    ¬ ∀ (L : HttpLib) (maxHead : Nat), L.FramesReplies maxHead → maxHead < 2 ^ 31 →
      ∀ (O : IterationOrder) (calls : List (RpcService Unit × Bytes)) (rs : List HttpRequest)
        (r : HttpRequest), (∀ q ∈ rs, L.Received q) → L.Received r →
        ∃ b, (TinycoRpc.serve O (methodMap calls) r (hrspAfter O (methodMap calls) rs)).2 = [b] ∧
          SelfDelimiting L b := by
  have h404 : (TinycoRpc.serve insertionOrder (methodMap pingCalls) (received pongCall) {}).2 =
      [bytes "HTTP/1.1 404 Not Found\r\n\r\n"] := by decide +kernel
  have hcheck : (checkHttp pingLib (bytes "HTTP/1.1 404 Not Found\r\n\r\n")).1 =
      .notCompleteHttp := by decide +kernel
  refine ⟨by decide +kernel, h404, hcheck, by decide +kernel, by decide +kernel, ?_⟩
  intro hall
  obtain ⟨b, hb, hs⟩ := hall pingLib 81920 framesReplies_pingLib (by decide) insertionOrder
    pingCalls [] (received pongCall) (by simp) (.parse .new (by decide +kernel))
  have hok := hs.complete
  rw [← List.singleton_inj.mp (h404.symm.trans hb), hcheck] at hok
  exact absurd hok (by decide)

end Tinyco
