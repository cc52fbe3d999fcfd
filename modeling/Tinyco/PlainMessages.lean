import Tinyco.MessageDelivery

/-! The requests of a channel and the replies of a `TinycoRpc`: each is found as a whole and read as
it was written, and a reply without a response is never found as a whole. -/

namespace Tinyco

open HttpParserImpl

/-- A header of a controller that makes a plain request of every content. Fields without a value
are not sent, and `SetContent` overwrites the length. -/
structure PlainHeader (h : HttpRequest) : Prop where
  method : h.method = httpRequestMethodGet ∨ h.method = httpRequestMethodPost
  slash : h.struri.head? = some 47
  uri : ∀ c ∈ h.struri, 32 < c ∧ c < 127
  field : ∀ e ∈ h.headers.entries, e.2 ≠ [] → e.1 ≠ bytes "Content-Length" → PlainField e

def HttpRequest.raw (O : IterationOrder) (r : HttpRequest) : RawMessage where
  start := (methodText r.method).getD [] ++ r.struri ++ bytes " " ++ bytes "HTTP/1.1"
  fields := printedEntries O r.headers
  body := r.content

/-- A message that the parser takes and whose length is an `int`. -/
structure RawMessage.Fits (m : RawMessage) (maxHead : Nat) : Prop where
  length_lt : m.toBytes.length < 2 ^ 31
  head_le : m.toBytes.length - m.body.length ≤ maxHead

section Request

variable {L : HttpLib} {maxHead : Nat} {O : IterationOrder} {h r : HttpRequest} {m : RawMessage}
  {method : UInt8} {uri body : Bytes}

theorem HttpRequest.toBytes_raw {text : Bytes} (ht : methodText r.method = some text) :
    (r.serializeToString O []).2 = (r.raw O).toBytes := by
  simp only [serializeToString, ht, raw, Option.getD_some]
  rfl

theorem PlainHeader.exists_methodText (hh : PlainHeader h) :
    ∃ name, HttpRequest.methodText h.method = some (name ++ [32]) := by
  rcases hh.method with hm | hm
  · exact ⟨bytes "GET", by rw [hm]; decide⟩
  · exact ⟨bytes "POST", by rw [hm]; decide⟩

theorem plainField_contentLength (n : Nat) : PlainField (bytes "Content-Length", decimal n) where
  name_ne := show bytes "Content-Length" ≠ [] by decide
  name := show ∀ c ∈ bytes "Content-Length", tokenChar c = true by decide +kernel
  value c hc := by
    have hdigit := mem_decimal hc
    simp only [Bool.and_eq_true, decide_eq_true_eq] at hdigit
    exact ⟨UInt8.le_trans (show (32 : UInt8) ≤ 48 by decide) hdigit.1,
      UInt8.lt_of_le_of_lt hdigit.2 (show (57 : UInt8) < 127 by decide)⟩
  trimmed := by
    have hno : (32 : UInt8) ∉ decimal n := not_mem_decimal (by decide) n
    exact ⟨fun hd => hno (List.mem_of_head? hd), fun hl => hno (List.mem_of_getLast? hl)⟩
  framing _ := rfl

/-- A request whose `Content-Length` is that of its content and whose other fields are plain. -/
theorem PlainHeader.plainRequest_raw (hr : PlainHeader r) (O : IterationOrder)
    (hlen : r.headers.find (bytes "Content-Length") = some (decimal r.content.length)) :
    PlainRequest (r.raw O) r.method r.struri where
  start := by
    obtain ⟨name, hname⟩ := hr.exists_methodText
    refine ⟨name, hname, ?_⟩
    change (HttpRequest.methodText r.method).getD [] ++ r.struri ++ _ ++ _ = _
    rw [hname]
    rfl
  slash := hr.slash
  uri := hr.uri
  field e he := by
    obtain ⟨hmem, hne⟩ := mem_printedEntries.mp he
    by_cases hk : e.1 = bytes "Content-Length"
    · obtain ⟨k, v⟩ := e
      cases hk
      cases (AssocMap.find_eq_some_iff.mpr hmem).symm.trans hlen
      exact plainField_contentLength _
    · exact hr.field e hmem hne hk
  length := by
    have hmem : (bytes "Content-Length", decimal r.content.length) ∈ printedEntries O r.headers :=
      mem_printedEntries.mpr ⟨AssocMap.find_eq_some_iff.mp hlen, decimal_ne_nil _⟩
    obtain ⟨l₁, l₂, hsplit⟩ := List.append_of_mem hmem
    have hnodup : ((printedEntries O r.headers).map Prod.fst).Nodup := O.nodup_keys_filter _ _
    rw [hsplit, List.map_append, List.map_cons, List.nodup_append, List.nodup_cons] at hnodup
    have hfirst : ∀ e ∈ l₁, e.1 ≠ bytes "Content-Length" := fun e he =>
      hnodup.2.2 _ (List.mem_map_of_mem he) _ List.mem_cons_self
    have hsecond : ∀ e ∈ l₂, e.1 ≠ bytes "Content-Length" := fun e he hk =>
      hnodup.2.1.1 (List.mem_map.mpr ⟨e, he, hk⟩)
    change (printedEntries O r.headers).filter _ = _
    rw [hsplit, List.filter_append, List.filter_cons_of_pos (by simp),
      List.filter_eq_nil_iff.mpr (by simpa using hfirst),
      List.filter_eq_nil_iff.mpr (by simpa using hsecond)]
    rfl

theorem PlainHeader.setContent (hh : PlainHeader h) (body : Bytes) :
    PlainHeader (h.setContent body) where
  method := hh.method
  slash := hh.slash
  uri := hh.uri
  field e he hne hk := by
    have hfind := AssocMap.find_eq_some_iff.mpr he
    rw [HttpRequest.setContent, AssocMap.find_assign_ne _ _ (Ne.symm hk)] at hfind
    exact hh.field e (AssocMap.find_eq_some_iff.mp hfind) hne hk

theorem PlainHeader.plainRequest (hh : PlainHeader h) (O : IterationOrder) (body : Bytes) :
    PlainRequest ((h.setContent body).raw O) h.method h.struri :=
  (hh.setContent body).plainRequest_raw O (AssocMap.find_assign_self _ _ _)

theorem PlainRequest.foundWhole (hL : L.ReadsHttp maxHead) (hm : PlainRequest m method uri)
    (hfits : m.Fits maxHead) : FoundWhole L m.toBytes := by
  refine foundWhole_of_frame (fun buf n hp hf => hL.request_complete m method uri buf n hm hp hf)
    (fun buf hp hne hf => hL.request_incomplete m method uri buf hm hp hne hf) ?_ hfits.length_lt ?_
  · obtain ⟨name, -, hstart⟩ := hm.start
    simp [RawMessage.toBytes, hstart]
  · rw [hm.wellFormed.frame_eq hm.lookup_contentLength, if_pos hfits.head_le]

theorem headerPairs_flatMap (fields : List (Bytes × Bytes)) :
    headerPairs (fields.flatMap fun e => [e.1, e.2]) = fields := by
  induction fields with
  | nil => rfl
  | cons e fields ih => simp [headerPairs, ih]

theorem ParserScan.Reads.accepts {sc : ParserScan} (h : sc.Reads m) : sc.Accepts m.toBytes.length := by
  refine ⟨h.nparsed, ?_⟩
  have hlen (fields : List (Bytes × Bytes)) :
      (fields.flatMap fun e => [e.1, e.2]).length = 2 * fields.length := by
    simp [List.length_flatMap, Nat.mul_comm]
  rw [h.headerStrings, hlen]
  omega

theorem ParserScan.Reads.content {sc : ParserScan} (h : sc.Reads m) (b : Bytes) :
    lastWritten some b sc.bodies = if m.body = [] then b else m.body := by
  rw [h.bodies]
  split_ifs <;> rfl

/-- What the server makes of a plain request and of the request `r` it has parsed before. The path is
that of the URI if it has one, the content is the body unless that is empty, and if no `Connection`
header has asked for anything else the connection is kept. -/
theorem PlainRequest.parse_into (hL : L.ReadsHttp maxHead) (hm : PlainRequest m method uri)
    (hfits : m.Fits maxHead) (r : HttpRequest) :
    (parseHttpRequest L m.toBytes r).1 = 0 ∧
      (parseHttpRequest L m.toBytes r).2.uri.path =
        (urlField L UrlFields.path uri).getD r.uri.path ∧
      (parseHttpRequest L m.toBytes r).2.content = (if m.body = [] then r.content else m.body) ∧
      (r.KeepsAlive → (∀ e ∈ m.fields, e.1 = bytes "Connection" →
        e.2.map tolower = bytes "keep-alive") →
          (parseHttpRequest L m.toBytes r).2.KeepsAlive ∧
            (parseHttpRequest L m.toBytes r).2.keepalive = true) := by
  have hframe : frame maxHead m.toBytes = some m.toBytes.length := by
    rw [hm.wellFormed.frame_eq hm.lookup_contentLength, if_pos hfits.head_le]
  obtain ⟨hreads, hurls, -⟩ := hL.request m method uri hm hframe
  rw [parseHttpRequest_eq r hreads.accepts, setKeepAlive_eq]
  refine ⟨rfl, ?_, hreads.content r.content, fun hr hconn => ?_⟩
  · simp only [written, hurls, foldl_parseUrl]
    rfl
  · have hkeeps : (written L (L.scan .request m.toBytes) r).KeepsAlive := by
      intro v hv
      rcases AssocMap.mem_or_find_of_find_assignAll hv with hmem | hfind
      · rw [ParserScan.writtenHeaders, hreads.headerStrings, headerPairs_flatMap,
          List.mem_append] at hmem
        rcases hmem with hmem | hmem
        · obtain ⟨b, -, hb⟩ := List.mem_map.mp hmem
          exact absurd (congrArg Prod.fst hb) contentLength_ne_connection
        · exact hconn _ hmem rfl
      · exact hr v hfind
    refine ⟨hkeeps, ?_⟩
    cases hc : (written L (L.scan .request m.toBytes) r).headers.find (bytes "Connection") with
    | none => rfl
    | some v => simp [keepaliveAfter, hkeeps v hc]

/-- What the server makes of the first request of a connection. -/
theorem PlainRequest.parse (hL : L.ReadsHttp maxHead) (hm : PlainRequest m method uri)
    (hfits : m.Fits maxHead) :
    (parseHttpRequest L m.toBytes {}).1 = 0 ∧
      (parseHttpRequest L m.toBytes {}).2.uri.path = (urlField L UrlFields.path uri).getD [] ∧
      (parseHttpRequest L m.toBytes {}).2.content = m.body ∧
      (bytes "Connection" ∉ m.fields.map Prod.fst →
        (parseHttpRequest L m.toBytes {}).2.keepalive = true) := by
  obtain ⟨hret, hpath, hcontent, hkeep⟩ := hm.parse_into hL hfits {}
  refine ⟨hret, hpath, hcontent.trans (ite_eq_right_iff.mpr Eq.symm), fun hconn => ?_⟩
  refine (hkeep HttpSrvWork.waits_start.keeps fun e he hname => ?_).2
  exact absurd (hname ▸ List.mem_map_of_mem he) hconn

end Request

section Reply

variable {M : Type*} {L : HttpLib} {maxHead : Nat} {O : IterationOrder} {map : MethodMap M}
  {r : HttpRequest} {notFound : Bool} {b : Bytes} {c : Option Bytes} {h : HttpResponse}

theorem Holds.replyStatus_eq (hh : Holds notFound (some b) c h) :
    replyStatus (h.raw O) = if notFound then 404 else 200 := by
  change (if HttpResponse.startLine h.status = bytes "HTTP/1.1 200 OK" then 200 else 404) = _
  rw [hh.status]
  cases notFound <;> decide

/-- A reply with the response of a call is found as a whole, and read with that response as its
content. -/
theorem Holds.reply_read (hL : L.ReadsHttp maxHead) (hh : Holds notFound (some b) c h)
    (hb : b.length < 2 ^ 31) (hc : ∀ v, c = some v → L.HeaderString v)
    (hfits : (h.raw O).Fits maxHead) :
    FoundWhole L (h.serializeToString O) ∧
      ∃ h', parseHttpResponse L (h.serializeToString O) {} = some (0, h') ∧
        h'.status = (if notFound then 404 else 200 : Nat) ∧ h'.content = b := by
  have hplain : PlainReply L (h.raw O) := hh.plainReply O (fun b' hb' => by cases hb'; exact hb) hc
  have hbody : (h.raw O).body = b := hh.content
  have hframe : frame maxHead (h.raw O).toBytes = some (h.raw O).toBytes.length := by
    have hlength : (h.raw O).fields.lookup (bytes "Content-Length") =
        some (decimal (h.raw O).body.length) := by
      rw [hbody]
      exact hh.lookup_contentLength O
    rw [(hplain.wellFormed hL.toFramesReplies).frame_eq hlength, if_pos hfits.head_le]
  obtain ⟨hreads, hstatus⟩ := hL.response _ hplain hframe
  rw [← HttpResponse.toBytes_raw]
  refine ⟨foundWhole_of_frame (fun buf n hp hf => hL.complete _ buf n hplain hp hf)
    (fun buf hp hne hf => hL.incomplete _ buf hplain hp hne hf) ?_ hfits.length_lt hframe, _,
    parseHttpResponse_eq {} hreads.accepts, ?_, ?_⟩
  · simp [RawMessage.toBytes, crlf]
  · simp only [hstatus, hh.replyStatus_eq]
  · simp only [hreads.content, hbody]
    exact ite_eq_right_iff.mpr Eq.symm

end Reply

end Tinyco
