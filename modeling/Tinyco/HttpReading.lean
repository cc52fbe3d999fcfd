import Tinyco.MessageRoundTrip

/-! What is assumed of `http_parser` about the messages that clients and servers exchange here, and
a reader of messages that does what is assumed. -/

namespace Tinyco

open HttpParserImpl

def tokenChar (c : UInt8) : Bool :=
  (48 ≤ c && c ≤ 57) || (65 ≤ c && c ≤ 90) || (97 ≤ c && c ≤ 122) ||
    (bytes "!#$%&'*+-.^_|~").contains c

/-- The fields by which the parser tells where a message ends. -/
def framingNames : List Bytes :=
  [bytes "content-length", bytes "transfer-encoding", bytes "upgrade"]

/-- A field that is read as it is written, and that does not bear on the end of the message unless
it is its `Content-Length`. -/
structure PlainField (e : Bytes × Bytes) : Prop where
  name_ne : e.1 ≠ []
  name : ∀ c ∈ e.1, tokenChar c = true
  value : ∀ c ∈ e.2, 32 ≤ c ∧ c < 127
  trimmed : e.2.head? ≠ some 32 ∧ e.2.getLast? ≠ some 32
  framing : e.1.map tolower ∈ framingNames → e.1 = bytes "Content-Length"

/-- A request for a path, with the length of its body once and otherwise only fields of no effect. -/
structure PlainRequest (m : RawMessage) (method : UInt8) (uri : Bytes) : Prop where
  start : ∃ name, HttpRequest.methodText method = some (name ++ [32]) ∧
    m.start = name ++ [32] ++ uri ++ bytes " " ++ bytes "HTTP/1.1"
  slash : uri.head? = some 47
  uri : ∀ c ∈ uri, 32 < c ∧ c < 127
  field : ∀ e ∈ m.fields, PlainField e
  length : m.fields.filter (fun e => decide (e.1 = bytes "Content-Length")) =
    [(bytes "Content-Length", decimal m.body.length)]

/-- All of the message is read, each header string in one piece and the body too. -/
structure ParserScan.Reads (sc : ParserScan) (m : RawMessage) : Prop where
  nparsed : sc.nparsed = m.toBytes.length
  headerStrings : sc.headerStrings = m.fields.flatMap fun e => [e.1, e.2]
  bodies : sc.bodies = if m.body = [] then [] else [m.body]

def replyStatus (m : RawMessage) : Nat := if m.start = bytes "HTTP/1.1 200 OK" then 200 else 404

/-- Requests are found in a stream as replies are, and a message that is there as a whole is read
as it was written. -/
structure HttpLib.ReadsHttp (L : HttpLib) (maxHead : Nat) : Prop extends L.FramesReplies maxHead where
  request_complete : ∀ m method uri buf n, PlainRequest m method uri → buf <+: m.toBytes →
    frame maxHead buf = some n → L.execute httpComplete false .both buf = (true, n)
  request_incomplete : ∀ m method uri buf, PlainRequest m method uri → buf <+: m.toBytes →
    buf ≠ [] → frame maxHead buf = none →
      ∃ k, 0 < k ∧ k ≤ buf.length ∧ L.execute httpComplete false .both buf = (false, k)
  request : ∀ m method uri, PlainRequest m method uri →
    frame maxHead m.toBytes = some m.toBytes.length →
      (L.scan .request m.toBytes).Reads m ∧ (L.scan .request m.toBytes).urls = [uri] ∧
        requestMethod (L.scan .request m.toBytes).method = method
  response : ∀ m, PlainReply L m → frame maxHead m.toBytes = some m.toBytes.length →
    (L.scan .response m.toBytes).Reads m ∧ (L.scan .response m.toBytes).statusCode = replyStatus m

theorem RawMessage.WellFormed.frame_eq {m : RawMessage} (hm : m.WellFormed)
    (hlength : m.fields.lookup (bytes "Content-Length") = some (decimal m.body.length)) (maxHead : Nat) :
    frame maxHead m.toBytes =
      if m.toBytes.length - m.body.length ≤ maxHead then some m.toBytes.length else none := by
  have hle : m.body.length ≤ m.toBytes.length := RawMessage.length_body_le (RawMessage.read_toBytes hm)
  have hcl : m.contentLength = some m.body.length := by
    rw [RawMessage.contentLength, hlength, Option.bind_some, readDecimal_decimal]
  rw [frame, RawMessage.read_toBytes hm, Option.bind_some, hcl, Option.bind_some]
  simp [Nat.sub_add_cancel hle]

theorem methodText_cases {method : UInt8} {name : Bytes}
    (h : HttpRequest.methodText method = some (name ++ [32])) :
    (method = httpRequestMethodGet ∧ name = bytes "GET") ∨
      (method = httpRequestMethodPost ∧ name = bytes "POST") := by
  have hget : bytes "GET " = bytes "GET" ++ [32] := by decide
  have hpost : bytes "POST " = bytes "POST" ++ [32] := by decide
  unfold HttpRequest.methodText at h
  split_ifs at h with hg hp
  · rw [hget, Option.some.injEq, List.append_cancel_right_eq] at h
    exact .inl ⟨hg, h.symm⟩
  · rw [hpost, Option.some.injEq, List.append_cancel_right_eq] at h
    exact .inr ⟨hp, h.symm⟩

theorem lookup_of_filter {es : List (Bytes × Bytes)} {k v : Bytes}
    (h : es.filter (fun e => decide (e.1 = k)) = [(k, v)]) : es.lookup k = some v := by
  induction es with
  | nil => cases h
  | cons e es ih =>
    obtain ⟨k', v'⟩ := e
    by_cases hk : k' = k
    · subst hk
      rw [List.filter_cons_of_pos (by simp), List.cons.injEq, Prod.mk.injEq] at h
      rw [List.lookup_cons_self, h.1.2]
    · rw [List.filter_cons_of_neg (by simpa using hk)] at h
      rw [List.lookup_cons, beq_false_of_ne (Ne.symm hk)]
      exact ih h

namespace PlainRequest

variable {m : RawMessage} {method : UInt8} {uri : Bytes}

theorem wellFormed (h : PlainRequest m method uri) : m.WellFormed := by
  obtain ⟨name, hname, hstart⟩ := h.start
  have hcr : 13 ∉ name := by
    rcases methodText_cases hname with ⟨-, rfl⟩ | ⟨-, rfl⟩ <;> decide
  have huri : 13 ∉ uri := fun hm => absurd (h.uri 13 hm).1 (by decide)
  refine ⟨?_, ?_, fun e he hm => ?_, fun e he hm => ?_, fun e he hm => ?_⟩
  · rw [hstart]
    simp
  · rw [hstart]
    simp only [List.mem_append, not_or]
    exact ⟨⟨⟨⟨hcr, by decide⟩, huri⟩, by decide⟩, by decide⟩
  · exact absurd ((h.field e he).name 58 hm) (by decide)
  · exact absurd ((h.field e he).name 13 hm) (by decide)
  · exact absurd ((h.field e he).value 13 hm).1 (by decide)

theorem lookup_contentLength (h : PlainRequest m method uri) :
    m.fields.lookup (bytes "Content-Length") = some (decimal m.body.length) :=
  lookup_of_filter h.length

theorem readRequestLine (h : PlainRequest m method uri) :
    readRequestLine m.start = some (method, uri) := by
  obtain ⟨name, hname, hstart⟩ := h.start
  have huri : 32 ∉ uri := fun hm => absurd (h.uri 32 hm).1 (by decide)
  rw [hstart]
  rcases methodText_cases hname with ⟨rfl, rfl⟩ | ⟨rfl, rfl⟩
  · exact readRequestLine_eq (by decide) huri (by decide)
  · exact readRequestLine_eq (by decide) huri (by decide)

end PlainRequest

def RawMessage.NoReturns (m : RawMessage) : Prop := ∀ e ∈ m.fields, 13 ∉ e.1 ∧ 13 ∉ e.2

instance (m : RawMessage) : Decidable m.NoReturns := inferInstanceAs (Decidable (∀ e ∈ m.fields, _))

def readScan (m : RawMessage) (size : Nat) (url : Option Bytes) (method status : Nat) : ParserScan where
  events := url.toList.map (fun u => (.url u, size)) ++
    m.fields.flatMap (fun e => [(.headerField e.1, size), (.headerValue e.2, size)]) ++
    [(.headersComplete, size)] ++ (if m.body = [] then [] else [(.body m.body, size)]) ++
    [(.messageComplete, size)]
  nparsed := size
  method := method
  statusCode := status

def readLib (maxHead : Nat) : HttpLib where
  scan
    | .both, buf =>
      match frame maxHead buf with
      | some n => { events := [(.messageComplete, n)], nparsed := n }
      | none => { nparsed := buf.length }
    | .request, buf =>
      match (RawMessage.read buf).filter fun m => decide m.NoReturns with
      | none => {}
      | some m =>
        match readRequestLine m.start with
        | none => {}
        | some (method, uri) =>
          readScan m buf.length (some uri) (if method = httpRequestMethodGet then 1 else 3) 0
    | .response, buf =>
      match (RawMessage.read buf).filter fun m => decide m.NoReturns with
      | none => {}
      | some m =>
        match readStatusLine m.start with
        | none => {}
        | some status => readScan m buf.length none 0 status.toNat
  parseUrl s := some { path := some (0, s.length) }
  curlUnescape := id

section ReadScan

variable {m : RawMessage} {size : Nat} {url : Option Bytes} {method status : Nat}

end ReadScan

section ReadLib

variable {maxHead : Nat} {m : RawMessage}

end ReadLib

end Tinyco
