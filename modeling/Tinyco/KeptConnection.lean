import Tinyco.PlainMessages

/-! The calls of one kept connection, from a client that goes on using its `HttpClient` to a
`TinycoRpc` whose request and response objects live as long as the connection. -/

namespace Tinyco

open HttpParserImpl

/-- A call of `SendAndReceive`: the header and the body of the request, what the calls of the client
return, and the chunks in which the request and its answer arrive. -/
structure Exchange where
  header : HttpRequest
  body : Bytes
  reconnect : InitReply
  sends : List SendReply
  requestChunks : List Bytes
  replyChunks : List Bytes

namespace Exchange

def message (O : IterationOrder) (e : Exchange) : RawMessage := (e.header.setContent e.body).raw O

def path (L : HttpLib) (e : Exchange) : Bytes := (urlField L UrlFields.path e.header.struri).getD []

/-- What the caller gets. -/
def result (L : HttpLib) (O : IterationOrder) (c : TcpConn) (e : Exchange) : Option TcpConn.RecvEnd :=
  HttpClient.sendAndReceive L c 1 (e.message O).toBytes.length 1 e.reconnect e.sends
    (e.replyChunks.map .data)

/-- The request is plain, has a path, and does not ask for the end of the connection. -/
structure Plain (L : HttpLib) (maxHead : Nat) (O : IterationOrder) (e : Exchange) : Prop where
  header : PlainHeader e.header
  fits : (e.message O).Fits maxHead
  path : (urlField L UrlFields.path e.header.struri).isSome
  keeps : ∀ v, e.header.headers.find (bytes "Connection") = some v →
    v = [] ∨ v.map tolower = bytes "keep-alive"

end Exchange

section Outcomes

variable {M : Type*}

def RpcOutcome.response : RpcOutcome → Option Bytes
  | .ok b => some b
  | _ => none

variable {L : HttpLib} {map : MethodMap M} {rs : List HttpRequest}

end Outcomes

section Server

variable {M : Type*} {L : HttpLib} {maxHead : Nat} {O P : IterationOrder} {map : MethodMap M}
  {c : TcpConn} {es : List Exchange} {e : Exchange} {w w' : HttpSrvWork}

theorem Exchange.Plain.request (he : e.Plain L maxHead O) :
    PlainRequest (e.message O) e.header.method e.header.struri :=
  he.header.plainRequest O _

theorem Exchange.Plain.connection (he : e.Plain L maxHead O) :
    ∀ f ∈ (e.message O).fields, f.1 = bytes "Connection" → f.2.map tolower = bytes "keep-alive" := by
  rintro ⟨name, v⟩ hf rfl
  obtain ⟨hentry, hv⟩ := mem_printedEntries.mp hf
  have hfind := AssocMap.find_eq_some_iff.mpr hentry
  rw [HttpRequest.setContent, AssocMap.find_assign_ne _ _ contentLength_ne_connection] at hfind
  exact (he.keeps v hfind).resolve_left hv

end Server

end Tinyco
