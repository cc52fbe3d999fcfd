import Tinyco.KeptConnection
import Tinyco.RemoteCall

/-! What the caller of a kept connection gets: the answers as a function of all the calls there have
been on it. -/

namespace Tinyco

open HttpParserImpl

section Client

variable {L : HttpLib} {serve : Serve} {O : IterationOrder} {c : TcpConn} {e : Exchange}
  {w w' : HttpSrvWork} {x : Bytes}

end Client

section Answers

variable {M : Type*} {L : HttpLib} {maxHead : Nat}

/-- A call of `/ping` whose request is sent at once and arrives in one chunk. -/
def pingExchange (body : Bytes) (replyChunks : List Bytes) : Exchange where
  header := (controllerFor "/ping").hreqHeader
  body := body
  reconnect := ⟨3, ⟨true, true⟩, 0, ""⟩
  sends := [⟨(42 + body.length : Nat), ""⟩]
  requestChunks := [bytes "POST /ping HTTP/1.1\r\nContent-Length: " ++ decimal body.length ++
    crlf ++ crlf ++ body]
  replyChunks := replyChunks

section Ping

variable {body : Bytes} {ds : List Bytes} {serve : Serve} {w w' : HttpSrvWork}

/-- The chunk is the request, which is short. -/
structure PingText (body : Bytes) : Prop where
  text : (pingExchange body []).requestChunks.flatten =
    ((pingExchange body []).message insertionOrder).toBytes
  length : ((pingExchange body []).message insertionOrder).toBytes.length = 42 + body.length
  short : body.length < 100

theorem PingText.plain (h : PingText body) (ds : List Bytes) :
    (pingExchange body ds).Plain (readLib 81920) 81920 insertionOrder where
  header := plainHeader_controllerFor (by decide) (by decide +kernel)
  fits := by
    have hlen := h.length
    have hshort := h.short
    exact ⟨hlen.trans_lt (by omega), (Nat.sub_le _ _).trans (hlen.trans_le (by omega))⟩
  path := rfl
  keeps _ hv := by cases hv

end Ping

end Answers

end Tinyco
