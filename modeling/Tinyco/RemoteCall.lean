import Tinyco.PlainMessages
import Tinyco.RpcChannel

/-! A call through a `Channel` whose connection leads to a `TinycoRpc`: what the caller gets is what
the service makes of the request, however the bytes are cut on the way. -/

namespace Tinyco

open HttpParserImpl

/-- The two ends of a connection: the server receives, in some chunks, what the client's `send` has
taken of the request, and the client receives, in some chunks, what the server has sent, and then
`tail`. -/
structure Joined (L : HttpLib) (serve : Serve) (ip : IP) (port : Nat) (text : Bytes)
    (r : HttpReplies) (w : HttpSrvWork) (tail : List RecvReply) : Prop where
  init : 0 ≤ (HttpClient.init {} ip.toNat port r.init).1
  request : ∃ (c : TcpConn) (fs : List Fragment) (cs : List Bytes),
    (HttpClient.init {} ip.toNat port r.init).2.sendRequest 1 text.length 1 r.reconnect r.sends =
      some (.ok c, fs) ∧
    cs.flatten = sentBytes 1 text fs ∧
    exec (HttpSrvWork.step L serve) {} (cs.map .data) = some w
  reply : ∃ ds : List Bytes, (∀ d ∈ ds, d ≠ []) ∧ ds.flatten = w.sent.flatten ∧
    r.recvs = ds.map .data ++ tail

section Exchange

variable {L : HttpLib} {serve : Serve} {ip : IP} {port : Nat} {x : Bytes} {r : HttpReplies}
  {w : HttpSrvWork} {tail : List RecvReply}

theorem Joined.served (hj : Joined L serve ip port x r w tail) (hx : FoundWhole L x)
    (hparse : (parseHttpRequest L x {}).1 = 0) :
    w.sent = (serve (parseHttpRequest L x {}).2 {}).2 ∧
      w.loop.point = if (parseHttpRequest L x {}).2.keepalive then .recv else .returned 0 := by
  obtain ⟨c, fs, cs, hsend, hcs, hrun⟩ := hj.request
  rw [sentBytes_of_sendRequest hx.length_lt hsend] at hcs
  obtain ⟨-, -, hsent, -, -, hpoint⟩ :=
    HttpSrvWork.waits_start.run_one hx hcs hx.nonempty.symm hparse hrun
  exact ⟨hsent, hpoint⟩

theorem Joined.client (hj : Joined L serve ip port x r w tail) :
    ∃ (c : TcpConn) (ds : List Bytes), (∀ d ∈ ds, d ≠ []) ∧ ds.flatten = w.sent.flatten ∧
      HttpOp.httpSendAndReveive L r ip port x =
        HttpOp.sendAndReveive 0 ((c.receive (HttpClient.httpCheckComplete L) []
          (ds.map .data ++ tail)).bind TcpConn.RecvEnd.result) := by
  obtain ⟨c, fs, cs, hsend, -⟩ := hj.request
  obtain ⟨ds, hne, hds, hrecvs⟩ := hj.reply
  refine ⟨c, ds, hne, hds, ?_⟩
  have hinit := hj.init
  simp only [HttpOp.httpSendAndReveive, HttpClient.sendAndReceive_eq hsend, hrecvs,
    HttpOp.sendAndReveive, if_neg (not_lt.mpr hinit), lt_irrefl, if_false]

theorem Joined.receives (hj : Joined L serve ip port x r w tail) {y : Bytes} (hy : FoundWhole L y)
    (hsent : w.sent.flatten = y) : HttpOp.httpSendAndReveive L r ip port x = some (0, y) := by
  obtain ⟨c, ds, hne, hds, heq⟩ := hj.client
  rw [heq, hy.receive hne (by simp [hds, hsent]) hy.nonempty.symm]
  rfl

theorem Joined.waits (hj : Joined L serve ip port x r w tail) (hy : NeverWhole L w.sent.flatten) :
    (tail = [] → HttpOp.httpSendAndReveive L r ip port x = none) ∧
      ∀ e rest, tail = .closed e :: rest ∨ tail = .error e :: rest →
        HttpOp.httpSendAndReveive L r ip port x = some (HttpOp.ErrorCode.sendAndReceiveError.code, []) := by
  obtain ⟨c, ds, hne, hds, heq⟩ := hj.client
  rw [heq, hy.receive hne (by simpa using hds)]
  refine ⟨?_, ?_⟩
  · rintro rfl
    rfl
  · rintro e rest (rfl | rfl) <;> rfl

end Exchange

section Service

variable {M : Type*} {L : HttpLib} {maxHead : Nat} {P : IterationOrder} {r : HttpRequest}
  {calls : List (RpcService M × Bytes)} {md : MethodDescriptor M} {ip : IP} {port : Nat}
  {m : RawMessage} {method : UInt8} {uri : Bytes} {rs : HttpReplies} {w : HttpSrvWork}
  {tail : List RecvReply}

theorem rpcOutcome_of_find (hmd : (methodMap calls).find r.uri.path = some md) :
    rpcOutcome (methodMap calls) r =
      ((md.service.parseFromString md.method r.content).map fun q =>
        RpcOutcome.ok (md.service.serializeToString (md.service.callMethod md.method q))).getD
        .badBody := by
  obtain ⟨method, hmethod⟩ := Option.isSome_iff_exists.mp (registered_methodMap calls _ md hmd)
  have hname : method.name = md.method := by simpa using List.find?_some hmethod
  simp only [rpcOutcome, hmd, hmethod, hname]
  cases md.service.parseFromString md.method r.content <;> rfl

theorem okBody_of_outcome {map : MethodMap M} {b : Bytes} (ho : rpcOutcome map r = .ok b) :
    okBody map r = some b := by
  rw [okBody, ho]

/-- A plain request whose method is known and whose body is parsed is answered with what the method
makes of it. -/
theorem Joined.answered (hL : L.ReadsHttp maxHead) (hm : PlainRequest m method uri)
    (hfits : m.Fits maxHead)
    (hj : Joined L (TinycoRpc.serve P (methodMap calls)) ip port m.toBytes rs w tail)
    (hmd : (methodMap calls).find ((urlField L UrlFields.path uri).getD []) = some md) {q : M}
    (hq : md.service.parseFromString md.method m.body = some q)
    (hreply : ∀ x ∈ w.sent, ∀ y, RawMessage.read x = some y → y.Fits maxHead) :
    ∃ y h', HttpOp.httpSendAndReveive L rs ip port m.toBytes = some (0, y) ∧
      parseHttpResponse L y {} = some (0, h') ∧ h'.status = (200 : Nat) ∧
      h'.content = md.service.serializeToString (md.service.callMethod md.method q) := by
  obtain ⟨hret, hpath, hcontent, -⟩ := hm.parse hL hfits
  set req := (parseHttpRequest L m.toBytes {}).2 with hreq
  obtain ⟨hsent, -⟩ := hj.served (hm.foundWhole hL hfits) hret
  have ho : rpcOutcome (methodMap calls) req =
      .ok (md.service.serializeToString (md.service.callMethod md.method q)) := by
    rw [rpcOutcome_of_find (by rw [hpath]; exact hmd), hcontent, hq]
    rfl
  have hholds := holds_serve_new P (methodMap calls) req
  rw [okBody_of_outcome ho, ho] at hholds
  have hconn (v : Bytes) (hv : replyConnection (methodMap calls) req = some v) : L.HeaderString v :=
    headerString_of_replyConnection (.parse .new hret) hv
  rw [← hreq, serve_sent, if_neg (by rw [ho]; simp)] at hsent
  have hlt := md.service.length_serialize_lt (md.service.callMethod md.method q)
  have hwf := (hholds.plainReply P (fun b hb => by cases hb; exact hlt) hconn).wellFormed
    hL.toFramesReplies
  obtain ⟨hy, h', hparse, hstatus, hbody⟩ := hholds.reply_read hL hlt hconn
    (hreply _ (by rw [hsent]; exact List.mem_singleton_self _) _ (RawMessage.read_toBytes hwf))
  exact ⟨_, h', hj.receives hy (by rw [hsent]; simp), hparse, hstatus, hbody⟩

end Service

section Call

variable {Q R M : Type*} {L : HttpLib} {maxHead : Nat} {O : IterationOrder} {m : RpcMessages Q R}
  {cntl : Controller} {k : RpcCall Q R}

/-- A controller that posts to a path, and a call at port 80 whose request of 44 bytes is sent at
once. -/
def controllerFor (path : String) : Controller :=
  { hreqHeader := { method := httpRequestMethodPost, struri := bytes path } }

theorem plainHeader_controllerFor {path : String} (hslash : (bytes path).head? = some 47)
    (hpath : ∀ c ∈ bytes path, 32 < c ∧ c < 127) : PlainHeader (controllerFor path).hreqHeader where
  method := .inr rfl
  slash := hslash
  uri := hpath
  field _ he := by cases he

end Call

end Tinyco
