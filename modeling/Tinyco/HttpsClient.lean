import Tinyco.HttpClient

/-! `HttpsClient::SendAndReceive` beside `HttpClient::SendAndReceive`, each with the same chunks
of a response, which one gets from `SSL_read` and the other from `Frame::recv`. -/

namespace Tinyco

/-- `ssl` and `bio` tell whether the pointers are set. -/
structure HttpsClient where
  fd : Int := -1
  ssl : Bool := false
  bio : Bool := false
  strlog : String := ""
  strerr : String := ""
  deriving DecidableEq, Repr

/-- The bytes of an address in network order, on a machine that keeps the low byte first. -/
def inetNtoa (ip : Nat) : String :=
  ".".intercalate ((List.range 4).map fun i => toString (ip / 256 ^ i % 256))

/-- What a call of `Init` gets from the system and the SSL library; `ctx` tells whether there is a
context then. -/
structure SslInitReply where
  socket : Int
  setNonBlock : Int
  keepalive : Int
  keepidle : Int
  keepintvl : Int
  keepcnt : Int
  bio : Bool
  ctx : Bool
  connect : Int
  ssl : Bool
  sslConnect : Int
  sslError : Int

/-- What an SSL call returned, with `SSL_get_error`, `errno` and `strerror(errno)`. -/
structure SslReply where
  ret : Int
  sslError : Int
  errno : Int
  error : String

inductive SslReadReply where
  | data (recvbuf : Bytes)
  | failed (r : SslReply)

/-- The result, the client with its messages and what is assigned to `*recvbuf`. -/
structure SslEnd where
  ret : Int
  client : HttpsClient
  output : Option Bytes

namespace HttpsClient

def clearLog (h : HttpsClient) : HttpsClient := { h with strlog := "", strerr := "" }

def err (h : HttpsClient) (text : String) : HttpsClient := { h with strerr := h.strerr ++ text }

def close (h : HttpsClient) : HttpsClient := { h with fd := -1, ssl := false, bio := false }

/-- The number that is returned for an error becomes the `fd_` of the client. -/
def createSocket (h : HttpsClient) (r : SslInitReply) : Int × HttpsClient :=
  let h := { h with fd := r.socket }
  if h.fd = -1 then (-1, h.err "socket error")
  else if r.setNonBlock < 0 then (-2, h.err "fail to set nonblock")
  else if r.keepalive ≠ 0 then (-4, h.err "setsockopt SO_KEEPALIVE error")
  else if r.keepidle ≠ 0 then (-5, h.err "setsockopt TCP_KEEPIDLE error")
  else if r.keepintvl ≠ 0 then (-6, h.err "setsockopt TCP_KEEPINTVL error")
  else if r.keepcnt ≠ 0 then (-7, h.err "setsockopt TCP_KEEPCNT error")
  else (h.fd, h)

def init (h : HttpsClient) (ip port : Nat) (r : SslInitReply) : Int × HttpsClient :=
  let t := h.clearLog.createSocket r
  let h : HttpsClient := { t.2 with fd := t.1 }
  if h.fd < 0 then (-1, h.err "CreateSocket error")
  else
    let h := { h with bio := r.bio }
    if !h.bio then (-2, h.close)
    else if !r.ctx then (-2, (h.err "SSL_CTX_new error").close)
    else
      let h := { h with
        strlog := h.strlog ++ "HttpsClient connect to " ++ inetNtoa ip ++ ":" ++ toString port }
      -- the call of `strerror` stands inside the quotes
      if r.connect < 0 then (-2, (h.err "tinyco::connect error: strerror(errno)").close)
      else
        let h := { h with ssl := r.ssl }
        if !h.ssl then (-2, (h.err "SSL_new error").close)
        else if r.sslConnect ≤ 0 then
          (-2, (h.err ("SSL_connect error, error code = " ++ toString r.sslError)).close)
        else (0, h)

/-- The message of a failed call; `ret` is the variable, not what the call returned. -/
def callError (call : String) (ret : Int) (r : SslReply) : String :=
  call ++ " error, error code = " ++ toString r.sslError ++ "|ret = " ++ toString ret ++
    "|errno = " ++ toString r.errno ++ "|strerror = " ++ r.error

/-- `while (left)`. With the request sent it gives the last value of `ret`. -/
def write (h : HttpsClient) : Nat → Int → List SslReply → Option (Except HttpsClient Int)
  | 0, ret, _ => some (.ok ret)
  | _ + 1, _, [] => none
  | n + 1, _, r :: rs =>
    if r.ret ≤ 0 then some (.error (h.err (callError "SSL_write" r.ret r)))
    else if toInt32 (n + 1 : Nat) < r.ret then
      some (.error (h.err ("SSL_write error, left = " ++ toString (n + 1) ++ "|ret = " ++
        toString r.ret)))
    else h.write (n + 1 - r.ret.toNat) r.ret rs

/-- The receive loop. The message of a failed `SSL_read` has the `ret` of the last
`SSL_write`. -/
def read (L : HttpLib) (h : HttpsClient) (ret : Int) (realBuf : Bytes) :
    List SslReadReply → Option SslEnd
  | [] => none
  | .failed r :: _ => some ⟨-1, h.err (callError "SSL_read" ret r), none⟩
  | .data d :: rs =>
    let code := (HttpParserImpl.checkHttp L (realBuf ++ d)).1.code
    if HttpParseCode.ok.code = code then some ⟨0, h, some (realBuf ++ d)⟩
    else if HttpParseCode.notCompleteHttp.code = code then read L h ret (realBuf ++ d) rs
    else some ⟨-1, h, none⟩

def sslSendAndReceive (L : HttpLib) (h : HttpsClient) (sendlen : Nat) (ws : List SslReply)
    (ds : List SslReadReply) : Option SslEnd :=
  (h.write sendlen 0 ws).bind fun t =>
    match t with
    | .error h => some ⟨-1, h, none⟩
    | .ok ret => h.read L ret [] ds

def sendAndReceive (L : HttpLib) (h : HttpsClient) (sendbuf sendlen recvbuf : Nat)
    (ws : List SslReply) (ds : List SslReadReply) : Option SslEnd :=
  let h := h.clearLog
  if h.fd < 0 ∨ h.ssl = false ∨ h.bio = false then some ⟨-1, h.err "invalid parameters", none⟩
  else if 0 = sendbuf ∨ 0 = sendlen ∨ 0 = recvbuf then some ⟨-1, h.err "invalid parameters", none⟩
  else h.sslSendAndReceive L sendlen ws ds

/-- The client is connected, the arguments are valid and the whole request is written. -/
def Sends (h : HttpsClient) (sendbuf sendlen recvbuf : Nat) (ws : List SslReply) (ret : Int) : Prop :=
  0 ≤ h.fd ∧ h.ssl = true ∧ h.bio = true ∧ sendbuf ≠ 0 ∧ sendlen ≠ 0 ∧ recvbuf ≠ 0 ∧
    h.clearLog.write sendlen 0 ws = some (.ok ret)

variable {L : HttpLib} {h : HttpsClient} {ret : Int} {b d : Bytes} {ds : List SslReadReply}

theorem sendAndReceive_eq {sendbuf sendlen recvbuf : Nat} {ws : List SslReply}
    (hs : h.Sends sendbuf sendlen recvbuf ws ret) :
    h.sendAndReceive L sendbuf sendlen recvbuf ws ds = h.clearLog.read L ret [] ds := by
  obtain ⟨hfd, hssl, hbio, hbuf, hlen, hout, hwrite⟩ := hs
  have hconn : ¬ (h.clearLog.fd < 0 ∨ h.clearLog.ssl = false ∨ h.clearLog.bio = false) := by
    simp [clearLog, not_lt.mpr hfd, hssl, hbio]
  rw [sendAndReceive]
  simp only [if_neg hconn, sslSendAndReceive, hwrite, Option.bind_some]
  simp [hbuf.symm, hlen.symm, hout.symm]

theorem read_of_ok (hc : (HttpParserImpl.checkHttp L (b ++ d)).1.code = HttpParseCode.ok.code) :
    h.read L ret b (.data d :: ds) = some ⟨0, h, some (b ++ d)⟩ := by
  simp only [read, hc, if_true]

theorem read_of_notComplete
    (hc : (HttpParserImpl.checkHttp L (b ++ d)).1.code = HttpParseCode.notCompleteHttp.code) :
    h.read L ret b (.data d :: ds) = h.read L ret (b ++ d) ds := by
  simp only [read, hc]
  simp [HttpParseCode.code]

theorem read_of_notHttp
    (hc : (HttpParserImpl.checkHttp L (b ++ d)).1.code = HttpParseCode.notHttp.code) :
    h.read L ret b (.data d :: ds) = some ⟨-1, h, none⟩ := by
  simp only [read, hc]
  simp [HttpParseCode.code]

end HttpsClient

/-- A chunk of the response, or the end of the stream with what the calls report then. -/
inductive Incoming where
  | chunk (d : Bytes)
  | closed (r : SslReply)
  | error (r : SslReply)

namespace Incoming

def recv : Incoming → RecvReply
  | .chunk d => .data d
  | .closed r => .closed r.error
  | .error r => .error r.error

def sslRead : Incoming → SslReadReply
  | .chunk d => .data d
  | .closed r => .failed r
  | .error r => .failed r

end Incoming

def TcpConn.RecvEnd.response : TcpConn.RecvEnd → Option Bytes
  | .returned ret _ output => if ret = 0 then output else none
  | .overread => none

def SslEnd.response (e : SslEnd) : Option Bytes := if e.ret = 0 then e.output else none

/-- No chunk makes a buffer that is not HTTP for `CheckHttp`, and a buffer with a complete
message is not longer than an `int` counts; `b` are the bytes received before. -/
def PlainHttp (L : HttpLib) : Bytes → List Incoming → Prop
  | b, .chunk d :: ins =>
    (HttpParserImpl.checkHttp L (b ++ d)).1.code ≠ HttpParseCode.notHttp.code ∧
      ((HttpParserImpl.checkHttp L (b ++ d)).1.code = HttpParseCode.ok.code →
        (b ++ d).length < 2 ^ 31) ∧
      ((HttpParserImpl.checkHttp L (b ++ d)).1.code = HttpParseCode.notCompleteHttp.code →
        PlainHttp L (b ++ d) ins)
  | _, _ => True

section Loops

variable {L : HttpLib} {c : TcpConn} {h : HttpsClient} {ret : Int} {b d : Bytes} {i : Incoming}
  {ins : List Incoming}

/-- The loops of the two clients after any part of what comes in: both wait, both have failed
or both have returned the same. -/
def LoopsAgree (L : HttpLib) (c : TcpConn) (h : HttpsClient) (ret : Int) (b : Bytes)
    (ins : List Incoming) : Prop :=
  ∀ pre, pre <+: ins →
    (c.receive (HttpClient.httpCheckComplete L) b (pre.map Incoming.recv)).map
        TcpConn.RecvEnd.response =
      (h.read L ret b (pre.map Incoming.sslRead)).map SslEnd.response

theorem loopsAgree_cons_iff : LoopsAgree L c h ret b (i :: ins) ↔ ∀ pre, pre <+: ins →
    (c.receive (HttpClient.httpCheckComplete L) b (i.recv :: pre.map Incoming.recv)).map
        TcpConn.RecvEnd.response =
      (h.read L ret b (i.sslRead :: pre.map Incoming.sslRead)).map SslEnd.response :=
  forall_prefix_cons.trans (and_iff_right rfl)

theorem response_length_lt {rs : List RecvReply}
    (he : (c.receive (HttpClient.httpCheckComplete L) b rs).map TcpConn.RecvEnd.response =
      some (some d)) : d.length < 2 ^ 31 := by
  obtain ⟨e, hr, he⟩ := Option.map_eq_some_iff.mp he
  cases e with
  | overread => simp [TcpConn.RecvEnd.response] at he
  | returned ret c' output =>
    simp only [TcpConn.RecvEnd.response] at he
    split_ifs at he with hret
    subst hret he
    exact TcpConn.output_length_lt (HttpClient.httpCheckComplete_lt L) hr

theorem loopsAgree_of_ok (hd : d ≠ [])
    (hc : (HttpParserImpl.checkHttp L (b ++ d)).1.code = HttpParseCode.ok.code) :
    LoopsAgree L c h ret b (.chunk d :: ins) ↔ (b ++ d).length < 2 ^ 31 := by
  rw [loopsAgree_cons_iff]
  simp only [Incoming.recv, Incoming.sslRead, HttpsClient.read_of_ok hc, Option.map_some]
  constructor
  · intro hall
    exact response_length_lt (hall [] List.nil_prefix)
  · intro hfit pre _
    have heof : HttpClient.httpCheckComplete L (b ++ d) = (b ++ d).length := by
      rw [HttpClient.httpCheckComplete_of_ok hc, toInt32_of_lt hfit]
    have hpos : 0 < HttpClient.httpCheckComplete L (b ++ d) := by
      have := List.length_pos_iff.mpr hd
      rw [heof, List.length_append]
      omega
    rw [TcpConn.receive_of_pos hpos, heof, TcpConn.assign_whole]
    rfl

theorem loopsAgree_iff (hins : ∀ d, .chunk d ∈ ins → d ≠ []) :
    LoopsAgree L c h ret b ins ↔ PlainHttp L b ins := by
  induction ins generalizing b with
  | nil =>
    refine iff_of_true (fun pre hpre => ?_) trivial
    rw [List.prefix_nil.mp hpre]
    rfl
  | cons i ins ih =>
    have hins' : ∀ d, .chunk d ∈ ins → d ≠ [] := fun d hd => hins d (List.mem_cons_of_mem _ hd)
    cases i with
    | closed r => exact iff_of_true (loopsAgree_cons_iff.mpr fun pre _ => rfl) trivial
    | error r => exact iff_of_true (loopsAgree_cons_iff.mpr fun pre _ => rfl) trivial
    | chunk d =>
      rcases HttpParseCode.code_cases (HttpParserImpl.checkHttp L (b ++ d)).1 with hc | hc | hc
      · rw [loopsAgree_of_ok (hins d (by simp)) hc, PlainHttp, hc]
        simp [HttpParseCode.code]
      · have hwait := HttpClient.httpCheckComplete_of_notHttp hc
        refine iff_of_false (fun hall => ?_) fun hp => hp.1 hc
        have he := loopsAgree_cons_iff.mp hall [] List.nil_prefix
        simp only [Incoming.recv, Incoming.sslRead, TcpConn.receive_of_wait (.inl hwait),
          HttpsClient.read_of_notHttp hc] at he
        cases he
      · have hwait := HttpClient.httpCheckComplete_of_notComplete hc
        rw [PlainHttp, hc, loopsAgree_cons_iff]
        simp only [Incoming.recv, Incoming.sslRead, TcpConn.receive_of_wait (.inr hwait),
          HttpsClient.read_of_notComplete hc]
        have hh : LoopsAgree L c h ret (b ++ d) ins ↔ _ := ih hins'
        rw [LoopsAgree] at hh
        rw [hh]
        simp [HttpParseCode.code]

end Loops

/-- After a request that is sent, the two clients take the same number of chunks and return the
same exactly if `CheckHttp` never says that the bytes are not HTTP, and never finds a message in
more bytes than an `int` counts. -/
theorem clients_agree_iff (L : HttpLib) (c c' : TcpConn) (h : HttpsClient)
    (buf size output : Nat) (r : InitReply) (ss : List SendReply) (fs : List Fragment)
    (ws : List SslReply) (ret : Int) (ins : List Incoming)
    (hc : c.sendRequest buf size output r ss = some (.ok c', fs))
    (hh : h.Sends buf size output ws ret) (hins : ∀ d, .chunk d ∈ ins → d ≠ []) :
    (∀ pre, pre <+: ins →
      (HttpClient.sendAndReceive L c buf size output r ss (pre.map Incoming.recv)).map
          TcpConn.RecvEnd.response =
        (h.sendAndReceive L buf size output ws (pre.map Incoming.sslRead)).map SslEnd.response) ↔
      PlainHttp L [] ins := by
  simp only [HttpClient.sendAndReceive_eq hc, HttpsClient.sendAndReceive_eq hh]
  exact loopsAgree_iff hins

def pingClient : HttpsClient := { fd := 4, ssl := true, bio := true }

theorem pingClient_sends : pingClient.Sends 1 5 1 [⟨5, 0, 0, ""⟩] 5 := by
  refine ⟨by decide, rfl, rfl, by decide, by decide, by decide, rfl⟩

theorem clients_agree_on_no_content : pingClient.Sends 1 5 1 [⟨5, 0, 0, ""⟩] 5 ∧
    ∀ pre, pre <+: [.chunk (noContent.take 9), .chunk (noContent.drop 9), .closed ⟨0, 6, 0, ""⟩] →
      (HttpClient.sendAndReceive (.single noContent) { fd := 3 } 1 5 1 ⟨3, ⟨true, true⟩, 0, ""⟩
          [⟨5, ""⟩] (pre.map Incoming.recv)).map TcpConn.RecvEnd.response =
        (pingClient.sendAndReceive (.single noContent) 1 5 1 [⟨5, 0, 0, ""⟩]
          (pre.map Incoming.sslRead)).map SslEnd.response := by
  refine ⟨pingClient_sends, (clients_agree_iff _ _ _ _ _ _ _ _ _ _ _ _ _ ping_sent pingClient_sends
    fun d hd => ?_).mpr ⟨by decide, by decide, fun _ => ⟨by decide, by decide, fun _ => trivial⟩⟩⟩
  simp only [List.mem_cons, Incoming.chunk.injEq, reduceCtorEq, List.not_mem_nil, or_false] at hd
  rcases hd with rfl | rfl <;> decide

/-- With bytes that are not HTTP the HTTPS client fails, and the HTTP client waits for more. -/
theorem not_http_keeps_http_client_waiting :
    HttpClient.sendAndReceive (.single noContent) { fd := 3 } 1 5 1 ⟨3, ⟨true, true⟩, 0, ""⟩
        [⟨5, ""⟩] [.data (bytes "220 ready")] = none ∧
    pingClient.sendAndReceive (.single noContent) 1 5 1 [⟨5, 0, 0, ""⟩] [.data (bytes "220 ready")] =
      some ⟨-1, pingClient, none⟩ ∧
    ¬ ∀ (L : HttpLib) (c c' : TcpConn) (h : HttpsClient) (buf size output : Nat) (r : InitReply)
        (ss : List SendReply) (fs : List Fragment) (ws : List SslReply) (ret : Int)
        (ds : List Bytes) (reply : SslReply),
      c.sendRequest buf size output r ss = some (.ok c', fs) → h.Sends buf size output ws ret →
      (∀ d ∈ ds, d ≠ []) → ∀ pre, pre <+: ds.map .chunk ++ [.closed reply] →
        (HttpClient.sendAndReceive L c buf size output r ss (pre.map Incoming.recv)).map
            TcpConn.RecvEnd.response =
          (h.sendAndReceive L buf size output ws (pre.map Incoming.sslRead)).map
            SslEnd.response := by
  have hwait : HttpClient.sendAndReceive (.single noContent) { fd := 3 } 1 5 1
      ⟨3, ⟨true, true⟩, 0, ""⟩ [⟨5, ""⟩] [.data (bytes "220 ready")] = none := rfl
  have hfail : pingClient.sendAndReceive (.single noContent) 1 5 1 [⟨5, 0, 0, ""⟩]
      [.data (bytes "220 ready")] = some ⟨-1, pingClient, none⟩ := rfl
  refine ⟨hwait, hfail, fun hall => ?_⟩
  have he := hall (.single noContent) _ _ _ _ _ _ _ _ _ _ _ [bytes "220 ready"] ⟨0, 6, 0, ""⟩
    ping_sent pingClient_sends (by decide) [.chunk (bytes "220 ready")] (List.prefix_append _ _)
  simp only [List.map_singleton, Incoming.recv, Incoming.sslRead, hwait, hfail] at he
  cases he

end Tinyco
