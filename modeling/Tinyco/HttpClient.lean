import Tinyco.CheckHttp
import Tinyco.TcpConn

/-! `HttpClient::SendAndReceive`: the response it returns from a stream of bytes that arrives
in chunks, of which the first complete message is the response. -/

namespace Tinyco

def checkError : Int := -1

/-- The bytes `Frame::recv` is asked for at once. -/
def kMaxRecvSize : Nat := 5120

namespace HttpClient

/-- The size that is returned for a complete message is that of the whole buffer. -/
def httpCheckComplete (L : HttpLib) (data : Bytes) : Int :=
  let ret := (HttpParserImpl.checkHttp L data).1.code
  if ret = HttpParseCode.ok.code then toInt32 data.length
  else if ret = HttpParseCode.notHttp.code then 0
  else if ret = HttpParseCode.notCompleteHttp.code then checkIncomplete
  else checkError

def init (c : TcpConn) (ip port : Nat) (r : InitReply) : Int × TcpConn :=
  if 0 = ip ∨ 0 = port then (-1, c)
  else
    let t := c.init ip port r
    if t.1 < 0 then (-2, t.2) else (0, t.2)

/-- The overload that returns the response in a `std::string`. -/
def sendAndReceive (L : HttpLib) (c : TcpConn) (sendbuf sendlen recvbuf : Nat) (r : InitReply)
    (rs : List SendReply) (ds : List RecvReply) : Option TcpConn.RecvEnd :=
  if 0 = recvbuf then some (.returned (-1) c none)
  else c.sendAndReceive (httpCheckComplete L) sendbuf sendlen recvbuf r rs ds

variable {L : HttpLib} {G : Framing UInt8} {c c' : TcpConn} {b d x rest : Bytes} {ds : List Bytes}
  {rs tail : List RecvReply}

theorem sendAndReceive_eq {buf size output : Nat} {r : InitReply} {ss : List SendReply}
    {fs : List Fragment} (h : c.sendRequest buf size output r ss = some (.ok c', fs)) :
    sendAndReceive L c buf size output r ss rs = c'.receive (httpCheckComplete L) [] rs := by
  have houtput : ¬ 0 = output := by
    intro h0
    simp [TcpConn.sendRequest, h0] at h
  simp [sendAndReceive, TcpConn.sendAndReceive, houtput, h]

theorem httpCheckComplete_of_ok (h : (HttpParserImpl.checkHttp L b).1.code = HttpParseCode.ok.code) :
    httpCheckComplete L b = toInt32 b.length := by
  simp only [httpCheckComplete, h, if_true]

theorem httpCheckComplete_of_notHttp
    (h : (HttpParserImpl.checkHttp L b).1.code = HttpParseCode.notHttp.code) :
    httpCheckComplete L b = 0 := by
  simp only [httpCheckComplete, h]
  simp [HttpParseCode.code]

theorem httpCheckComplete_of_notComplete
    (h : (HttpParserImpl.checkHttp L b).1.code = HttpParseCode.notCompleteHttp.code) :
    httpCheckComplete L b = checkIncomplete := by
  simp only [httpCheckComplete, h]
  simp [HttpParseCode.code]

theorem httpCheckComplete_of_live (hL : L.Reads G) (hb : b ∈ G.live) :
    httpCheckComplete L b = 0 ∨ httpCheckComplete L b = checkIncomplete := by
  have hc := HttpParserImpl.checkHttp_of_not_ended le_rfl (hL.live hb)
  by_cases hzero : b.length % 2 ^ 32 = 0
  · exact .inl (httpCheckComplete_of_notHttp (by rw [hc, if_pos hzero]))
  · exact .inr (httpCheckComplete_of_notComplete (by rw [hc, if_neg hzero]))

theorem httpCheckComplete_lt (L : HttpLib) (b : Bytes) : httpCheckComplete L b < 2 ^ 31 := by
  have hlt := toInt32_lt b.length
  simp only [httpCheckComplete, checkIncomplete, checkError]
  split_ifs <;> omega

/-- The chunk that completes the response: it is returned as it is exactly if nothing follows
it in the buffer and the length is an `int`. -/
theorem receive_last_iff (hL : L.Reads G) (hx : x ∈ G.complete) (hb : b.length < x.length)
    (hd : d.length ≤ kMaxRecvSize) (hpre : x <+: b ++ d) :
    c.receive (httpCheckComplete L) b (.data d :: ds.map .data ++ tail) =
        some (.returned 0 c (some x)) ↔ x.length < 2 ^ 31 ∧ b ++ d = x := by
  have hlen : x.length ≤ (b ++ d).length := hpre.length_le
  have hmax : (b ++ d).length < x.length + 5120 := by
    simp only [kMaxRecvSize] at hd
    simp only [List.length_append]
    omega
  have hok : (HttpParserImpl.checkHttp L (b ++ d)).1.code = HttpParseCode.ok.code := by
    obtain ⟨q, hq⟩ := hpre
    have hends : G.EndsAt (b ++ d) x.length := hq ▸ Framing.endsAt_of_complete hx q
    rw [HttpParserImpl.checkHttp_of_ended hends.1 (hL.ends hends)]
  have heof := httpCheckComplete_of_ok hok
  by_cases hfit : x.length < 2 ^ 31
  · by_cases hint : (b ++ d).length < 2 ^ 31
    · have hpos : 0 < httpCheckComplete L (b ++ d) := by
        rw [heof, toInt32_of_lt hint]
        omega
      rw [List.cons_append, TcpConn.receive_of_pos hpos, heof, toInt32_of_lt hint,
        TcpConn.assign_whole]
      simp only [Option.some.injEq, TcpConn.RecvEnd.returned.injEq, true_and]
      exact (and_iff_right hfit).symm
    · have hneg := toInt32_of_ge (not_lt.mp hint) (by omega)
      obtain ⟨c', he⟩ := TcpConn.receive_of_neg c (ds.map .data ++ tail)
        (show httpCheckComplete L (b ++ d) < 0 by omega)
        (show httpCheckComplete L (b ++ d) ≠ checkIncomplete by simp only [checkIncomplete]; omega)
      rw [List.cons_append, he]
      refine iff_of_false (by simp) fun h => hint (h.2 ▸ hfit)
  · refine iff_of_false (fun h => hfit ?_) fun h => hfit h.1
    exact TcpConn.output_length_lt (httpCheckComplete_lt L) h

theorem receive_iff (hL : L.Reads G) (hx : x ∈ G.complete) (hb : b.length < x.length)
    (hstream : b ++ ds.flatten = x ++ rest) (hds : ∀ d ∈ ds, d ≠ [] ∧ d.length ≤ kMaxRecvSize) :
    c.receive (httpCheckComplete L) b (ds.map .data ++ tail) = some (.returned 0 c (some x)) ↔
      x.length < 2 ^ 31 ∧ ∃ k, b ++ (ds.take k).flatten = x := by
  induction ds generalizing b with
  | nil =>
    have hlen := congrArg List.length hstream
    simp only [List.flatten_nil, List.append_nil, List.length_append] at hlen
    omega
  | cons d ds ih =>
    obtain ⟨hne, hd⟩ := hds d (by simp)
    have hds' : ∀ d ∈ ds, d ≠ [] ∧ d.length ≤ kMaxRecvSize := fun d hd => hds d (by simp [hd])
    have hstream' : b ++ d ++ ds.flatten = x ++ rest := by simpa using hstream
    have hcut : (∃ k, b ++ ((d :: ds).take k).flatten = x) ↔ ∃ k, b ++ d ++ (ds.take k).flatten = x := by
      constructor
      · rintro ⟨k, hk⟩
        cases k with
        | zero =>
          have hlen := congrArg List.length hk
          simp at hlen
          omega
        | succ k => exact ⟨k, by simpa using hk⟩
      · rintro ⟨k, hk⟩
        exact ⟨k + 1, by simpa using hk⟩
    rw [hcut]
    by_cases hlast : x.length ≤ (b ++ d).length
    · have hpre : x <+: b ++ d :=
        List.prefix_of_prefix_length_le ⟨rest, hstream'.symm⟩ (List.prefix_append _ _) hlast
      rw [List.map_cons, receive_last_iff hL hx hb hd hpre]
      refine and_congr_right fun _ => ⟨fun he => ⟨0, by simpa using he⟩, fun ⟨k, hk⟩ => ?_⟩
      have hlen := congrArg List.length hk
      simp only [List.length_append] at hlen hlast
      have hnil : (ds.take k).flatten = [] := List.length_eq_zero_iff.mp (by omega)
      rw [hnil, List.append_nil] at hk
      exact hk
    · have hpre : b ++ d <+: x := List.prefix_of_prefix_length_le
        (List.prefix_append _ _) (hstream' ▸ List.prefix_append x rest) (by omega)
      have hlive : b ++ d ∈ G.live := G.live_of_complete hpre hx fun he => hlast (he ▸ le_rfl)
      rw [List.map_cons, List.cons_append,
        TcpConn.receive_of_wait (httpCheckComplete_of_live hL hlive)]
      exact ih (by omega) hstream' hds'

end HttpClient

/-- Of a stream that begins with the response `x` the client returns exactly `x` if a chunk ends
where `x` ends and its length is an `int`, and never otherwise. -/
theorem http_response_exact_iff (L : HttpLib) (G : Framing UInt8) (c c' : TcpConn)
    (buf size output : Nat) (r : InitReply) (ss : List SendReply) (fs : List Fragment)
    (x rest : Bytes) (ds : List Bytes) (tail : List RecvReply) (hL : L.Reads G)
    (hsent : c.sendRequest buf size output r ss = some (.ok c', fs)) (hx : x ∈ G.complete)
    (hstream : ds.flatten = x ++ rest) (hds : ∀ d ∈ ds, d ≠ [] ∧ d.length ≤ kMaxRecvSize) :
    HttpClient.sendAndReceive L c buf size output r ss (ds.map .data ++ tail) =
        some (.returned 0 c' (some x)) ↔
      x.length < 2 ^ 31 ∧ ∃ k, (ds.take k).flatten = x := by
  have hne : x ≠ [] := fun he => G.not_live hx (he ▸ G.nil_live)
  rw [HttpClient.sendAndReceive_eq hsent]
  exact HttpClient.receive_iff (b := []) hL hx (List.length_pos_iff.mpr hne) hstream hds

def noContent : Bytes := bytes "HTTP/1.1 204 No Content\r\n\r\n"

theorem noContent_ne_nil : noContent ≠ [] := by decide

theorem ping_sent : ({ fd := 3 } : TcpConn).sendRequest 1 5 1 ⟨3, ⟨true, true⟩, 0, ""⟩ [⟨5, ""⟩] =
    some (.ok { fd := 3 }, [⟨1, 5⟩]) := rfl

theorem http_response_exact_of_two_chunks :
    HttpClient.sendAndReceive (.single noContent) { fd := 3 } 1 5 1 ⟨3, ⟨true, true⟩, 0, ""⟩ [⟨5, ""⟩]
        ([noContent.take 9, noContent.drop 9].map .data ++ []) =
      some (.returned 0 { fd := 3 } (some noContent)) := by
  refine (http_response_exact_iff _ _ _ _ _ _ _ _ _ _ noContent [] _ []
    (HttpLib.single_reads noContent_ne_nil) ping_sent rfl ?_ ?_).mpr ⟨by decide, 2, ?_⟩
  · simp
  · decide
  · simp

/-- Bytes that come with the end of the response are returned with it. -/
theorem bytes_after_response_returned :
    HttpClient.sendAndReceive (.single noContent) { fd := 3 } 1 5 1 ⟨3, ⟨true, true⟩, 0, ""⟩ [⟨5, ""⟩]
        [.data (noContent ++ bytes "HTTP")] =
      some (.returned 0 { fd := 3 } (some (noContent ++ bytes "HTTP"))) ∧
    ¬ ∀ (L : HttpLib) (G : Framing UInt8) (c c' : TcpConn) (buf size output : Nat) (r : InitReply)
        (ss : List SendReply) (fs : List Fragment) (x rest : Bytes) (ds : List Bytes),
      L.Reads G → c.sendRequest buf size output r ss = some (.ok c', fs) → x ∈ G.complete →
      ds.flatten = x ++ rest → (∀ d ∈ ds, d ≠ [] ∧ d.length ≤ kMaxRecvSize) →
      HttpClient.sendAndReceive L c buf size output r ss (ds.map .data) =
        some (.returned 0 c' (some x)) := by
  have he : HttpClient.sendAndReceive (.single noContent) { fd := 3 } 1 5 1 ⟨3, ⟨true, true⟩, 0, ""⟩
      [⟨5, ""⟩] [.data (noContent ++ bytes "HTTP")] =
      some (.returned 0 { fd := 3 } (some (noContent ++ bytes "HTTP"))) := by
    rfl
  refine ⟨he, fun hall => ?_⟩
  have hx := hall _ _ _ _ _ _ _ _ _ _ noContent (bytes "HTTP") [noContent ++ bytes "HTTP"]
    (HttpLib.single_reads noContent_ne_nil) ping_sent rfl (by simp) (by decide)
  rw [List.map_singleton, he] at hx
  exact absurd (congrArg List.length (Option.some.inj (TcpConn.RecvEnd.returned.inj
    (Option.some.inj hx)).2.2)) (by decide)

end Tinyco
