import Tinyco.HttpClient
import Tinyco.HttpReading

/-! One message over a connection: the bytes that `TcpConn` has sent, the server that receives one
request in chunks, and the client that receives one response in chunks. -/

namespace Tinyco

open HttpParserImpl

/-- `CheckHttp` finds the message complete at its last byte and at none before. -/
structure FoundWhole (L : HttpLib) (x : Bytes) : Prop where
  nonempty : x ≠ []
  length_lt : x.length < 2 ^ 31
  complete : checkHttp L x = (.ok, x.length)
  incomplete : ∀ p, p <+: x → p ≠ [] → p ≠ x → (checkHttp L p).1 = .notCompleteHttp

/-- `CheckHttp` asks for more bytes, however many of the message there are. -/
structure NeverWhole (L : HttpLib) (x : Bytes) : Prop where
  incomplete : ∀ p, p <+: x → p ≠ [] → (checkHttp L p).1 = .notCompleteHttp

section Frames

variable {L : HttpLib} {maxHead : Nat} {x : Bytes}

theorem foundWhole_of_frame
    (hcomplete : ∀ buf n, buf <+: x → frame maxHead buf = some n →
      L.execute httpComplete false .both buf = (true, n))
    (hincomplete : ∀ buf, buf <+: x → buf ≠ [] → frame maxHead buf = none →
      ∃ k, 0 < k ∧ k ≤ buf.length ∧ L.execute httpComplete false .both buf = (false, k))
    (hne : x ≠ []) (hlt : x.length < 2 ^ 31) (hf : frame maxHead x = some x.length) :
    FoundWhole L x where
  nonempty := hne
  length_lt := hlt
  complete := checkHttp_of_complete hlt le_rfl (hcomplete x x.length List.prefix_rfl hf)
  incomplete p hp hnil hpx := by
    obtain ⟨k, hpos, hk, he⟩ := hincomplete p hp hnil (frame_eq_none_of_isPrefix hf hp hpx)
    have hple := hp.length_le
    rw [checkHttp_of_incomplete hpos (by omega) hk he]

end Frames

/-- The bytes of `x`, which lies at `buf`, at the addresses that were sent. -/
def sentBytes (buf : Nat) (x : Bytes) (fs : List Fragment) : Bytes :=
  (addresses fs).filterMap fun a => if buf ≤ a then x[a - buf]? else none

theorem filterMap_range_getElem (buf : Nat) (x : Bytes) :
    (List.range' buf x.length).filterMap (fun a => if buf ≤ a then x[a - buf]? else none) = x := by
  have hmap : (List.range' buf x.length).map (fun a => if buf ≤ a then x[a - buf]? else none) =
      x.map some := by
    refine List.ext_getElem (by simp) fun i hi _ => ?_
    simp only [List.length_map, List.length_range'] at hi
    simp [hi]
  have hfilter := congrArg (List.filterMap id) hmap
  rwa [List.filterMap_map, List.filterMap_map, Function.id_comp, Function.id_comp,
    List.filterMap_some] at hfilter

theorem sentBytes_of_sendRequest {c c' : TcpConn} {x : Bytes} {buf output : Nat} {r : InitReply}
    {ss : List SendReply} {fs : List Fragment} (hlt : x.length < 2 ^ 31)
    (h : c.sendRequest buf x.length output r ss = some (.ok c', fs)) : sentBytes buf x fs = x := by
  rw [sentBytes, TcpConn.addresses_of_sendRequest h,
    (TcpConn.range_eq_iff_fits_int buf x.length).mpr hlt, filterMap_range_getElem]

section Client

variable {L : HttpLib} {c : TcpConn} {x b : Bytes} {ds : List Bytes} {tail : List RecvReply}

theorem httpCheckComplete_incomplete {p : Bytes} (h : (checkHttp L p).1 = .notCompleteHttp) :
    HttpClient.httpCheckComplete L p = 0 ∨ HttpClient.httpCheckComplete L p = checkIncomplete :=
  .inr (HttpClient.httpCheckComplete_of_notComplete (by rw [h]))

theorem FoundWhole.receive (hx : FoundWhole L x) (hds : ∀ d ∈ ds, d ≠ []) (hb : b ++ ds.flatten = x)
    (hne : b ≠ x) :
    c.receive (HttpClient.httpCheckComplete L) b (ds.map .data ++ tail) =
      some (.returned 0 c (some x)) := by
  induction ds generalizing b with
  | nil => exact absurd (by simpa using hb) hne
  | cons d ds ih =>
    have hd := hds d List.mem_cons_self
    have hb' : b ++ d ++ ds.flatten = x := by simpa using hb
    rw [List.map_cons, List.cons_append]
    by_cases hlast : b ++ d = x
    · have hcheck : HttpClient.httpCheckComplete L (b ++ d) = (b ++ d).length := by
        rw [HttpClient.httpCheckComplete_of_ok (by rw [hlast, hx.complete]), hlast,
          toInt32_of_lt hx.length_lt]
      have hpos : 0 < HttpClient.httpCheckComplete L (b ++ d) := by
        have hlen := List.length_pos_iff.mpr hd
        rw [hcheck, List.length_append]
        omega
      rw [TcpConn.receive_of_pos hpos, hcheck, TcpConn.assign_whole, hlast]
    · have hpart := hx.incomplete (b ++ d) ⟨ds.flatten, hb'⟩ (by simp [hd]) hlast
      rw [TcpConn.receive_of_wait (httpCheckComplete_incomplete hpart)]
      exact ih (fun d' hd' => hds d' (List.mem_cons_of_mem _ hd')) hb' hlast

theorem NeverWhole.receive (hx : NeverWhole L x) (hds : ∀ d ∈ ds, d ≠ []) (hb : b ++ ds.flatten = x) :
    c.receive (HttpClient.httpCheckComplete L) b (ds.map .data ++ tail) =
      c.receive (HttpClient.httpCheckComplete L) x tail := by
  induction ds generalizing b with
  | nil =>
    obtain rfl : b = x := by simpa using hb
    rfl
  | cons d ds ih =>
    have hd := hds d List.mem_cons_self
    have hb' : b ++ d ++ ds.flatten = x := by simpa using hb
    have hpart := hx.incomplete (b ++ d) ⟨ds.flatten, hb'⟩ (by simp [hd])
    rw [List.map_cons, List.cons_append,
      TcpConn.receive_of_wait (httpCheckComplete_incomplete hpart)]
    exact ih (fun d' hd' => hds d' (List.mem_cons_of_mem _ hd')) hb'

end Client

namespace HttpSrvWork

variable {L : HttpLib} {serve : Serve} {s s' : HttpSrvWork} {p x chunk : Bytes}

/-- A chunk that does not complete a request only goes into the buffer. -/
theorem Waits.step_of_zero (h : s.Waits p) (hn : nparsed L (s.loop.received chunk) = 0)
    (hs : s.step L serve (.data chunk) = some s') :
    s'.Waits (p ++ chunk) ∧ s'.sent = s.sent ∧ s'.hreq = s.hreq ∧ s'.hrsp = s.hrsp := by
  obtain ⟨loop, hit, rfl⟩ := Option.map_eq_some_iff.mp hs
  obtain ⟨-, -, -, hcheck⟩ := h.received rfl hit
  have hright : loop.BufferRight :=
    (RecvLoop.bufferRight_iterate_iff h.right hit).mpr (by simp [Iteration.LeavesRest, hn])
  rw [RecvLoop.checked_of_zero hn, Option.some.injEq] at hcheck
  rw [if_neg (by simp [hn])]
  subst hcheck
  refine ⟨⟨?_, hright, ?_, h.keeps⟩, rfl, rfl, rfl⟩
  · rw [RecvLoop.growUp_point]
    exact h.point
  · rw [RecvLoop.growUp_unconsumed]
    exact congrArg (· ++ chunk) h.part

/-- The chunk with which a request is there as a whole: it is processed, nothing of it is left in the
buffer, and `Run` goes on or returns as the request asks. -/
theorem Waits.step_of_whole (h : s.Waits p) (hx : FoundWhole L x) (hlast : p ++ chunk = x)
    (hparse : (parseHttpRequest L x s.hreq).1 = 0) (hs : s.step L serve (.data chunk) = some s') :
    ∃ loop, s' = { s.process L serve x with loop := loop } ∧ loop.BufferRight ∧
      loop.unconsumed = [] ∧
      loop.point = if (parseHttpRequest L x s.hreq).2.keepalive then .recv else .returned 0 := by
  obtain ⟨loop, hit, rfl⟩ := Option.map_eq_some_iff.mp hs
  obtain ⟨hchunk, hrecvd, htake, hcheck⟩ := h.received rfl hit
  rw [hlast] at hrecvd htake
  have hn : nparsed L (s.loop.received chunk) = x.length := by
    rw [nparsed_eq hrecvd htake hx.length_lt]
    exact checkPkg_of_ok hx.length_lt hx.complete
  have hpos : 0 < x.length := List.length_pos_iff.mpr hx.nonempty
  have hreq : (s.loop.received chunk).req.take (nparsed L (s.loop.received chunk)).toNat = x := by
    rw [hn, Int.toNat_natCast, htake]
  rw [hreq] at hcheck
  have hright : loop.BufferRight := by
    refine (RecvLoop.bufferRight_iterate_iff h.right hit).mpr ?_
    rintro ⟨chunk', hc, -, hlt, -⟩
    cases hc
    rw [hn, ← hrecvd] at hlt
    simp [RecvLoop.received] at hlt
  have hall : (s.loop.received chunk).unconsumed = x := by
    rw [← hlast, ← h.part]
    rfl
  have hrun : (s.loop.received chunk).point = .recv := h.point
  simp only [RecvLoop.checked, hn, hrecvd, hparse, lt_irrefl, if_false, if_true,
    if_pos (show (0 : Int) < x.length by exact_mod_cast hpos), Option.some.injEq,
    Int.toNat_natCast] at hcheck
  obtain ⟨hrest, hpoint⟩ : loop.unconsumed = [] ∧
      loop.point = if (parseHttpRequest L x s.hreq).2.keepalive then .recv else .returned 0 := by
    rw [← hcheck, RecvLoop.served]
    split_ifs
    · rw [RecvLoop.growUp_point, RecvLoop.growUp_unconsumed]
      simp [RecvLoop.moveLeft, hrecvd, hrun, hall]
    · simp [RecvLoop.moveLeft, hrecvd, hall]
  have hserved : 0 < nparsed L (s.loop.received chunk) ∧ loop.point ≠ .fault := by
    refine ⟨by rw [hn]; exact_mod_cast hpos, ?_⟩
    rw [hpoint]
    split_ifs <;> simp
  rw [if_pos hserved, hreq]
  exact ⟨loop, rfl, hright, hrest, hpoint⟩

theorem Waits.run_one {u : HttpSrvWork} {cs : List Bytes} (h : s.Waits p) (hx : FoundWhole L x)
    (hcs : p ++ cs.flatten = x) (hp : p ≠ x) (hparse : (parseHttpRequest L x s.hreq).1 = 0)
    (hs : exec (step L serve) s (cs.map .data) = some u) :
    u.hreq = (parseHttpRequest L x s.hreq).2 ∧
      u.hrsp = (serve (parseHttpRequest L x s.hreq).2 s.hrsp).1 ∧
      u.sent = s.sent ++ (serve (parseHttpRequest L x s.hreq).2 s.hrsp).2 ∧
      u.loop.BufferRight ∧ u.loop.unconsumed = [] ∧
      u.loop.point = if (parseHttpRequest L x s.hreq).2.keepalive then .recv else .returned 0 := by
  induction cs generalizing s p with
  | nil => exact absurd (by simpa using hcs) hp
  | cons chunk cs ih =>
    obtain ⟨t, ht, hs⟩ := Option.bind_eq_some_iff.mp hs
    have hcs' : p ++ chunk ++ cs.flatten = x := by simpa using hcs
    by_cases hlast : p ++ chunk = x
    · have hnil : cs.flatten = [] := by simpa [hlast] using hcs'
      cases cs with
      | nil =>
        obtain rfl : t = u := Option.some.inj hs
        obtain ⟨loop, rfl, hloop⟩ := h.step_of_whole hx hlast hparse ht
        simpa [process, hparse] using hloop
      | cons c cs =>
        obtain rfl : c = [] := (List.append_eq_nil_iff.mp hnil).1
        simp [exec_cons, step_nil] at hs
    · obtain ⟨loop, hit, -⟩ := Option.map_eq_some_iff.mp ht
      obtain ⟨hchunk, hrecvd, htake, -⟩ := h.received rfl hit
      have hlt : (p ++ chunk).length < 2 ^ 31 := by
        have hle := congrArg List.length hcs'
        have hxl := hx.length_lt
        simp only [List.length_append] at hle ⊢
        omega
      have hn : nparsed L (s.loop.received chunk) = 0 := by
        rw [nparsed_eq hrecvd htake hlt]
        exact checkPkg_of_notComplete
          (hx.incomplete _ ⟨cs.flatten, hcs'⟩ (by simp [hchunk]) hlast)
      obtain ⟨hw, hsent, hreq, hrsp⟩ := h.step_of_zero hn ht
      rw [← hsent, ← hreq, ← hrsp]
      exact ih hw hcs' hlast (hreq ▸ hparse) hs

end HttpSrvWork

end Tinyco
