import Tinyco.RecvBuffer
import Tinyco.RequestIsolation

/-! `HttpSrvWork::Run` of `http_server.cc` with the parser and any `Serve`, and the
requests it serves from a stream that arrives in chunks. -/

namespace Tinyco

/-- `served` are the strings given to `ParseHttpRequest` for which `Serve` was called,
`sent` what it sent. -/
structure HttpSrvWork where
  loop : RecvLoop := {}
  hreq : HttpRequest := {}
  hrsp : HttpResponse := {}
  served : List Bytes := []
  sent : List Bytes := []

abbrev Serve := HttpRequest → HttpResponse → HttpResponse × List Bytes

namespace HttpSrvWork

/-- `CheckPkg` on the buffer of `b`; its length is a `uint32_t`. -/
def nparsed (L : HttpLib) (b : RecvLoop) : Int := checkPkg L (b.req.take (b.recvd % 2 ^ 32))

def process (L : HttpLib) (serve : Serve) (s : HttpSrvWork) (req : Bytes) : HttpSrvWork :=
  let p := HttpParserImpl.parseHttpRequest L req s.hreq
  if p.1 = 0 then
    { s with
      hreq := p.2
      hrsp := (serve p.2 s.hrsp).1
      served := s.served ++ [req]
      sent := s.sent ++ (serve p.2 s.hrsp).2 }
  else { s with hreq := p.2 }

def step (L : HttpLib) (serve : Serve) (s : HttpSrvWork) (r : RecvResult) :
    Option HttpSrvWork :=
  match r with
  | .data chunk =>
    let b := s.loop.received chunk
    let n := nparsed L b
    let p := HttpParserImpl.parseHttpRequest L (b.req.take n.toNat) s.hreq
    (s.loop.iterate ⟨r, n, p.1, p.2.keepalive⟩).map fun loop =>
      if 0 < n ∧ loop.point ≠ .fault then
        { s.process L serve (b.req.take n.toNat) with loop := loop }
      else { s with loop := loop }
  | _ => (s.loop.iterate ⟨r, 0, 0, false⟩).map fun loop => { s with loop := loop }

end HttpSrvWork

/-- A complete request with which the client keeps the connection, and how the library
finds it: whole at the front of a buffer, and unfinished as long as a part is missing. -/
structure KeepAliveRequest (L : HttpLib) (m : Bytes) : Prop where
  nonempty : m ≠ []
  length_lt : m.length < 2 ^ 31
  complete : ∀ rest, HttpParserImpl.checkHttp L (m ++ rest) = (.ok, m.length)
  incomplete : ∀ p, p <+: m → p ≠ m → p ≠ [] →
    (HttpParserImpl.checkHttp L p).1 = .notCompleteHttp
  parses : (HttpParserImpl.parseHttpRequest L m {}).1 = 0
  keepAlive : (HttpParserImpl.parseHttpRequest L m {}).2.keepalive = true

/-- No chunk holds bytes of two messages: the chunks fall into groups, one a message. -/
def Aligned (cs ms : List Bytes) : Prop :=
  ∃ gs : List (List Bytes), gs.flatten = cs ∧ gs.map List.flatten = ms

variable {L : HttpLib} {serve : Serve} {m p chunk : Bytes} {s s' : HttpSrvWork}

theorem checkPkg_of_ok {buf : Bytes} {n : Nat} (hn : n < 2 ^ 31)
    (h : HttpParserImpl.checkHttp L buf = (.ok, n)) : checkPkg L buf = n := by
  simp only [checkPkg, h, if_true]
  exact Int.bmod_eq_of_le (by omega) (by omega)

theorem checkPkg_of_notComplete {buf : Bytes}
    (h : (HttpParserImpl.checkHttp L buf).1 = .notCompleteHttp) : checkPkg L buf = 0 := by
  simp [checkPkg, h, HttpParseCode.code]

/-- A `Connection` header that is there asks to keep the connection. -/
def HttpRequest.KeepsAlive (r : HttpRequest) : Prop :=
  ∀ v, r.headers.find (bytes "Connection") = some v → v.map tolower = bytes "keep-alive"

theorem KeepAliveRequest.parse (hm : KeepAliveRequest L m) {r : HttpRequest} (hr : r.KeepsAlive) :
    (HttpParserImpl.parseHttpRequest L m r).1 = 0 ∧
      (HttpParserImpl.parseHttpRequest L m r).2.keepalive = true ∧
      (HttpParserImpl.parseHttpRequest L m r).2.KeepsAlive := by
  have ha := HttpParserImpl.parseHttpRequest_zero_iff.mp hm.parses
  have hkeep := hm.keepAlive
  rw [HttpParserImpl.parseHttpRequest_eq {} ha, setKeepAlive_eq] at hkeep
  rw [HttpParserImpl.parseHttpRequest_eq r ha, setKeepAlive_eq]
  set kvs := (L.scan .request m).writtenHeaders with hkvs
  have hfresh (v : Bytes) (hv : (AssocMap.empty.assignAll kvs).find (bytes "Connection") = some v) :
      v.map tolower = bytes "keep-alive" := by
    by_contra hne
    simp [HttpParserImpl.written, ← hkvs, hv, keepaliveAfter, hne] at hkeep
  have hnew (v : Bytes) (hv : (r.headers.assignAll kvs).find (bytes "Connection") = some v) :
      v.map tolower = bytes "keep-alive" := by
    by_cases hmem : bytes "Connection" ∈ kvs.map Prod.fst
    · exact hfresh v (AssocMap.find_assignAll_congr (.inl hmem) ▸ hv)
    · exact hr v (AssocMap.find_assignAll_of_not_mem hmem ▸ hv)
  refine ⟨rfl, ?_, hnew⟩
  cases hc : (r.headers.assignAll kvs).find (bytes "Connection") with
  | none => simp [HttpParserImpl.written, ← hkvs, hc, keepaliveAfter]
  | some v => simp [HttpParserImpl.written, ← hkvs, hc, keepaliveAfter, hnew v hc]

namespace HttpSrvWork

/-- The server waits for the rest of a request of which it has received `p`. -/
structure Waits (s : HttpSrvWork) (p : Bytes) : Prop where
  point : s.loop.point = .recv
  right : s.loop.BufferRight
  part : s.loop.unconsumed = p
  keeps : s.hreq.KeepsAlive

theorem waits_start : Waits {} [] where
  point := rfl
  right := RecvLoop.bufferRight_start
  part := rfl
  keeps := by simp [HttpRequest.KeepsAlive]

theorem Waits.received (h : s.Waits p) {a : Iteration} {loop : RecvLoop}
    (hr : a.recv = .data chunk) (hit : s.loop.iterate a = some loop) :
    chunk ≠ [] ∧ (s.loop.received chunk).recvd = (p ++ chunk).length ∧
      (s.loop.received chunk).req.take (p ++ chunk).length = p ++ chunk ∧
      (s.loop.received chunk).checked a = some loop := by
  obtain ⟨hne, hfit, ht, hcheck⟩ := RecvLoop.checked_of_iterate h.right hr hit
  have hplen : p.length = s.loop.recvd := by
    rw [← h.part, ← ht, List.length_take]
    omega
  have hrecvd : (s.loop.received chunk).recvd = (p ++ chunk).length := by
    simp [RecvLoop.received, hplen]
  refine ⟨hne, hrecvd, ?_, hcheck⟩
  rw [← hrecvd, RecvLoop.take_received hfit ht]
  exact congrArg (· ++ chunk) h.part

theorem nparsed_eq {b : RecvLoop} {q : Bytes} (hrecvd : b.recvd = q.length)
    (htake : b.req.take q.length = q) (hlen : q.length < 2 ^ 31) :
    nparsed L b = checkPkg L q := by
  rw [nparsed, hrecvd, Nat.mod_eq_of_lt (by omega), htake]

theorem Waits.step_part (h : s.Waits p) (hm : KeepAliveRequest L m) (hpre : p ++ chunk <+: m)
    (hne : p ++ chunk ≠ m) (hs : s.step L serve (.data chunk) = some s') :
    s'.Waits (p ++ chunk) ∧ s'.served = s.served := by
  obtain ⟨loop, hit, rfl⟩ := Option.map_eq_some_iff.mp hs
  obtain ⟨hchunk, hrecvd, htake, hcheck⟩ := h.received rfl hit
  have hn : nparsed L (s.loop.received chunk) = 0 := by
    rw [nparsed_eq hrecvd htake (hpre.length_le.trans_lt hm.length_lt)]
    exact checkPkg_of_notComplete (hm.incomplete _ hpre hne (by simp [hchunk]))
  have hright : loop.BufferRight :=
    (RecvLoop.bufferRight_iterate_iff h.right hit).mpr (by simp [Iteration.LeavesRest, hn])
  rw [RecvLoop.checked_of_zero hn, Option.some.injEq] at hcheck
  rw [if_neg (by simp [hn])]
  subst hcheck
  refine ⟨⟨?_, hright, ?_, h.keeps⟩, rfl⟩
  · rw [RecvLoop.growUp_point]
    exact h.point
  · rw [RecvLoop.growUp_unconsumed]
    exact congrArg (· ++ chunk) h.part

theorem Waits.step_last (h : s.Waits p) (hm : KeepAliveRequest L m) (hlast : p ++ chunk = m)
    (hs : s.step L serve (.data chunk) = some s') :
    s'.Waits [] ∧ s'.served = s.served ++ [m] := by
  obtain ⟨loop, hit, rfl⟩ := Option.map_eq_some_iff.mp hs
  obtain ⟨hchunk, hrecvd, htake, hcheck⟩ := h.received rfl hit
  rw [hlast] at hrecvd htake
  have hn : nparsed L (s.loop.received chunk) = m.length := by
    rw [nparsed_eq hrecvd htake hm.length_lt]
    exact checkPkg_of_ok hm.length_lt (by simpa using hm.complete [])
  have hpos : 0 < m.length := List.length_pos_iff.mpr hm.nonempty
  obtain ⟨hret, hkeep, hkeeps⟩ := hm.parse h.keeps
  have hright : loop.BufferRight := by
    refine (RecvLoop.bufferRight_iterate_iff h.right hit).mpr ?_
    rintro ⟨chunk', hc, _, hlt, _⟩
    cases hc
    rw [hn, ← hrecvd] at hlt
    simp [RecvLoop.received] at hlt
  have hreq : (s.loop.received chunk).req.take (nparsed L (s.loop.received chunk)).toNat = m := by
    rw [hn, Int.toNat_natCast, htake]
  rw [hreq] at hcheck
  rw [RecvLoop.checked_of_all (hrecvd ▸ hpos) (by rw [hn, hrecvd]) hret hkeep,
    Option.some.injEq] at hcheck
  have hpoint : loop.point = .recv := by
    rw [← hcheck, RecvLoop.growUp_point]
    exact h.point
  have hrest : loop.unconsumed = [] := by
    rw [← hcheck, RecvLoop.growUp_unconsumed, hrecvd]
    have hall : (s.loop.received chunk).unconsumed = m := by
      rw [← hlast, ← h.part]
      rfl
    simp [hall]
  rw [if_pos ⟨by rw [hn]; exact_mod_cast hpos, by simp [hpoint]⟩, hreq]
  simp only [process, hret, if_true]
  exact ⟨⟨hpoint, hright, hrest, hkeeps⟩, trivial⟩

theorem step_nil (s : HttpSrvWork) : s.step L serve (.data []) = none := by
  simp [step, RecvLoop.iterate]

theorem Waits.group {u : HttpSrvWork} {g : List Bytes} {rest : List RecvResult} (h : s.Waits p)
    (hm : KeepAliveRequest L m) (hg : p ++ g.flatten = m) (hp : p ≠ m)
    (hs : exec (step L serve) s (g.map .data ++ rest) = some u) :
    ∃ t, exec (step L serve) t rest = some u ∧ t.Waits [] ∧ t.served = s.served ++ [m] := by
  induction g generalizing s p with
  | nil => exact absurd (by simpa using hg) hp
  | cons chunk g ih =>
    obtain ⟨t, ht, hs⟩ := Option.bind_eq_some_iff.mp hs
    have hg' : (p ++ chunk) ++ g.flatten = m := by simpa using hg
    by_cases hlast : p ++ chunk = m
    · have hnil : g.flatten = [] := by simpa [hlast] using hg'
      obtain ⟨hw, hserved⟩ := h.step_last hm hlast ht
      cases g with
      | nil => exact ⟨t, hs, hw, hserved⟩
      | cons c g =>
        obtain rfl : c = [] := (List.append_eq_nil_iff.mp hnil).1
        simp [exec_cons, step_nil] at hs
    · obtain ⟨hw, hserved⟩ := h.step_part hm ⟨g.flatten, hg'⟩ hlast ht
      obtain ⟨v, hv, hwv, hservedv⟩ := ih hw hg' hlast hs
      exact ⟨v, hv, hwv, hserved ▸ hservedv⟩

theorem Waits.groups {u : HttpSrvWork} {gs : List (List Bytes)} (h : s.Waits [])
    (hms : ∀ g ∈ gs, KeepAliveRequest L g.flatten)
    (hs : exec (step L serve) s (gs.flatten.map .data) = some u) :
    u.Waits [] ∧ u.served = s.served ++ gs.map List.flatten := by
  induction gs generalizing s with
  | nil =>
    obtain rfl : s = u := Option.some.inj hs
    exact ⟨h, by simp⟩
  | cons g gs ih =>
    rw [List.flatten_cons, List.map_append] at hs
    have hm := hms g (by simp)
    obtain ⟨t, ht, hw, hserved⟩ := h.group hm rfl (Ne.symm hm.nonempty) hs
    obtain ⟨hu, huserved⟩ := ih hw (fun g' hg' => hms g' (by simp [hg'])) ht
    exact ⟨hu, by simp [huserved, hserved]⟩

/-- Within the chunks of a request the server waits for more, and behind them it has served it. -/
theorem Waits.visits_group {t : HttpSrvWork} {g : List Bytes} {rest : List RecvResult}
    (h : s.Waits p) (hm : KeepAliveRequest L m) (hg : p ++ g.flatten = m) (hp : p ≠ m)
    (ht : Visits (step L serve) s (g.map .data ++ rest) t) :
    t.loop.point = .recv ∧ t.served = s.served ∨
      ∃ u, u.Waits [] ∧ u.served = s.served ++ [m] ∧ Visits (step L serve) u rest t := by
  induction g generalizing s p with
  | nil => exact absurd (by simpa using hg) hp
  | cons chunk g ih =>
    rcases visits_cons_iff.mp ht with rfl | ⟨u, hu, ht⟩
    · exact .inl ⟨h.point, rfl⟩
    · have hg' : (p ++ chunk) ++ g.flatten = m := by simpa using hg
      by_cases hlast : p ++ chunk = m
      · have hnil : g.flatten = [] := by simpa [hlast] using hg'
        obtain ⟨hw, hserved⟩ := h.step_last hm hlast hu
        cases g with
        | nil => exact .inr ⟨u, hw, hserved, ht⟩
        | cons c g =>
          obtain rfl : c = [] := (List.append_eq_nil_iff.mp hnil).1
          rcases visits_cons_iff.mp ht with rfl | ⟨v, hv, -⟩
          · exact .inr ⟨t, hw, hserved, .refl ..⟩
          · simp [step_nil] at hv
      · obtain ⟨hw, hserved⟩ := h.step_part hm ⟨g.flatten, hg'⟩ hlast hu
        exact hserved ▸ ih hw hg' hlast ht

theorem Waits.visits_groups {t : HttpSrvWork} {gs : List (List Bytes)} (h : s.Waits [])
    (hms : ∀ g ∈ gs, KeepAliveRequest L g.flatten)
    (ht : Visits (step L serve) s (gs.flatten.map .data) t) :
    t.loop.point = .recv ∧ t.served <+: s.served ++ gs.map List.flatten := by
  induction gs generalizing s with
  | nil =>
    obtain rfl : t = s := visits_nil_iff.mp ht
    exact ⟨h.point, by simp⟩
  | cons g gs ih =>
    rw [List.flatten_cons, List.map_append] at ht
    have hm := hms g (by simp)
    rcases h.visits_group hm rfl (Ne.symm hm.nonempty) ht with ⟨hpoint, hserved⟩ | ⟨u, hw, hserved, ht⟩
    · exact ⟨hpoint, hserved ▸ List.prefix_append _ _⟩
    · obtain ⟨hpoint, hprefix⟩ := ih hw (fun g' hg' => hms g' (by simp [hg'])) ht
      exact ⟨hpoint, by simpa [hserved] using hprefix⟩

end HttpSrvWork

/-- When no chunk holds bytes of two requests, `Run` goes on to the next `recv` after every chunk and
serves the requests of the stream one by one, all of them by the time it waits for more. -/
theorem all_served_of_aligned (L : HttpLib) (serve : Serve) {ms cs : List Bytes}
    (hms : ∀ m ∈ ms, KeepAliveRequest L m) (hal : Aligned cs ms) :
    (∀ t, Visits (HttpSrvWork.step L serve) {} (cs.map .data) t →
      t.loop.point = .recv ∧ t.served <+: ms) ∧
    ∀ s, exec (HttpSrvWork.step L serve) {} (cs.map .data) = some s →
      s.served = ms ∧ s.loop.point = .recv ∧ s.loop.unconsumed = [] := by
  obtain ⟨gs, rfl, rfl⟩ := hal
  have hgs (g : List Bytes) (hg : g ∈ gs) : KeepAliveRequest L g.flatten :=
    hms _ (List.mem_map_of_mem hg)
  refine ⟨fun t ht => ?_, fun s hs => ?_⟩
  · simpa using HttpSrvWork.waits_start.visits_groups hgs ht
  · obtain ⟨hw, hserved⟩ := HttpSrvWork.waits_start.groups hgs hs
    exact ⟨by simpa using hserved, hw.point, hw.part⟩

def getRequest : Bytes := bytes "GET / HTTP/1.1\r\n\r\n"

def getLib : HttpLib where
  scan ty buf :=
    match ty with
    | .both =>
      if getRequest <+: buf then
        { events := [(.messageComplete, getRequest.length)], nparsed := getRequest.length }
      else { nparsed := buf.length }
    | _ =>
      if buf = getRequest then
        { events := [(.url (bytes "/"), 5), (.headersComplete, 17), (.messageComplete, 18)]
          nparsed := 18
          method := 1 }
      else {}
  parseUrl s := if s = bytes "/" then some { path := some (0, 1) } else none
  curlUnescape := id

theorem keepAliveRequest_getRequest : KeepAliveRequest getLib getRequest where
  nonempty := by decide
  length_lt := by decide
  complete rest := by
    refine HttpParserImpl.checkHttp_of_complete (by decide) (by simp) ?_
    simp [HttpLib.execute, getLib, runCallbacks, HttpParserImpl.httpComplete]
  incomplete p hp hne hnil := by
    have hnot : ¬ getRequest <+: p := fun h =>
      hne (hp.eq_of_length (le_antisymm hp.length_le h.length_le))
    have hlen : p.length < 2 ^ 31 := hp.length_le.trans_lt (by decide)
    rw [HttpParserImpl.checkHttp_of_incomplete (List.length_pos_iff.mpr hnil) (by omega) le_rfl]
    simp [HttpLib.execute, getLib, runCallbacks, hnot]
  parses := by decide +kernel
  keepAlive := by decide +kernel

theorem keepAliveRequest_of_mem_two {m : Bytes} (hm : m ∈ [getRequest, getRequest]) :
    KeepAliveRequest getLib m := by
  obtain rfl : m = getRequest := by simpa using hm
  exact keepAliveRequest_getRequest

/-- Two requests, the first cut into two chunks. -/
theorem all_served_of_aligned_two :
    ∃ s, exec (HttpSrvWork.step getLib fun _ h => (h, [])) {}
        ([getRequest.take 7, getRequest.drop 7, getRequest].map .data) = some s ∧
      s.served = [getRequest, getRequest] ∧ s.loop.point = .recv := by
  have he : (exec (HttpSrvWork.step getLib fun _ h => (h, [])) {}
      ([getRequest.take 7, getRequest.drop 7, getRequest].map .data)).isSome = true := by
    decide +kernel
  obtain ⟨s, hs⟩ := Option.isSome_iff_exists.mp he
  have hal : Aligned [getRequest.take 7, getRequest.drop 7, getRequest] [getRequest, getRequest] :=
    ⟨[[getRequest.take 7, getRequest.drop 7], [getRequest]], rfl, by simp⟩
  obtain ⟨hserved, hpoint, _⟩ := (all_served_of_aligned getLib (fun _ h => (h, []))
    (fun _ hm => keepAliveRequest_of_mem_two hm) hal).2 s hs
  exact ⟨s, hs, hserved, hpoint⟩

/-- Two requests in one chunk. The second is not served, `Run` waits for more bytes. -/
theorem second_of_two_requests_not_served :
    (exec (HttpSrvWork.step getLib fun _ h => (h, [])) {} [.data (getRequest ++ getRequest)]).map
        (fun s => (s.served, s.loop.point, s.loop.recvd)) = some ([getRequest], .recv, 36) ∧
    ¬ ∀ (L : HttpLib) (serve : Serve) (ms cs : List Bytes) (s : HttpSrvWork),
      (∀ m ∈ ms, KeepAliveRequest L m) → cs.flatten = ms.flatten →
        exec (HttpSrvWork.step L serve) {} (cs.map .data) = some s → s.served = ms := by
  have he : (exec (HttpSrvWork.step getLib fun _ h => (h, [])) {}
      [.data (getRequest ++ getRequest)]).map
      (fun s => (s.served, s.loop.point, s.loop.recvd)) = some ([getRequest], .recv, 36) := by
    decide +kernel
  refine ⟨he, fun h => ?_⟩
  obtain ⟨s, hs, hq⟩ := Option.map_eq_some_iff.mp he
  have hall := h getLib _ [getRequest, getRequest] [getRequest ++ getRequest] s
    (fun _ hm => keepAliveRequest_of_mem_two hm) (by simp) hs
  have hone : s.served = [getRequest] := congrArg Prod.fst hq
  simp [hone] at hall

end Tinyco
