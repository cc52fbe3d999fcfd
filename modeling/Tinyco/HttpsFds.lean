import Tinyco.ClientFds
import Tinyco.HttpsCalls

/-! The descriptors of an `HttpsClient` over its whole life, and the descriptor of
`Frame::UdpSendAndRecv`. -/

namespace Tinyco

inductive HttpsOp where
  | init (ip port : Nat) (r : SslInitReply)
  | sendAndReceive (sendbuf sendlen recvbuf : Nat) (ws : List SslReply) (ds : List SslReadReply)
  | close
  | destroy

structure HttpsFds where
  client : HttpsClient := {}
  bioFd : Int := -1
  sslFd : Int := -1
  fds : FdTable := {}
  gone : Bool := false

namespace HttpsFds

def after (s : HttpsFds) (client : HttpsClient) (calls : List FdCall) : Option HttpsFds :=
  (exec FdTable.step s.fds calls).map fun fds => { s with client := client, fds := fds }

def step (L : HttpLib) (s : HttpsFds) (a : HttpsOp) : Option HttpsFds :=
  if s.gone then none
  else match a with
  | .init ip port r =>
    let t := s.client.init ip port r
    -- with a result of 0 there is a new BIO, and it belongs to a new SSL object
    let fdOf (old : Int) := if t.1 = 0 then t.2.fd else old
    ({ s with bioFd := fdOf s.bioFd, sslFd := fdOf s.sslFd }).after t.2 (s.client.initCalls s.sslFd r)
  | .sendAndReceive sendbuf sendlen recvbuf ws ds =>
    (s.client.sendAndReceive L sendbuf sendlen recvbuf ws ds).bind fun e => s.after e.client []
  | .close => s.after s.client.close (s.client.closeCalls s.bioFd s.sslFd)
  | .destroy =>
    ({ s with gone := true }).after s.client.close (s.client.closeCalls s.bioFd s.sslFd)

def Owned (s : HttpsFds) : Prop := s.fds.Owns s.client.fd

/-- What an `Init` needs: on a client that is not connected, that it fails before there is a BIO
without leaving the socket behind, or succeeds; on one that is, that it fails between the new
BIO and the new SSL object, so that `Close` finds the old object and the new descriptor. -/
def InitMeets (fd : Int) (r : SslInitReply) : Prop :=
  if fd < 0 then
    r.socket = -1 ∨ 0 ≤ r.setNonBlock ∧ (¬ r.Configured ∨ r.bio = false ∨
      r.ctx = true ∧ 0 ≤ r.connect ∧ r.ssl = true ∧ 0 < r.sslConnect)
  else
    r.socket ≠ -1 ∧ 0 ≤ r.setNonBlock ∧ r.Configured ∧
      (r.bio = false ∨ r.ctx = false ∨ r.connect < 0)

/-- A client that is connected is never closed: its descriptor would be closed twice. -/
def Meets (s : HttpsFds) : HttpsOp → Prop
  | .init _ _ r => InitMeets s.client.fd r
  | .sendAndReceive .. => True
  | .close => s.client.fd < 0
  | .destroy => s.client.fd < 0

/-- The pointers are null together with the descriptor, and the SSL object has its number. -/
structure Sound (s : HttpsFds) : Prop where
  owned : s.Owned
  closed : s.client.fd < 0 → s.client.ssl = false ∧ s.client.bio = false
  linked : 0 ≤ s.client.fd → s.client.ssl = true ∧ s.sslFd = s.client.fd

theorem not_owned_of_length {s : HttpsFds} (h : s.fds.opened.length ≠ (FdTable.owned s.client.fd).length) :
    ¬ s.Owned := fun ho => h (congrArg List.length ho.opened)

theorem not_owned_of_stray {s : HttpsFds} (h : s.fds.stray ≠ []) : ¬ s.Owned := fun ho => h ho.stray

theorem after_eq_some {s s' : HttpsFds} {client : HttpsClient} {calls : List FdCall}
    (h : s.after client calls = some s') : exec FdTable.step s.fds calls = some s'.fds ∧
      s'.client = client ∧ s'.sslFd = s.sslFd := by
  obtain ⟨t, ht, rfl⟩ := Option.map_eq_some_iff.mp h
  exact ⟨ht, rfl, rfl⟩

theorem socket_of_exec {t t' : FdTable} {h : HttpsClient} {sslFd : Int} {r : SslInitReply}
    (he : exec FdTable.step t (h.initCalls sslFd r) = some t') : r.socket = -1 ∨ 0 ≤ r.socket := by
  by_cases hs : r.socket = -1
  · exact .inl hs
  · simp only [HttpsClient.initCalls, HttpsClient.createSocketCalls, if_neg hs, List.cons_append] at he
    obtain ⟨u, hu, -⟩ := Option.bind_eq_some_iff.mp he
    exact .inr (FdTable.step_socket_eq_some_iff.mp hu).1.1

theorem init_ret_of_connected {h : HttpsClient} {ip port : Nat} {r : SslInitReply}
    (hfd : 0 ≤ (h.init ip port r).2.fd) : (h.init ip port r).1 = 0 := by
  simp only [HttpsClient.init, HttpsClient.close, HttpsClient.err] at hfd ⊢
  split_ifs at hfd ⊢ <;> first | rfl | (simp only at hfd; omega)

theorem initMeets_closed_iff {fd : Int} (hneg : fd < 0) (r : SslInitReply) :
    InitMeets fd r ↔ r.socket = -1 ∨ 0 ≤ r.setNonBlock ∧ (¬ r.Configured ∨ r.bio = false ∨
      r.ctx = true ∧ 0 ≤ r.connect ∧ r.ssl = true ∧ 0 < r.sslConnect) := by
  rw [InitMeets, if_pos hneg]

/-- A failure behind the new BIO closes the descriptor twice. -/
theorem not_initMeets_of_bio {fd : Int} {r : SslInitReply} (hneg : fd < 0) (hs : 0 ≤ r.socket)
    (hset : r.Configured) (hbio : r.bio = true)
    (hfail : ¬ (r.ctx = true ∧ 0 ≤ r.connect ∧ r.ssl = true ∧ 0 < r.sslConnect)) :
    ¬ InitMeets fd r := by
  rw [initMeets_closed_iff hneg]
  rintro (hnone | ⟨-, hunset | hnobio | hok⟩)
  · omega
  · exact hunset hset
  · rw [hbio] at hnobio
    cases hnobio
  · exact hfail hok

/-- `Init` on a client without a descriptor. -/
theorem sound_of_run_closed {s s' : HttpsFds} {r : SslInitReply} {calls : List FdCall} (h : s.Sound)
    (hneg : s.client.fd < 0)
    (hrun : s.client.InitRun s.sslFd r calls s'.client.fd s'.client.ssl s'.client.bio)
    (hexec : exec FdTable.step s.fds calls = some s'.fds)
    (hlink : 0 ≤ s'.client.fd → s'.sslFd = s'.client.fd) :
    (InitMeets s.client.fd r ∧ s'.Sound) ∨ (¬ InitMeets s.client.fd r ∧ ¬ s'.Owned) := by
  obtain ⟨hssl, hbio⟩ := h.closed hneg
  have hempty : s.fds = ⟨[], []⟩ := by
    rw [FdTable.owns_iff.mp h.owned, FdTable.owned_of_neg hneg]
  have hmeets := initMeets_closed_iff hneg r
  rw [hempty] at hexec
  generalize hfd : s'.client.fd = fd' at hrun
  generalize hssl' : s'.client.ssl = ssl' at hrun
  generalize hbio' : s'.client.bio = bio' at hrun
  have hclosed (hfd' : fd' < 0) (hs : ssl' = false) (hb : bio' = false) (ht : s'.fds = ⟨[], []⟩) :
      s'.Sound := by
    refine ⟨?_, fun _ => ⟨hssl'.trans hs, hbio'.trans hb⟩, fun hpos => by omega⟩
    rw [Owned, FdTable.owns_iff, hfd, FdTable.owned_of_neg hfd', ht]
  cases hrun with
  | noSocket hs =>
    exact .inl ⟨hmeets.mpr (.inl hs), hclosed (by decide) hssl hbio (Option.some.inj hexec).symm⟩
  | blocking hs hb =>
    refine .inr ⟨fun hm => ?_, not_owned_of_length ?_⟩
    · have hor := hmeets.mp hm
      omega
    · rw [FdTable.exec_opening (.given r.socket) hexec, hfd]
      simp [FdTable.owned, hs]
  | unset hs hb hset hfd' =>
    refine .inl ⟨hmeets.mpr (.inr ⟨by omega, .inl hset⟩), hclosed hfd' hssl hbio ?_⟩
    rw [FdTable.exec_opening (.undone r.socket hfd') hexec, FdTable.owned_of_neg hfd', List.append_nil]
  | closed hs hb hset hr =>
    have hne : r.socket ≠ -1 := by omega
    cases hbio : r.bio with
    | false =>
      have hcalls := HttpsClient.closeCalls_of_null (h := { s.client with fd := r.socket, bio := r.bio })
        hssl hbio r.socket s.sslFd
      rw [hcalls, if_pos hne] at hexec
      refine .inl ⟨hmeets.mpr (.inr ⟨by omega, .inr (.inl hbio)⟩), hclosed (by decide) rfl rfl ?_⟩
      rw [FdTable.exec_opening (.undone r.socket (by decide : (-1 : Int) < 0)) hexec,
        FdTable.owned_of_neg (by decide), List.append_nil]
    | true =>
      have hcalls := HttpsClient.closeCalls_of_bio (h := { s.client with fd := r.socket, bio := r.bio })
        hssl hbio hne r.socket s.sslFd
      rw [hcalls] at hexec
      refine .inr ⟨not_initMeets_of_bio hneg hs hset hbio fun hok => ?_, not_owned_of_stray ?_⟩
      · simp only [hbio, Bool.true_eq_false, false_or, hok.1] at hr
        omega
      · rw [FdTable.exec_close_twice hexec]
        simp
  | failed hs hb hset hr hssl'' =>
    have hbio : r.bio = true := by simpa using fun h => hr (.inl h)
    refine .inr ⟨not_initMeets_of_bio hneg hs hset hbio fun hok => ?_, not_owned_of_stray ?_⟩
    · rcases hssl'' with hnew | hnew
      · rw [hok.2.2.1] at hnew
        cases hnew
      · omega
    · rw [FdTable.exec_close_twice hexec]
      simp
  | connected hs hb hset hr hok =>
    have hall : r.ctx = true ∧ 0 ≤ r.connect ∧ r.ssl = true ∧ 0 < r.sslConnect := by
      simp only [not_or, Bool.not_eq_false] at hr hok
      exact ⟨hr.2.1, by omega, hok.1, by omega⟩
    refine .inl ⟨hmeets.mpr (.inr ⟨by omega, .inr (.inr hall)⟩), ?_, fun hneg' => by omega,
      fun hpos => ⟨hssl', hlink hpos⟩⟩
    rw [Owned, FdTable.owns_iff, hfd, FdTable.exec_opening (.given r.socket) hexec, List.nil_append]

/-- `Init` on a client that has a descriptor and an SSL object. -/
theorem sound_of_run_open {s s' : HttpsFds} {r : SslInitReply} {calls : List FdCall} (h : s.Sound)
    (hpos : 0 ≤ s.client.fd)
    (hrun : s.client.InitRun s.sslFd r calls s'.client.fd s'.client.ssl s'.client.bio)
    (hexec : exec FdTable.step s.fds calls = some s'.fds) :
    (InitMeets s.client.fd r ∧ s'.Sound) ∨ (¬ InitMeets s.client.fd r ∧ ¬ s'.Owned) := by
  obtain ⟨hssl, hlinked⟩ := h.linked hpos
  have hone : s.fds = ⟨[s.client.fd], []⟩ := by
    rw [FdTable.owns_iff.mp h.owned, FdTable.owned_of_nonneg hpos]
  rw [hone] at hexec
  simp only [InitMeets, if_neg (Int.not_lt.mpr hpos)]
  generalize hfd : s'.client.fd = fd' at hrun
  generalize hssl' : s'.client.ssl = ssl' at hrun
  generalize hbio' : s'.client.bio = bio' at hrun
  have hleak {fd : Int} (hopen : FdTable.Opening calls fd) (hle : (FdTable.owned fd').length ≤
      (FdTable.owned fd).length) : ¬ s'.Owned := by
    refine not_owned_of_length ?_
    rw [FdTable.exec_opening hopen hexec, hfd]
    simp only [List.length_append, List.length_singleton]
    omega
  cases hrun with
  | noSocket hs => exact .inr ⟨fun hm => hm.1 hs, hleak (.failed (by decide : (-1 : Int) < 0)) le_rfl⟩
  | blocking hs hb => exact .inr ⟨by omega, hleak (.given r.socket) (Nat.zero_le _)⟩
  | unset hs hb hset hfd' =>
    exact .inr ⟨fun hm => hset hm.2.2.1, hleak (.undone r.socket hfd') le_rfl⟩
  | closed hs hb hset hr =>
    have hne : r.socket ≠ -1 := by omega
    have hcalls := HttpsClient.closeCalls_of_ssl (h := { s.client with fd := r.socket, bio := r.bio })
      hssl hne r.socket s.sslFd
    rw [hcalls, hlinked] at hexec
    refine .inl ⟨⟨hne, by omega, hset, hr⟩, ?_, fun _ => ⟨hssl', hbio'⟩, fun hpos' => by omega⟩
    rw [Owned, FdTable.owns_iff, hfd, FdTable.exec_close_other hexec, FdTable.owned_of_neg (by decide)]
  | failed hs hb hset hr hnew =>
    refine .inr ⟨fun hm => hr hm.2.2.2, not_owned_of_stray ?_⟩
    rw [FdTable.exec_close_twice hexec]
    simp
  | connected hs hb hset hr hok => exact .inr ⟨fun hm => hr hm.2.2.2, hleak (.given r.socket) le_rfl⟩

/-- `Close` of a client that is connected closes the descriptor by way of the BIO and then once
more. -/
theorem close_dichotomy {s s' : HttpsFds} (h : s.Sound) (hclient : s'.client = s.client.close)
    (hexec : exec FdTable.step s.fds (s.client.closeCalls s.bioFd s.sslFd) = some s'.fds) :
    (s.client.fd < 0 ∧ s'.Sound) ∨ (¬ s.client.fd < 0 ∧ ¬ s'.Owned) := by
  by_cases hneg : s.client.fd < 0
  · obtain ⟨hssl, hbio⟩ := h.closed hneg
    have hcalls : s.client.closeCalls s.bioFd s.sslFd =
        if -1 ≠ s.client.fd then [.close s.client.fd] else [] := by
      rw [HttpsClient.closeCalls_of_null hssl hbio]
      simp only [ne_comm (a := (-1 : Int))]
    rw [hcalls] at hexec
    refine .inl ⟨hneg, ?_, fun _ => ?_, fun hpos => ?_⟩
    · rw [Owned, hclient]
      exact FdTable.owns_close h.owned hexec
    · rw [hclient]
      exact ⟨rfl, rfl⟩
    · rw [hclient] at hpos
      exact absurd hpos (by simp [HttpsClient.close])
  · have hpos : 0 ≤ s.client.fd := by omega
    have hne : s.client.fd ≠ -1 := by omega
    obtain ⟨hssl, hlinked⟩ := h.linked hpos
    have hone : s.fds = ⟨[s.client.fd], []⟩ := by
      rw [FdTable.owns_iff.mp h.owned, FdTable.owned_of_nonneg hpos]
    have hclosed : exec FdTable.step ⟨[s.client.fd], []⟩ [.close s.client.fd, .close s.client.fd] =
        some ⟨[s.client.fd].erase s.client.fd, [] ++ [s.client.fd]⟩ :=
      FdTable.exec_close_close (by simp) (by simp) hpos
    rw [HttpsClient.closeCalls_of_ssl hssl hne, hlinked, hone, hclosed, Option.some.injEq] at hexec
    refine .inr ⟨hneg, not_owned_of_stray ?_⟩
    rw [← hexec]
    simp

theorem step_dichotomy {L : HttpLib} {s s' : HttpsFds} {a : HttpsOp} (h : s.Sound)
    (hs : s.step L a = some s') : (s.Meets a ∧ s'.Sound) ∨ (¬ s.Meets a ∧ ¬ s'.Owned) := by
  have hlive : s.gone = false := by
    by_contra hgone
    simp [step, hgone] at hs
  simp only [step, hlive, Bool.false_eq_true, if_false] at hs
  cases a with
  | init ip port r =>
    obtain ⟨hexec, hclient, hssl⟩ := after_eq_some hs
    have hrun := HttpsClient.init_run s.client s.sslFd ip port (socket_of_exec hexec)
    rw [← hclient] at hrun
    have hlink (hpos : 0 ≤ s'.client.fd) : s'.sslFd = s'.client.fd := by
      rw [hclient] at hpos ⊢
      rw [hssl]
      exact if_pos (init_ret_of_connected hpos)
    by_cases hneg : s.client.fd < 0
    · exact sound_of_run_closed h hneg hrun hexec hlink
    · exact sound_of_run_open h (by omega) hrun hexec
  | sendAndReceive sendbuf sendlen recvbuf ws ds =>
    obtain ⟨e, he, hs⟩ := Option.bind_eq_some_iff.mp hs
    obtain ⟨hexec, hclient, hssl⟩ := after_eq_some hs
    have hsame := HttpsClient.sendAndReceive_handles he
    rw [← hclient] at hsame
    simp only [HttpsClient.handles, Prod.mk.injEq] at hsame
    obtain ⟨hfd, hs', hb'⟩ := hsame
    refine .inl ⟨trivial, ?_, ?_, ?_⟩
    · rw [Owned, hfd, ← Option.some.inj hexec]
      exact h.owned
    · rw [hfd, hs', hb']
      exact h.closed
    · rw [hfd, hs', hssl]
      exact h.linked
  | close =>
    obtain ⟨hexec, hclient, -⟩ := after_eq_some hs
    exact close_dichotomy h hclient hexec
  | destroy =>
    obtain ⟨hexec, hclient, -⟩ := after_eq_some hs
    exact close_dichotomy h hclient hexec

theorem owned_iff_forall_meets (L : HttpLib) (ops : List HttpsOp) :
    (∀ s, Visits (step L) {} ops s → s.Owned) ↔
      ∀ s a s', Takes (step L) {} ops s a s' → s.Meets a := by
  have hstart : Sound {} := ⟨⟨rfl, rfl⟩, fun _ => ⟨rfl, rfl⟩, fun hpos => absurd hpos (by decide)⟩
  have hiff : (∀ s, Visits (step L) {} ops s → s.Sound) ↔
      ∀ s a s', Takes (step L) {} ops s a s' → s.Meets a := by
    refine forall_visits_iff_forall_takes hstart fun s a s' h hs => ?_
    rcases step_dichotomy h hs with ⟨hmeets, hsound⟩ | ⟨hnot, hlost⟩
    · exact iff_of_true hsound hmeets
    · exact iff_of_false (fun hsound => hlost hsound.owned) hnot
  rw [← hiff]
  refine ⟨fun hall s hs => ?_, fun hall s hs => (hall s hs).owned⟩
  refine hs.invariant_under hstart (fun t a u ht hu ho => ?_) hall
  rcases step_dichotomy ht hu with ⟨-, hsound⟩ | ⟨-, hlost⟩
  · exact hsound
  · exact absurd ho hlost

end HttpsFds

/-- What the calls of `UdpSendAndRecv` return; `recvbuf` is the buffer after `recvfrom`. -/
structure UdpReply where
  socket : Int
  setNonBlock : Int
  sendto : Int
  recvfrom : Int
  recvbuf : Bytes

/-- The result, `*recvbuf` and the calls on descriptors. -/
def Frame.udpSendAndRecv (recvbuf : Bytes) (r : UdpReply) : Int × Bytes × List FdCall :=
  let calls := if r.socket = -1 then [] else [.socket r.socket]
  if r.setNonBlock < 0 then (-1, recvbuf, calls)
  else if r.sendto < 0 then (-1, recvbuf, calls)
  else if r.recvfrom < 0 then (-2, recvbuf, calls)
  else if r.recvfrom > 0 then (0, r.recvbuf.take r.recvfrom.toNat, calls)
  else (0, recvbuf, calls)

theorem Frame.udpSendAndRecv_calls (recvbuf : Bytes) (r : UdpReply) :
    (Frame.udpSendAndRecv recvbuf r).2.2 = if r.socket = -1 then [] else [.socket r.socket] := by
  simp only [Frame.udpSendAndRecv]
  split_ifs <;> rfl

/-- No path closes the socket. -/
theorem Frame.udpSendAndRecv_closes_iff (recvbuf : Bytes) (r : UdpReply) :
    (∀ t, exec FdTable.step {} (Frame.udpSendAndRecv recvbuf r).2.2 = some t → t.Owns (-1)) ↔
      r.socket < 0 := by
  rw [Frame.udpSendAndRecv_calls]
  by_cases hs : r.socket = -1
  · refine iff_of_true (fun t ht => ?_) (by omega)
    rw [if_pos hs] at ht
    obtain rfl := Option.some.inj ht
    exact ⟨rfl, rfl⟩
  · rw [if_neg hs]
    by_cases hneg : r.socket < 0
    · refine iff_of_true (fun t ht => ?_) hneg
      obtain ⟨u, hu, -⟩ := Option.bind_eq_some_iff.mp ht
      have hpos := (FdTable.step_socket_eq_some_iff.mp hu).1.1
      omega
    · have hpos : 0 ≤ r.socket := by omega
      refine iff_of_false (fun hall => ?_) hneg
      have hopen : exec FdTable.step {} [.socket r.socket] = some ⟨[r.socket], []⟩ := by
        simp [exec_cons, FdTable.step, hpos]
      have hlost := (hall _ hopen).opened
      simp [FdTable.owned] at hlost

/-- When the clients own exactly the descriptor in their `fd_`, over every sequence of
operations, and when `UdpSendAndRecv` has closed its socket. -/
theorem client_fds_owned_iff (L : HttpLib) :
    (∀ (ip port : Nat) (ops : List ClientOp),
      (∀ s, Visits ClientFds.step { conn := { ip := ip, port := port } } ops s → s.Owned) ↔
        ∀ s a s', Takes ClientFds.step { conn := { ip := ip, port := port } } ops s a s' → s.Meets a) ∧
    (∀ ops : List HttpsOp, (∀ s, Visits (HttpsFds.step L) {} ops s → s.Owned) ↔
      ∀ s a s', Takes (HttpsFds.step L) {} ops s a s' → s.Meets a) ∧
    ∀ (recvbuf : Bytes) (r : UdpReply),
      (∀ t, exec FdTable.step {} (Frame.udpSendAndRecv recvbuf r).2.2 = some t → t.Owns (-1)) ↔
        r.socket < 0 :=
  ⟨ClientFds.owned_iff_forall_meets, HttpsFds.owned_iff_forall_meets L, Frame.udpSendAndRecv_closes_iff⟩

/-- Two calls of `Init` leave the first descriptor open, a connection over TLS closes its
descriptor twice, and `UdpSendAndRecv` keeps its socket. -/
theorem client_fds_lost :
    (exec ClientFds.step { conn := {} } [.init false 16777343 80 ⟨5, ⟨true, true⟩, 0, ""⟩,
      .init false 16777343 80 ⟨6, ⟨true, true⟩, 0, ""⟩]).map (·.fds) = some ⟨[5, 6], []⟩ ∧
    (∀ L, (exec (HttpsFds.step L) {} [.init 16777343 443 ⟨5, 0, 0, 0, 0, 0, true, true, 0, true, 1, 0⟩,
      .close]).map (·.fds) = some ⟨[], [5]⟩) ∧
    exec FdTable.step {} (Frame.udpSendAndRecv [] ⟨5, 0, 3, 3, bytes "abc"⟩).2.2 = some ⟨[5], []⟩ ∧
    ¬ ∀ ops s, Visits ClientFds.step { conn := {} } ops s → s.Owned := by
  have htwice : (exec ClientFds.step { conn := {} } [.init false 16777343 80 ⟨5, ⟨true, true⟩, 0, ""⟩,
      .init false 16777343 80 ⟨6, ⟨true, true⟩, 0, ""⟩]).map (·.fds) = some ⟨[5, 6], []⟩ := by decide
  refine ⟨htwice, fun L => rfl, by decide, fun hall => ?_⟩
  obtain ⟨s, hs, hfds⟩ := Option.map_eq_some_iff.mp htwice
  have hlost := congrArg List.length (hall _ s (.of_exec hs)).opened
  rw [hfds] at hlost
  have hle : (FdTable.owned s.conn.fd).length ≤ 1 := by
    rw [FdTable.owned]
    split_ifs <;> simp
  simp only [List.length_cons, List.length_nil] at hlost
  omega

end Tinyco
