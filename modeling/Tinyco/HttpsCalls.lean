import Tinyco.FdTable
import Tinyco.HttpsClient

/-! The calls of `socket` and `close` that the functions of an `HttpsClient` make. Its BIO closes
the descriptor when it is freed. -/

namespace Tinyco

/-- All the options of the socket could be set. -/
def SslInitReply.Configured (r : SslInitReply) : Prop :=
  r.keepalive = 0 ∧ r.keepidle = 0 ∧ r.keepintvl = 0 ∧ r.keepcnt = 0

namespace HttpsClient

variable {h : HttpsClient} {r : SslInitReply} {sslFd : Int}

/-- `Close`. `bioFd` and `sslFd` are the descriptors of the BIO that `bio_` points to and of the
one that belongs to `ssl_`. -/
def closeCalls (h : HttpsClient) (bioFd sslFd : Int) : List FdCall :=
  (if h.ssl then [.close sslFd] else []) ++ (if !h.ssl && h.bio then [.close bioFd] else []) ++
    if h.fd ≠ -1 then [.close h.fd] else []

def createSocketCalls (r : SslInitReply) : List FdCall :=
  if r.socket = -1 then []
  else
    .socket r.socket ::
      if r.setNonBlock < 0 then []
      else if r.keepalive ≠ 0 then [.close r.socket]
      else if r.keepidle ≠ 0 then [.close r.socket]
      else if r.keepintvl ≠ 0 then [.close r.socket]
      else if r.keepcnt ≠ 0 then [.close r.socket]
      else []

def initCalls (h : HttpsClient) (sslFd : Int) (r : SslInitReply) : List FdCall :=
  let t := h.clearLog.createSocket r
  let h : HttpsClient := { t.2 with fd := t.1 }
  createSocketCalls r ++
    if h.fd < 0 then []
    else
      let h := { h with bio := r.bio }
      if !h.bio then h.closeCalls h.fd sslFd
      else if !r.ctx then h.closeCalls h.fd sslFd
      else if r.connect < 0 then h.closeCalls h.fd sslFd
      else
        let h := { h with ssl := r.ssl }
        if !h.ssl then h.closeCalls h.fd sslFd
        -- the BIO belongs to the new SSL object from here on
        else if r.sslConnect ≤ 0 then h.closeCalls h.fd h.fd
        else []

/-- The ways through `Init`: the calls it makes, and `fd_` and the two pointers afterwards. -/
inductive InitRun (h : HttpsClient) (sslFd : Int) (r : SslInitReply) :
    List FdCall → Int → Bool → Bool → Prop where
  | noSocket (hs : r.socket = -1) : InitRun h sslFd r [] (-1) h.ssl h.bio
  | blocking (hs : 0 ≤ r.socket) (hb : r.setNonBlock < 0) :
    InitRun h sslFd r [.socket r.socket] (-2) h.ssl h.bio
  | unset (hs : 0 ≤ r.socket) (hb : ¬ r.setNonBlock < 0) (hset : ¬ r.Configured) {fd : Int} (hfd : fd < 0) :
    InitRun h sslFd r [.socket r.socket, .close r.socket] fd h.ssl h.bio
  | closed (hs : 0 ≤ r.socket) (hb : ¬ r.setNonBlock < 0) (hset : r.Configured)
    (hr : r.bio = false ∨ r.ctx = false ∨ r.connect < 0) :
    InitRun h sslFd r (.socket r.socket ::
      closeCalls { h with fd := r.socket, bio := r.bio } r.socket sslFd) (-1) false false
  | failed (hs : 0 ≤ r.socket) (hb : ¬ r.setNonBlock < 0) (hset : r.Configured)
    (hr : ¬ (r.bio = false ∨ r.ctx = false ∨ r.connect < 0)) (hssl : r.ssl = false ∨ r.sslConnect ≤ 0) :
    InitRun h sslFd r [.socket r.socket, .close r.socket, .close r.socket] (-1) false false
  | connected (hs : 0 ≤ r.socket) (hb : ¬ r.setNonBlock < 0) (hset : r.Configured)
    (hr : ¬ (r.bio = false ∨ r.ctx = false ∨ r.connect < 0))
    (hssl : ¬ (r.ssl = false ∨ r.sslConnect ≤ 0)) :
    InitRun h sslFd r [.socket r.socket] r.socket true true

theorem closeCalls_of_null (hssl : h.ssl = false) (hbio : h.bio = false) (bioFd sslFd : Int) :
    h.closeCalls bioFd sslFd = if h.fd ≠ -1 then [.close h.fd] else [] := by
  simp [closeCalls, hssl, hbio]

/-- Without an SSL object the BIO is freed by itself. -/
theorem closeCalls_of_bio (hssl : h.ssl = false) (hbio : h.bio = true) (hfd : h.fd ≠ -1)
    (bioFd sslFd : Int) : h.closeCalls bioFd sslFd = [.close bioFd, .close h.fd] := by
  simp [closeCalls, hssl, hbio, hfd]

theorem closeCalls_of_ssl (hssl : h.ssl = true) (hfd : h.fd ≠ -1) (bioFd sslFd : Int) :
    h.closeCalls bioFd sslFd = [.close sslFd, .close h.fd] := by
  simp [closeCalls, hssl, hfd]

theorem createSocket_unset (hs : r.socket ≠ -1) (hb : ¬ r.setNonBlock < 0) (hset : ¬ r.Configured) :
    createSocketCalls r = [.socket r.socket, .close r.socket] ∧ (h.createSocket r).1 < 0 ∧
      (h.createSocket r).2.ssl = h.ssl ∧ (h.createSocket r).2.bio = h.bio := by
  simp only [createSocketCalls, createSocket, if_neg hs, if_neg hb, err]
  split_ifs with h1 h2 h3 h4
  case neg => exact absurd ⟨by omega, by omega, by omega, by omega⟩ hset
  all_goals exact ⟨rfl, by simp, rfl, rfl⟩

theorem createSocket_configured (hs : r.socket ≠ -1) (hb : ¬ r.setNonBlock < 0) (hset : r.Configured) :
    createSocketCalls r = [.socket r.socket] ∧
      h.createSocket r = (r.socket, { h with fd := r.socket }) := by
  obtain ⟨h1, h2, h3, h4⟩ := hset
  simp [createSocketCalls, createSocket, hs, hb, h1, h2, h3, h4]

theorem init_run (h : HttpsClient) (sslFd : Int) (ip port : Nat) (hsock : r.socket = -1 ∨ 0 ≤ r.socket) :
    InitRun h sslFd r (h.initCalls sslFd r) (h.init ip port r).2.fd (h.init ip port r).2.ssl
      (h.init ip port r).2.bio := by
  rcases hsock with hs | hs
  · have hrun : InitRun h sslFd r [] (-1) h.ssl h.bio := .noSocket hs
    simpa [initCalls, init, createSocketCalls, createSocket, hs, err, clearLog] using hrun
  have hne : r.socket ≠ -1 := by omega
  have hpos : ¬ r.socket < 0 := by omega
  by_cases hb : r.setNonBlock < 0
  · have hrun : InitRun h sslFd r [.socket r.socket] (-2) h.ssl h.bio := .blocking hs hb
    simpa [initCalls, init, createSocketCalls, createSocket, hne, hb, err, clearLog] using hrun
  by_cases hset : r.Configured
  · obtain ⟨hcalls, hsocket⟩ := createSocket_configured (h := h.clearLog) hne hb hset
    simp only [initCalls, init, hcalls, hsocket, if_neg hpos]
    by_cases hr : r.bio = false ∨ r.ctx = false ∨ r.connect < 0
    · have hrun : InitRun h sslFd r _ (-1) false false := .closed hs hb hset hr
      cases hbio : r.bio with
      | false =>
        rw [hbio] at hrun
        exact hrun
      | true =>
        rw [hbio] at hrun
        cases hctx : r.ctx with
        | false => exact hrun
        | true =>
          have hconn : r.connect < 0 := by simpa [hbio, hctx] using hr
          simp only [Bool.not_true, Bool.false_eq_true, if_false, if_pos hconn]
          exact hrun
    · have hbio : r.bio = true := by simpa using fun h => hr (.inl h)
      have hctx : r.ctx = true := by simpa using fun h => hr (.inr (.inl h))
      have hconn : ¬ r.connect < 0 := fun h => hr (.inr (.inr h))
      by_cases hssl : r.ssl = false ∨ r.sslConnect ≤ 0
      · have hrun : InitRun h sslFd r _ (-1) false false := .failed hs hb hset hr hssl
        cases hs' : r.ssl with
        | false => simpa [hbio, hctx, hconn, hs', hne, close, closeCalls] using hrun
        | true =>
          have hfail : r.sslConnect ≤ 0 := by simpa [hs'] using hssl
          simpa [hbio, hctx, hconn, hs', hfail, hne, close, closeCalls] using hrun
      · have hrun : InitRun h sslFd r _ r.socket true true := .connected hs hb hset hr hssl
        have hs' : r.ssl = true := by simpa using fun h => hssl (.inl h)
        have hok : ¬ r.sslConnect ≤ 0 := fun h => hssl (.inr h)
        simpa [hbio, hctx, hconn, hs', hok] using hrun
  · obtain ⟨hcalls, hneg, hssl, hbio⟩ := createSocket_unset (h := h.clearLog) hne hb hset
    have hrun : InitRun h sslFd r _ _ h.ssl h.bio := .unset hs hb hset hneg
    simp only [initCalls, init, hcalls, if_pos hneg, err, hssl, hbio]
    exact hrun

/-- The part of a client that sending and receiving leaves as it is. -/
def handles (h : HttpsClient) : Int × Bool × Bool := (h.fd, h.ssl, h.bio)

theorem write_handles {n : Nat} {ret : Int} {ws : List SslReply} {h' : HttpsClient}
    (hw : h.write n ret ws = some (.error h')) : h'.handles = h.handles := by
  induction ws generalizing n ret with
  | nil => cases n <;> simp [write] at hw
  | cons w ws ih =>
    cases n with
    | zero => simp [write] at hw
    | succ n =>
      simp only [write] at hw
      split_ifs at hw
      · simp only [Option.some.injEq, Except.error.injEq] at hw
        rw [← hw]
        rfl
      · simp only [Option.some.injEq, Except.error.injEq] at hw
        rw [← hw]
        rfl
      · exact ih hw

theorem read_handles {L : HttpLib} {ret : Int} {b : Bytes} {ds : List SslReadReply} {e : SslEnd}
    (hr : h.read L ret b ds = some e) : e.client.handles = h.handles := by
  induction ds generalizing b with
  | nil => simp [read] at hr
  | cons d ds ih =>
    cases d with
    | failed r =>
      simp only [read, Option.some.injEq] at hr
      rw [← hr]
      rfl
    | data d =>
      simp only [read] at hr
      split_ifs at hr
      · rw [← Option.some.inj hr]
      · exact ih hr
      · rw [← Option.some.inj hr]

theorem sendAndReceive_handles {L : HttpLib} {sendbuf sendlen recvbuf : Nat} {ws : List SslReply}
    {ds : List SslReadReply} {e : SslEnd}
    (hs : h.sendAndReceive L sendbuf sendlen recvbuf ws ds = some e) :
    e.client.handles = h.handles := by
  simp only [sendAndReceive] at hs
  split_ifs at hs
  · rw [← Option.some.inj hs]
    rfl
  · rw [← Option.some.inj hs]
    rfl
  · obtain ⟨t, ht, hs⟩ := Option.bind_eq_some_iff.mp hs
    cases t with
    | error h' =>
      rw [← Option.some.inj hs]
      exact write_handles (h := h.clearLog) ht
    | ok ret =>
      have hread : h.clearLog.read L ret [] ds = some e := hs
      exact read_handles (h := h.clearLog) hread

end HttpsClient

end Tinyco
