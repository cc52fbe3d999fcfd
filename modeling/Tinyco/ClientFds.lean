import Tinyco.FdTable
import Tinyco.HttpClient

/-! The descriptors of a `TcpConn` or an `HttpClient` over its whole life. Beside each function
that opens or closes one stand the calls of `socket` and `close` it makes. -/

namespace Tinyco

namespace TcpConn

variable {c c' : TcpConn} {r : InitReply} {ip port buf size output : Nat}

def closeCalls (c : TcpConn) : List FdCall := if kInvalidFd ≠ c.fd then [.close c.fd] else []

def initCalls (c : TcpConn) (ip port : Nat) (r : InitReply) : List FdCall :=
  if 0 = ip ∨ 0 = port then []
  else
    let c := { c with ip := ip, port := port, fd := r.socket }
    if -1 = c.fd then []
    else
      let b := c.setBlocking r.fcntl
      .socket c.fd ::
        if b.1 < 0 then b.2.closeCalls
        else if r.connect < 0 then b.2.closeCalls
        else []

def ensureConnectedCalls (c : TcpConn) (r : InitReply) : List FdCall :=
  if kInvalidFd = c.fd then (c.log "|try to reconnect server").initCalls c.ip c.port r else []

def sendRequestCalls (c : TcpConn) (buf size output : Nat) (r : InitReply) : List FdCall :=
  if 0 = output ∨ 0 = buf ∨ 0 = size then [] else c.ensureConnectedCalls r

/-- The connection a fallible part of a function leaves behind. -/
def outcome : Except TcpConn TcpConn → TcpConn
  | .ok c => c
  | .error c => c

theorem setBlocking_fd (c : TcpConn) (r : FcntlReply) : (c.setBlocking r).2.fd = c.fd := by
  simp only [setBlocking, log]
  split_ifs <;> rfl

theorem init_of_zero (h : 0 = ip ∨ 0 = port) (c : TcpConn) (r : InitReply) :
    c.init ip port r = (-1, c) ∧ c.initCalls ip port r = [] :=
  ⟨if_pos h, if_pos h⟩

/-- Whatever the system answers, `Init` is one attempt to open a descriptor. -/
theorem init_opening (h : ¬ (0 = ip ∨ 0 = port)) (c : TcpConn) (r : InitReply) :
    FdTable.Opening (c.initCalls ip port r) (c.init ip port r).2.fd := by
  simp only [initCalls, init, if_neg h, closeCalls, setBlocking_fd, kInvalidFd]
  have hneg : (-1 : Int) < 0 := by decide
  by_cases hs : -1 = r.socket
  · have hsock : r.socket < 0 := by omega
    rw [if_pos hs, if_pos hs]
    exact .failed hsock
  · simp only [if_neg hs, ne_eq]
    split_ifs
    · exact .undone r.socket hneg
    · exact .undone r.socket hneg
    · rw [setBlocking_fd]
      exact .given r.socket

theorem ensureConnected_opening (hfd : c.fd = kInvalidFd) (r : InitReply) :
    FdTable.Opening (c.ensureConnectedCalls r) (outcome (c.ensureConnected r)).fd := by
  have hout : (outcome (c.ensureConnected r)).fd =
      ((c.log "|try to reconnect server").init c.ip c.port r).2.fd := by
    simp only [ensureConnected, if_pos hfd.symm]
    by_cases ht : ((c.log "|try to reconnect server").tryReConnect r).1 < 0
    · rw [if_pos ht]
      rfl
    · rw [if_neg ht]
      rfl
  rw [hout, ensureConnectedCalls, if_pos hfd.symm]
  by_cases h : 0 = c.ip ∨ 0 = c.port
  · obtain ⟨hinit, hcalls⟩ := init_of_zero h (c.log "|try to reconnect server") r
    rw [hinit, hcalls]
    refine .failed ?_
    simp only [log, hfd]
    decide
  · exact init_opening h _ r

theorem ensureConnected_quiet (hfd : kInvalidFd ≠ c.fd) (r : InitReply) :
    c.ensureConnectedCalls r = [] ∧ outcome (c.ensureConnected r) = c := by
  rw [ensureConnected_of_fd hfd, ensureConnectedCalls, if_neg hfd]
  exact ⟨rfl, rfl⟩

theorem transmit_fd {left : Int} {rs : List SendReply} {e : Except TcpConn TcpConn}
    {fs : List Fragment} (h : c.transmit buf size left rs = some (e, fs)) :
    (outcome e).fd = c.fd := by
  induction rs generalizing left e fs with
  | nil =>
    simp only [transmit] at h
    split_ifs at h
    simp only [Option.some.injEq, Prod.mk.injEq] at h
    simp [← h.1, outcome]
  | cons r rs ih =>
    simp only [transmit] at h
    split_ifs at h
    case neg =>
      obtain ⟨⟨e', fs'⟩, ht, heq⟩ := Option.map_eq_some_iff.mp h
      obtain ⟨rfl, -⟩ := Prod.mk.inj heq
      exact ih ht
    all_goals
      simp only [Option.some.injEq, Prod.mk.injEq] at h
      simp [← h.1, outcome, log]

theorem receive_fd {func : Bytes → Int} {b : Bytes} {ds : List RecvReply} {ret : Int}
    {out : Option Bytes} (h : c.receive func b ds = some (.returned ret c' out)) : c'.fd = c.fd := by
  have hassign {d : TcpConn} {b : Bytes} {eof : Int} (hd : d.fd = c.fd)
      (h : d.assign b eof = .returned ret c' out) : c'.fd = c.fd := by
    simp only [assign] at h
    split_ifs at h <;> simp only [RecvEnd.returned.injEq] at h <;> simp [← h.2.1, log, hd]
  induction ds generalizing b with
  | nil => simp [receive] at h
  | cons d ds ih =>
    cases d with
    | error e =>
      simp only [receive, Option.some.injEq, RecvEnd.returned.injEq] at h
      simp [← h.2.1, log]
    | closed e =>
      simp only [receive, Option.some.injEq, RecvEnd.returned.injEq] at h
      simp [← h.2.1, log]
    | data d =>
      simp only [receive] at h
      split_ifs at h
      · exact hassign rfl (Option.some.inj h)
      · refine hassign ?_ (Option.some.inj h)
        rfl
      · exact ih h

theorem send_fd {rs : List SendReply} {ret : Int} {fs : List Fragment}
    (h : c.send buf size r rs = some (ret, c', fs)) : c'.fd = (outcome (c.ensureConnected r)).fd := by
  simp only [send] at h
  cases he : c.ensureConnected r with
  | error d =>
    simp only [he, Option.some.injEq, Prod.mk.injEq] at h
    simp [outcome, h.2.1]
  | ok d =>
    simp only [he] at h
    split_ifs at h
    · simp only [Option.some.injEq, Prod.mk.injEq] at h
      simp [outcome, h.2.1]
    · obtain ⟨⟨e, gs⟩, ht, heq⟩ := Option.map_eq_some_iff.mp h
      have hsent := transmit_fd ht
      cases e <;> simp only [Prod.mk.injEq] at heq <;> rw [← heq.2.1] <;> exact hsent

theorem sendRequest_fd {rs : List SendReply} {e : Except TcpConn TcpConn} {fs : List Fragment}
    (h : c.sendRequest buf size output r rs = some (e, fs))
    (hargs : ¬ (0 = output ∨ 0 = buf ∨ 0 = size)) :
    (outcome e).fd = (outcome (c.ensureConnected r)).fd := by
  simp only [sendRequest, if_neg hargs] at h
  cases he : c.ensureConnected r with
  | error d =>
    simp only [he, Option.some.injEq, Prod.mk.injEq] at h
    rw [← h.1]
  | ok d =>
    simp only [he] at h
    exact transmit_fd h

theorem sendAndReceive_fd {func : Bytes → Int} {rs : List SendReply} {ds : List RecvReply} {ret : Int}
    {out : Option Bytes}
    (h : c.sendAndReceive func buf size output r rs ds = some (.returned ret c' out)) :
    (c'.fd = c.fd ∧ c.sendRequestCalls buf size output r = []) ∨
      (c'.fd = (outcome (c.ensureConnected r)).fd ∧
        c.sendRequestCalls buf size output r = c.ensureConnectedCalls r) := by
  obtain ⟨⟨e, fs⟩, he, h⟩ := Option.bind_eq_some_iff.mp h
  have hend : c'.fd = (outcome e).fd := by
    cases e with
    | error d =>
      simp only [Option.some.injEq, RecvEnd.returned.injEq] at h
      rw [← h.2.1]
      rfl
    | ok d => exact receive_fd h
  by_cases hargs : 0 = output ∨ 0 = buf ∨ 0 = size
  · simp only [sendRequest, if_pos hargs, Option.some.injEq, Prod.mk.injEq] at he
    refine .inl ⟨?_, if_pos hargs⟩
    rw [hend, ← he.1]
    rfl
  · exact .inr ⟨hend.trans (sendRequest_fd he hargs), if_neg hargs⟩

end TcpConn

theorem HttpClient.init_snd (c : TcpConn) (ip port : Nat) (r : InitReply) :
    (HttpClient.init c ip port r).2 = (c.init ip port r).2 := by
  by_cases h : 0 = ip ∨ 0 = port
  · rw [HttpClient.init, if_pos h, (TcpConn.init_of_zero h c r).1]
  · simp only [HttpClient.init, if_neg h]
    split_ifs <;> rfl

/-- A `TcpConn`, or an `HttpClient` where `http` says so. The overloads of
`HttpClient::SendAndReceive` return at once or call that of `TcpConn` with their own `func`. -/
inductive ClientOp where
  | init (http : Bool) (ip port : Nat) (r : InitReply)
  | send (buf size : Nat) (r : InitReply) (rs : List SendReply)
  | sendAndReceive (func : Bytes → Int) (buf size output : Nat) (r : InitReply) (rs : List SendReply)
    (ds : List RecvReply)
  | close
  | destroy (http : Bool)

structure ClientFds where
  conn : TcpConn
  fds : FdTable := {}
  gone : Bool := false

namespace ClientFds

def after (s : ClientFds) (conn : TcpConn) (calls : List FdCall) : Option ClientFds :=
  (exec FdTable.step s.fds calls).map fun fds => { s with conn := conn, fds := fds }

/-- A call that has not returned, or that reads behind its buffer, is not followed by another.
`~HttpClient` calls `Close`, and `~TcpConn` after it again. -/
def step (s : ClientFds) (a : ClientOp) : Option ClientFds :=
  if s.gone then none
  else match a with
  | .init http ip port r =>
    s.after (if http then HttpClient.init s.conn ip port r else s.conn.init ip port r).2
      (s.conn.initCalls ip port r)
  | .send buf size r rs =>
    (s.conn.send buf size r rs).bind fun t => s.after t.2.1 (s.conn.ensureConnectedCalls r)
  | .sendAndReceive func buf size output r rs ds =>
    (s.conn.sendAndReceive func buf size output r rs ds).bind fun e =>
      match e with
      | .returned _ c _ => s.after c (s.conn.sendRequestCalls buf size output r)
      | .overread => none
  | .close => s.after s.conn.close s.conn.closeCalls
  | .destroy http =>
    ({ s with gone := true }).after s.conn.close
      (s.conn.closeCalls ++ if http then s.conn.close.closeCalls else [])

def Owned (s : ClientFds) : Prop := s.fds.Owns s.conn.fd

/-- `Init` with an address is called on a connection that is closed. -/
def Meets (s : ClientFds) : ClientOp → Prop
  | .init _ ip port _ => ¬ (0 = ip ∨ 0 = port) → s.conn.fd < 0
  | _ => True

theorem after_eq_some {s s' : ClientFds} {conn : TcpConn} {calls : List FdCall}
    (h : s.after conn calls = some s') :
    exec FdTable.step s.fds calls = some s'.fds ∧ s'.conn = conn := by
  obtain ⟨t, ht, rfl⟩ := Option.map_eq_some_iff.mp h
  exact ⟨ht, rfl⟩

/-- An operation leaves the descriptors alone, tries to open one, or closes what there is. -/
theorem step_cases {s s' : ClientFds} {a : ClientOp} (hs : s.step a = some s') :
    ∃ calls, exec FdTable.step s.fds calls = some s'.fds ∧
      ((calls = [] ∧ s'.conn.fd = s.conn.fd ∧ s.Meets a) ∨
        (FdTable.Opening calls s'.conn.fd ∧ (s.Meets a ↔ s.conn.fd < 0)) ∨
        (calls = (if -1 ≠ s.conn.fd then [.close s.conn.fd] else []) ∧ s'.conn.fd = -1 ∧ s.Meets a)) := by
  have hlive : s.gone = false := by
    by_contra hgone
    simp [step, hgone] at hs
  have hconnect {r : InitReply} {conn : TcpConn} (hmeets : s.Meets a)
      (hfd : conn.fd = (TcpConn.outcome (s.conn.ensureConnected r)).fd) :
      (s.conn.ensureConnectedCalls r = [] ∧ conn.fd = s.conn.fd ∧ s.Meets a) ∨
        (FdTable.Opening (s.conn.ensureConnectedCalls r) conn.fd ∧ (s.Meets a ↔ s.conn.fd < 0)) := by
    by_cases hclosed : s.conn.fd = kInvalidFd
    · have hneg : s.conn.fd < 0 := by
        rw [hclosed]
        decide
      rw [hfd]
      exact .inr ⟨TcpConn.ensureConnected_opening hclosed r, iff_of_true hmeets hneg⟩
    · obtain ⟨hcalls, hout⟩ := TcpConn.ensureConnected_quiet (Ne.symm hclosed) r
      rw [hout] at hfd
      exact .inl ⟨hcalls, hfd, hmeets⟩
  simp only [step, hlive, Bool.false_eq_true, if_false] at hs
  cases a with
  | init http ip port r =>
    obtain ⟨hexec, hconn⟩ := after_eq_some hs
    have hsame : s'.conn = (s.conn.init ip port r).2 := by
      cases http
      · exact hconn
      · exact hconn.trans (HttpClient.init_snd s.conn ip port r)
    refine ⟨_, hexec, ?_⟩
    by_cases h : 0 = ip ∨ 0 = port
    · obtain ⟨hinit, hcalls⟩ := TcpConn.init_of_zero h s.conn r
      refine .inl ⟨hcalls, by rw [hsame, hinit], fun hne => absurd h hne⟩
    · rw [hsame]
      refine .inr (.inl ⟨TcpConn.init_opening h s.conn r, ?_⟩)
      simp [Meets, h]
  | send buf size r rs =>
    obtain ⟨⟨ret, conn, fs⟩, hsend, hs⟩ := Option.bind_eq_some_iff.mp hs
    obtain ⟨hexec, hconn⟩ := after_eq_some hs
    refine ⟨_, hexec, ?_⟩
    rw [hconn]
    rcases hconnect trivial (TcpConn.send_fd hsend) with h | h
    · exact .inl h
    · exact .inr (.inl h)
  | sendAndReceive func buf size output r rs ds =>
    obtain ⟨e, hrecv, hs⟩ := Option.bind_eq_some_iff.mp hs
    cases e with
    | overread => cases hs
    | returned ret conn out =>
      obtain ⟨hexec, hconn⟩ := after_eq_some hs
      refine ⟨_, hexec, ?_⟩
      rw [hconn]
      rcases TcpConn.sendAndReceive_fd hrecv with ⟨hfd, hcalls⟩ | ⟨hfd, hcalls⟩
      · exact .inl ⟨hcalls, hfd, trivial⟩
      · rw [hcalls]
        rcases hconnect trivial hfd with h | h
        · exact .inl h
        · exact .inr (.inl h)
  | close =>
    obtain ⟨hexec, hconn⟩ := after_eq_some hs
    refine ⟨_, hexec, .inr (.inr ⟨rfl, ?_, trivial⟩)⟩
    rw [hconn]
    rfl
  | destroy http =>
    obtain ⟨hexec, hconn⟩ := after_eq_some hs
    refine ⟨_, hexec, .inr (.inr ⟨?_, ?_, trivial⟩)⟩
    · have hagain : (if http then s.conn.close.closeCalls else []) = [] := by cases http <;> rfl
      rw [hagain, List.append_nil]
      rfl
    · rw [hconn]
      rfl

theorem owned_step_iff {s s' : ClientFds} {a : ClientOp} (h : s.Owned) (hs : s.step a = some s') :
    s'.Owned ↔ s.Meets a := by
  obtain ⟨calls, hexec, ⟨rfl, hfd, hmeets⟩ | ⟨hopen, hmeets⟩ | ⟨rfl, hfd, hmeets⟩⟩ := step_cases hs
  · refine iff_of_true ?_ hmeets
    rw [Owned, hfd, ← Option.some.inj hexec]
    exact h
  · rw [hmeets]
    exact FdTable.owns_opening_iff h hopen hexec
  · refine iff_of_true ?_ hmeets
    rw [Owned, hfd]
    exact FdTable.owns_close h hexec

/-- A connection owns its descriptor throughout its life exactly if it is never initialised
again while it has one. The address of a new `TcpConn` is not set. -/
theorem owned_iff_forall_meets (ip port : Nat) (ops : List ClientOp) :
    (∀ s, Visits step { conn := { ip := ip, port := port } } ops s → s.Owned) ↔
      ∀ s a s', Takes step { conn := { ip := ip, port := port } } ops s a s' → s.Meets a :=
  forall_visits_iff_forall_takes (P := Owned) ⟨rfl, rfl⟩ fun _ _ _ h hs => owned_step_iff h hs

end ClientFds

end Tinyco
