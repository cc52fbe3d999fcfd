import Tinyco.Runs
import Tinyco.Scheduler

/-! The accept loops `TcpSrvWork::RunTcpSrv` and `UdpSrvWork::RunUdpSrv` of `server.h`.
A loop stops at every call it makes and goes on with what the call returned. -/

namespace Tinyco

inductive Errno where
  | eintr | eagain | ewouldblock
  | other (code : Nat)
  deriving DecidableEq, Repr

/-- What a system call returned, `err` standing for a negative value. -/
inductive SysResult where
  | ok (n : Nat)
  | err (errno : Errno)
  deriving DecidableEq, Repr

/-- `Frame::accept`, from what `::accept` returns each time it is called. -/
def Frame.accept : List SysResult → Option Int
  | [] => none
  | .ok fd :: _ => some fd
  | .err e :: rs =>
    if e = .eintr then Frame.accept rs
    else if e = .eagain ∨ e = .ewouldblock then Frame.accept rs
    else some (-1)

/-- `Frame::recvfrom`, from what `::recvfrom` returns each time it is called, with
the `ev_res` the coroutine finds if it was parked. The `ret` of the loop body
shadows the one that is returned after it. -/
def Frame.recvfrom : List (SysResult × List EvFlag) → Option Int
  | [] => none
  | (.ok n, _) :: _ => some n
  | (.err e, evRes) :: rs =>
    if e = .eintr then Frame.recvfrom rs
    else if e = .eagain ∨ e = .ewouldblock then
      if .timeout ∈ evRes then some (-2)
      else if .closed ∈ evRes then some 0
      else if .read ∈ evRes then Frame.recvfrom rs
      else some 0
    else some 0

inductive Proto where
  | tcp | udp
  deriving DecidableEq, Repr

/-- The members of a `TcpSrvWork` or a `UdpSrvWork`; a pointer is only tested for null. -/
structure SrvWork where
  proto : Proto
  workBuilder : Bool
  ct : Bool
  deriving DecidableEq, Repr

/-- The call a loop is in. `got` is the descriptor or the datagram it has received. -/
inductive SrvPoint where
  | loopStart
  | herdSleep
  | tryLock
  | lockSleep (mstime : Nat)
  | accept
  | recvfrom
  | unlock (got : Int)
  | setNonBlock (fd : Int)
  | close (fd : Int)
  | build (got : Int)
  | createThread (got : Int)
  | gracefulShutdown
  | returned (ret : Int)
  | fault
  deriving DecidableEq, Repr

/-- `owned` records that a `TryLock` has succeeded and no `Unlock` has followed it. -/
structure SrvLoop where
  point : SrvPoint := .loopStart
  accepted : Nat := 0
  owned : Bool := false
  deriving DecidableEq, Repr

/-- What the call of a loop returned; `resume` for a call without a result. -/
inductive SrvReply where
  | resume
  | tryLock (ret : Int)
  | accept (rs : List SysResult)
  | recvfrom (rs : List (SysResult × List EvFlag))
  | unlock (ret : Int)
  | setNonBlock (ret : Int)
  | build (work : Bool)
  | gracefulShutdown (b : Bool)
  deriving DecidableEq, Repr

namespace SrvLoop

/-- The head of the loop. Only the TCP loop counts what it has accepted. -/
def atLoopStart (c : SrvWork) (s : SrvLoop) : SrvLoop :=
  match c.proto with
  | .udp => { s with point := .tryLock }
  | .tcp =>
    { s with
      point := if s.accepted > 15 then .herdSleep else .tryLock
      accepted := s.accepted + 1 }

def afterTryLock (c : SrvWork) (s : SrvLoop) (ret : Int) : SrvLoop :=
  match c.proto with
  | .tcp => if ret < 0 then { s with point := .lockSleep 50 } else
    { s with point := .accept, owned := true }
  | .udp => if ret < 0 then { s with point := .lockSleep 500 } else
    { s with point := .recvfrom, owned := true }

def afterAccept (s : SrvLoop) (fd : Int) : SrvLoop :=
  { s with point := if fd < 0 then .returned 0 else .unlock fd }

/-- `return -__LINE__` on a negative result, the next iteration on an empty datagram. -/
def afterRecvfrom (s : SrvLoop) (ret : Int) : SrvLoop :=
  { s with point := if ret > 0 then .unlock ret else if ret < 0 then .returned (-220)
      else .loopStart }

/-- The result of `Unlock` is not looked at. -/
def afterUnlock (c : SrvWork) (s : SrvLoop) (got : Int) : SrvLoop :=
  { s with
    owned := false
    point :=
      match c.proto with
      | .tcp => .setNonBlock got
      | .udp => if c.workBuilder then .build got else .loopStart }

def afterSetNonBlock (c : SrvWork) (s : SrvLoop) (fd ret : Int) : SrvLoop :=
  { s with point :=
      if ret < 0 then .returned 0 else if c.workBuilder then .build fd else .close fd }

/-- A builder may return a null work, which is used without a test. -/
def afterBuild (s : SrvLoop) (got : Int) (work : Bool) : SrvLoop :=
  { s with point := if work then .createThread got else .fault }

/-- `ct_->GracefulShutdown()` is called without a test of `ct_`. -/
def afterCreateThread (c : SrvWork) (s : SrvLoop) : SrvLoop :=
  { s with point :=
      match c.proto with
      | .tcp => if c.ct then .gracefulShutdown else .fault
      | .udp => .loopStart }

def next (c : SrvWork) (s : SrvLoop) (r : SrvReply) : Option SrvLoop :=
  match s.point, r with
  | .loopStart, .resume => some (s.atLoopStart c)
  | .herdSleep, .resume => some { s with point := .loopStart, accepted := 0 }
  | .tryLock, .tryLock ret => some (s.afterTryLock c ret)
  | .lockSleep _, .resume => some { s with point := .loopStart }
  | .accept, .accept rs => (Frame.accept rs).map s.afterAccept
  | .recvfrom, .recvfrom rs => (Frame.recvfrom rs).map s.afterRecvfrom
  | .unlock got, .unlock _ => some (s.afterUnlock c got)
  | .setNonBlock fd, .setNonBlock ret => some (s.afterSetNonBlock c fd ret)
  | .close _, .resume => some { s with point := .loopStart }
  | .build got, .build work => some (s.afterBuild got work)
  | .createThread _, .resume => some (s.afterCreateThread c)
  | .gracefulShutdown, .gracefulShutdown b =>
    some { s with point := if b then .returned 0 else .loopStart }
  | _, _ => none

end SrvLoop

/-- The calls that are made between `TryLock` and `Unlock`. -/
def SrvPoint.locked : SrvPoint → Bool
  | .accept | .recvfrom | .unlock _ => true
  | _ => false

/-- The points at which a loop must not own the mutex. -/
def SrvPoint.released : SrvPoint → Bool
  | .loopStart | .herdSleep | .lockSleep _ | .createThread _ | .returned _ => true
  | _ => false

def SrvLoop.Released (s : SrvLoop) : Prop := s.point.released → s.owned = false

def SrvLoop.Balanced (s : SrvLoop) : Prop := s.owned = s.point.locked

/-- A connection is accepted and a datagram that is not empty is received. -/
def SrvReply.Delivers : SrvReply → Prop
  | .accept rs => ∀ fd, Frame.accept rs = some fd → 0 ≤ fd
  | .recvfrom rs => ∀ n, Frame.recvfrom rs = some n → 0 < n
  | _ => True

namespace SrvLoop

theorem Balanced.released {s : SrvLoop} (h : s.Balanced) : s.Released := by
  intro hp
  rw [h]
  revert hp
  cases s.point <;> simp [SrvPoint.released, SrvPoint.locked]

theorem locked_atLoopStart (c : SrvWork) (s : SrvLoop) :
    (s.atLoopStart c).point.locked = false ∧ (s.atLoopStart c).owned = s.owned := by
  simp only [atLoopStart]
  split
  · exact ⟨rfl, rfl⟩
  · by_cases h : s.accepted > 15 <;> simp [h, SrvPoint.locked]

theorem balanced_afterTryLock {s : SrvLoop} (h : s.owned = false) (c : SrvWork) (ret : Int) :
    (s.afterTryLock c ret).Balanced := by
  cases hc : c.proto <;> by_cases hr : ret < 0 <;>
    simp [Balanced, afterTryLock, SrvPoint.locked, hc, hr, h]

theorem locked_afterUnlock (c : SrvWork) (s : SrvLoop) (got : Int) :
    (s.afterUnlock c got).point.locked = false := by
  cases hc : c.proto <;> cases hb : c.workBuilder <;>
    simp [afterUnlock, SrvPoint.locked, hc, hb]

theorem locked_afterSetNonBlock (c : SrvWork) (s : SrvLoop) (fd ret : Int) :
    (s.afterSetNonBlock c fd ret).point.locked = false := by
  by_cases hr : ret < 0 <;> cases hb : c.workBuilder <;>
    simp [afterSetNonBlock, SrvPoint.locked, hr, hb]

theorem locked_afterBuild (s : SrvLoop) (got : Int) (work : Bool) :
    (s.afterBuild got work).point.locked = false := by
  cases work <;> rfl

theorem locked_afterCreateThread (c : SrvWork) (s : SrvLoop) :
    (s.afterCreateThread c).point.locked = false := by
  cases hc : c.proto <;> cases hb : c.ct <;> simp [afterCreateThread, SrvPoint.locked, hc, hb]

theorem balanced_afterAccept_iff {s : SrvLoop} (h : s.owned = true) (fd : Int) :
    (s.afterAccept fd).Balanced ↔ 0 ≤ fd := by
  by_cases hfd : fd < 0
  · simp [Balanced, afterAccept, SrvPoint.locked, h, hfd]
  · simp [Balanced, afterAccept, SrvPoint.locked, h, hfd, Int.not_lt.mp hfd]

theorem balanced_afterRecvfrom_iff {s : SrvLoop} (h : s.owned = true) (n : Int) :
    (s.afterRecvfrom n).Balanced ↔ 0 < n := by
  by_cases hn : 0 < n
  · simp [Balanced, afterRecvfrom, SrvPoint.locked, h, hn]
  · by_cases hn' : n < 0 <;> simp [Balanced, afterRecvfrom, SrvPoint.locked, h, hn, hn']

theorem balanced_next_iff {c : SrvWork} {s s' : SrvLoop} {r : SrvReply} (h : s.Balanced)
    (hs : s.next c r = some s') : s'.Balanced ↔ r.Delivers := by
  cases hp : s.point <;> cases r <;>
    simp only [next, hp, Option.some.injEq, reduceCtorEq] at hs <;>
    have ho : s.owned = _ := h.trans (congrArg SrvPoint.locked hp)
  case accept.accept rs =>
    obtain ⟨fd, hfd, rfl⟩ := Option.map_eq_some_iff.mp hs
    simpa [SrvReply.Delivers, hfd] using balanced_afterAccept_iff ho fd
  case recvfrom.recvfrom rs =>
    obtain ⟨n, hn, rfl⟩ := Option.map_eq_some_iff.mp hs
    simpa [SrvReply.Delivers, hn] using balanced_afterRecvfrom_iff ho n
  all_goals
    refine iff_of_true ?_ trivial
    rw [← hs]
  case loopStart.resume =>
    exact (locked_atLoopStart c s).2.trans (ho.trans (locked_atLoopStart c s).1.symm)
  case tryLock.tryLock ret => exact balanced_afterTryLock ho c ret
  case unlock.unlock got ret => exact (locked_afterUnlock c s got).symm
  case setNonBlock.setNonBlock fd ret =>
    exact ho.trans (locked_afterSetNonBlock c s fd ret).symm
  case build.build got work => exact ho.trans (locked_afterBuild s got work).symm
  case createThread.resume => exact ho.trans (locked_afterCreateThread c s).symm
  case gracefulShutdown.gracefulShutdown b => cases b <;> exact ho
  all_goals exact ho

theorem Balanced.next {c : SrvWork} {s s' : SrvLoop} {r : SrvReply} (h : s.Balanced)
    (hs : s.next c r = some s') (hr : s'.Released) : s'.Balanced := by
  by_cases hd : r.Delivers
  · exact (balanced_next_iff h hs).mpr hd
  · cases hp : s.point <;> cases r <;> simp only [SrvReply.Delivers, not_true_eq_false] at hd <;>
      simp only [SrvLoop.next, hp, reduceCtorEq] at hs <;>
      have ho : s.owned = _ := h.trans (congrArg SrvPoint.locked hp)
    case accept.accept rs =>
      obtain ⟨fd, hfd, rfl⟩ := Option.map_eq_some_iff.mp hs
      have hneg : fd < 0 := by simpa [hfd] using hd
      simp [Released, afterAccept, hneg, SrvPoint.released, ho, SrvPoint.locked] at hr
    case recvfrom.recvfrom rs =>
      obtain ⟨n, hn, rfl⟩ := Option.map_eq_some_iff.mp hs
      have hle : ¬ 0 < n := by simpa [hn] using hd
      by_cases hneg : n < 0 <;>
        simp [Released, afterRecvfrom, hle, hneg, SrvPoint.released, ho, SrvPoint.locked] at hr

end SrvLoop

/-- The loops are free of the mutex wherever they have to be exactly when every
`accept` yields a connection and every `recvfrom` a datagram that is not empty. -/
theorem released_iff_delivers (c : SrvWork) (rs : List SrvReply) :
    (∀ s, Visits (SrvLoop.next c) {} rs s → s.Released) ↔
      ∀ s r s', Takes (SrvLoop.next c) {} rs s r s' → r.Delivers := by
  have hstart : SrvLoop.Balanced {} := rfl
  have hiff : (∀ s, Visits (SrvLoop.next c) {} rs s → s.Balanced) ↔
      ∀ s r s', Takes (SrvLoop.next c) {} rs s r s' → r.Delivers :=
    forall_visits_iff_forall_takes hstart fun t r u ht hu => SrvLoop.balanced_next_iff ht hu
  rw [← hiff]
  refine ⟨fun h s hs => ?_, fun h s hs => (h s hs).released⟩
  exact hs.invariant_under hstart (fun t r u ht hu hr => ht.next hu hr) h

/-- `accept` fails with `EMFILE` and the TCP loop returns with the mutex locked; a
datagram of length zero starts the next iteration of the UDP loop with it locked. -/
theorem accept_error_keeps_lock :
    exec (SrvLoop.next ⟨.tcp, true, true⟩) {}
      [.resume, .tryLock 0, .accept [.err .eagain, .err (.other 24)]] =
        some ⟨.returned 0, 1, true⟩ ∧
    exec (SrvLoop.next ⟨.udp, true, true⟩) {}
      [.resume, .tryLock 0, .recvfrom [(.ok 0, [])]] = some ⟨.loopStart, 0, true⟩ ∧
    ¬ ∀ c rs s, Visits (SrvLoop.next c) {} rs s → s.Released := by
  have htcp : exec (SrvLoop.next ⟨.tcp, true, true⟩) {}
      [.resume, .tryLock 0, .accept [.err .eagain, .err (.other 24)]] =
        some ⟨.returned 0, 1, true⟩ := by decide
  exact ⟨htcp, by decide, fun h => absurd (h _ _ _ (.of_exec htcp) rfl) (by decide)⟩

end Tinyco
