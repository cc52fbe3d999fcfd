import Mathlib.Data.List.Perm.Basic
import Tinyco.ConnTracking

/-! The pointers of the accept loops that may be null, and what becomes of the descriptors a
loop has accepted. -/

namespace Tinyco

/-- A loop with the descriptors it has accepted so far, passed to a work by `SetFd`, and
closed. -/
structure SrvLedger where
  loop : SrvLoop := {}
  accepted : List Int := []
  handed : List Int := []
  closed : List Int := []
  deriving DecidableEq, Repr

namespace SrvLedger

/-- The descriptor a loop is holding. What the UDP loop has received is a datagram. -/
def inHand (c : SrvWork) (p : SrvPoint) : List Int :=
  match c.proto with
  | .tcp => p.inHand.toList
  | .udp => []

def record (c : SrvWork) (s : SrvLedger) (old new : SrvPoint) : SrvLedger :=
  match c.proto, old, new with
  | .tcp, .accept, .unlock fd => { s with accepted := s.accepted ++ [fd] }
  | .tcp, .close fd, _ => { s with closed := s.closed ++ [fd] }
  | .tcp, .build _, .createThread fd => { s with handed := s.handed ++ [fd] }
  | _, _, _ => s

def next (c : SrvWork) (s : SrvLedger) (r : SrvReply) : Option SrvLedger :=
  (s.loop.next c r).map fun v => { s.record c s.loop.point v.point with loop := v }

/-- No null pointer has been used, and every accepted descriptor is with a work, closed, or
still in the hand of the loop. -/
structure Safe (c : SrvWork) (s : SrvLedger) : Prop where
  noFault : s.loop.point ≠ .fault
  accounted : s.accepted.Perm (s.handed ++ s.closed ++ inHand c s.loop.point)

/-- What a step needs: a builder that returns a work, a tracker once the TCP loop has created
one, and a descriptor that can be made non-blocking. -/
def Meets (c : SrvWork) (s : SrvLedger) (r : SrvReply) : Prop :=
  match s.loop.point, r with
  | .build _, .build work => work = true
  | .createThread _, _ => c.proto = .tcp → c.ct = true
  | .setNonBlock _, .setNonBlock ret => c.proto = .tcp → 0 ≤ ret
  | _, _ => True

theorem inHand_udp {c : SrvWork} (hc : c.proto = .udp) (p : SrvPoint) : inHand c p = [] := by
  simp [inHand, hc]

theorem record_udp {c : SrvWork} (hc : c.proto = .udp) (s : SrvLedger) (old new : SrvPoint) :
    s.record c old new = s := by
  simp [record, hc]

/-- The UDP loop accepts nothing, so only its use of the work counts. -/
theorem safe_next_udp_iff {c : SrvWork} {s : SrvLedger} {v : SrvLoop} {r : SrvReply}
    (hc : c.proto = .udp) (h : s.Safe c) (hv : s.loop.next c r = some v) :
    ({ s.record c s.loop.point v.point with loop := v } : SrvLedger).Safe c ↔ s.Meets c r := by
  have hacc := h.accounted
  rw [inHand_udp hc] at hacc
  rw [record_udp hc]
  have hiff : ({ s with loop := v } : SrvLedger).Safe c ↔ v.point ≠ .fault := by
    refine ⟨Safe.noFault, fun hp => ⟨hp, ?_⟩⟩
    rw [inHand_udp hc]
    exact hacc
  rw [hiff]
  cases hp : s.loop.point <;> cases r <;>
    simp only [SrvLoop.next, hp, Option.some.injEq, reduceCtorEq] at hv
  case accept.accept rs =>
    obtain ⟨fd, -, rfl⟩ := Option.map_eq_some_iff.mp hv
    by_cases hfd : fd < 0 <;> simp [Meets, hp, SrvLoop.afterAccept, hfd]
  case recvfrom.recvfrom rs =>
    obtain ⟨n, -, rfl⟩ := Option.map_eq_some_iff.mp hv
    by_cases hn : 0 < n <;> by_cases hn' : n < 0 <;> simp [Meets, hp, SrvLoop.afterRecvfrom, hn, hn']
  all_goals subst hv
  case tryLock.tryLock ret => by_cases hr : ret < 0 <;> simp [Meets, hp, SrvLoop.afterTryLock, hc, hr]
  case unlock.unlock got ret =>
    cases hb : c.workBuilder <;> simp [Meets, hp, SrvLoop.afterUnlock, hc, hb]
  case setNonBlock.setNonBlock fd ret =>
    by_cases hr : ret < 0 <;> cases hb : c.workBuilder <;>
      simp [Meets, hp, SrvLoop.afterSetNonBlock, hc, hr, hb]
  case build.build got work => cases work <;> simp [Meets, hp, SrvLoop.afterBuild]
  case gracefulShutdown.gracefulShutdown b => cases b <;> simp [Meets, hp]
  all_goals simp [Meets, hp, SrvLoop.atLoopStart, SrvLoop.afterCreateThread, hc]

/-- A step that neither takes a descriptor nor passes one on. -/
theorem Safe.quiet {c : SrvWork} {s : SrvLedger} {v : SrvLoop} (h : s.Safe c)
    (hrec : s.record c s.loop.point v.point = s) (hfault : v.point ≠ .fault)
    (hhand : inHand c v.point = inHand c s.loop.point) :
    ({ s.record c s.loop.point v.point with loop := v } : SrvLedger).Safe c := by
  rw [hrec]
  refine ⟨hfault, ?_⟩
  rw [hhand]
  exact h.accounted

theorem safe_accept {c : SrvWork} {s : SrvLedger} {v : SrvLoop} {fd : Int} (hc : c.proto = .tcp)
    (h : s.Safe c) (hold : s.loop.point = .accept) (hnew : v.point = .unlock fd) :
    ({ s.record c s.loop.point v.point with loop := v } : SrvLedger).Safe c := by
  have hacc := h.accounted.append_right [fd]
  simp only [inHand, hc, hold, SrvPoint.inHand, Option.toList_none, List.append_nil] at hacc
  refine ⟨by simp [hnew], ?_⟩
  simpa only [record, hc, hold, hnew, inHand, SrvPoint.inHand, Option.toList_some] using hacc

theorem safe_close {c : SrvWork} {s : SrvLedger} {v : SrvLoop} {fd : Int} (hc : c.proto = .tcp)
    (h : s.Safe c) (hold : s.loop.point = .close fd) (hnew : v.point = .loopStart) :
    ({ s.record c s.loop.point v.point with loop := v } : SrvLedger).Safe c := by
  have hacc := h.accounted
  simp only [inHand, hc, hold, SrvPoint.inHand, Option.toList_some, List.append_assoc] at hacc
  refine ⟨by simp [hnew], ?_⟩
  simpa only [record, hc, hold, hnew, inHand, SrvPoint.inHand, Option.toList_none, List.append_nil]
    using hacc

theorem safe_build {c : SrvWork} {s : SrvLedger} {v : SrvLoop} {fd : Int} (hc : c.proto = .tcp)
    (h : s.Safe c) (hold : s.loop.point = .build fd) (hnew : v.point = .createThread fd) :
    ({ s.record c s.loop.point v.point with loop := v } : SrvLedger).Safe c := by
  have hacc := h.accounted
  simp only [inHand, hc, hold, SrvPoint.inHand, Option.toList_some] at hacc
  have hswap : (s.handed ++ s.closed ++ [fd]).Perm (s.handed ++ [fd] ++ s.closed) := by
    rw [List.append_assoc, List.append_assoc]
    exact List.perm_append_comm.append_left s.handed
  refine ⟨by simp [hnew], ?_⟩
  simpa only [record, hc, hold, hnew, inHand, SrvPoint.inHand, Option.toList_none, List.append_nil]
    using hacc.trans hswap

/-- `break` with a descriptor in the hand loses it. -/
theorem not_safe_of_dropped {c : SrvWork} {s : SrvLedger} {v : SrvLoop} {fd ret : Int}
    (hc : c.proto = .tcp) (h : s.Safe c) (hold : s.loop.point = .setNonBlock fd)
    (hnew : v.point = .returned ret) :
    ¬ ({ s.record c s.loop.point v.point with loop := v } : SrvLedger).Safe c := by
  intro h'
  have hacc := h.accounted.length_eq
  have hacc' := h'.accounted.length_eq
  simp only [record, hc, hold, hnew, inHand, SrvPoint.inHand, Option.toList_none, Option.toList_some,
    List.length_append, List.length_nil, List.length_singleton] at hacc hacc'
  omega

theorem safe_next_tcp_iff {c : SrvWork} {s : SrvLedger} {v : SrvLoop} {r : SrvReply}
    (hc : c.proto = .tcp) (h : s.Safe c) (hudp : s.loop.point ≠ .recvfrom)
    (hv : s.loop.next c r = some v) :
    ({ s.record c s.loop.point v.point with loop := v } : SrvLedger).Safe c ↔ s.Meets c r := by
  have hfault {w : SrvLoop} (hw : w.point = .fault) :
      ¬ ({ s.record c s.loop.point w.point with loop := w } : SrvLedger).Safe c :=
    fun hsafe => hsafe.noFault hw
  cases hp : s.loop.point <;> cases r <;>
    simp only [SrvLoop.next, hp, Option.some.injEq, reduceCtorEq] at hv <;> rw [← hp]
  case recvfrom.recvfrom rs => exact absurd hp hudp
  case accept.accept rs =>
    obtain ⟨fd, -, rfl⟩ := Option.map_eq_some_iff.mp hv
    refine iff_of_true ?_ (by simp [Meets, hp])
    by_cases hfd : fd < 0
    · apply h.quiet <;> simp [SrvLoop.afterAccept, hfd, hp, record, hc, inHand, SrvPoint.inHand]
    · have hnew : (s.loop.afterAccept fd).point = .unlock fd := by simp [SrvLoop.afterAccept, hfd]
      exact safe_accept hc h hp hnew
  case setNonBlock.setNonBlock fd ret =>
    subst hv
    by_cases hr : ret < 0
    · have hnew : (s.loop.afterSetNonBlock c fd ret).point = .returned 0 := by
        simp [SrvLoop.afterSetNonBlock, hr]
      exact iff_of_false (not_safe_of_dropped hc h hp hnew) (by simp [Meets, hp, hc, hr])
    · refine iff_of_true ?_ (by simpa [Meets, hp, hc] using hr)
      cases hb : c.workBuilder
      all_goals apply h.quiet <;>
        simp [SrvLoop.afterSetNonBlock, hr, hb, hp, record, hc, inHand, SrvPoint.inHand]
  case build.build fd work =>
    subst hv
    cases work with
    | false => exact iff_of_false (hfault rfl) (by simp [Meets, hp])
    | true => exact iff_of_true (safe_build hc h hp rfl) (by simp [Meets, hp])
  case createThread.resume fd =>
    subst hv
    cases hct : c.ct with
    | false =>
      exact iff_of_false (hfault (by simp [SrvLoop.afterCreateThread, hc, hct]))
        (by simp [Meets, hp, hc, hct])
    | true =>
      refine iff_of_true ?_ (by simp [Meets, hp, hct])
      apply h.quiet <;>
        simp [SrvLoop.afterCreateThread, hct, hp, record, hc, inHand, SrvPoint.inHand]
  all_goals
    subst hv
    refine iff_of_true ?_ (by simp [Meets, hp])
  case loopStart.resume =>
    by_cases h15 : s.loop.accepted > 15
    all_goals apply h.quiet <;>
      simp [SrvLoop.atLoopStart, h15, hp, record, hc, inHand, SrvPoint.inHand]
  case tryLock.tryLock ret =>
    by_cases hr : ret < 0
    all_goals apply h.quiet <;>
      simp [SrvLoop.afterTryLock, hr, hp, record, hc, inHand, SrvPoint.inHand]
  case unlock.unlock got ret =>
    apply h.quiet <;> simp [SrvLoop.afterUnlock, hp, record, hc, inHand, SrvPoint.inHand]
  case close.resume fd => exact safe_close hc h hp rfl
  case gracefulShutdown.gracefulShutdown b =>
    cases b
    all_goals apply h.quiet <;> simp [hp, record, hc, inHand, SrvPoint.inHand]
  all_goals apply h.quiet <;> simp [hp, record, hc, inHand, SrvPoint.inHand]

theorem safe_next_iff {c : SrvWork} {s s' : SrvLedger} {r : SrvReply} (h : s.Safe c)
    (hudp : c.proto = .tcp → s.loop.point ≠ .recvfrom) (hs : s.next c r = some s') :
    s'.Safe c ↔ s.Meets c r := by
  obtain ⟨v, hv, rfl⟩ := Option.map_eq_some_iff.mp hs
  cases hc : c.proto with
  | tcp => exact safe_next_tcp_iff hc h (hudp hc) hv
  | udp => exact safe_next_udp_iff hc h hv

end SrvLedger

/-- The loops use no null pointer and lose no accepted descriptor exactly when every builder
returns a work, the TCP loop that creates one has a tracker, and every accepted descriptor can
be made non-blocking. -/
theorem accepted_fds_safe_iff (c : SrvWork) (rs : List SrvReply) :
    (∀ s, Visits (SrvLedger.next c) {} rs s → s.Safe c) ↔
      ∀ s r s', Takes (SrvLedger.next c) {} rs s r s' → s.Meets c r := by
  have hstart : SrvLedger.Safe c {} := by
    refine ⟨by simp, ?_⟩
    cases hc : c.proto <;> simp [SrvLedger.inHand, hc, SrvPoint.inHand]
  refine forall_visits_iff_forall_takes_under
    (I := fun s => c.proto = .tcp → s.loop.point ≠ .recvfrom) hstart (fun _ => by simp) ?_ ?_
  · intro s r s' _ hs hc
    obtain ⟨v, hv, rfl⟩ := Option.map_eq_some_iff.mp hs
    exact SrvLoop.next_ne_recvfrom hc hv
  · intro s r s' h hudp hs
    exact SrvLedger.safe_next_iff h hudp hs

/-- `TcpSrv` passes no tracker: the first connection ends in a use of `ct_`. A builder that
knows no work for the port, and a descriptor that stays blocking. -/
theorem accepted_fds_unsafe :
    (exec (SrvLedger.next ⟨.tcp, true, false⟩) {} [.resume, .tryLock 0, .accept [.ok 7], .unlock 0,
      .setNonBlock 0, .build true, .resume]).map (·.loop.point) = some .fault ∧
    (exec (SrvLedger.next ⟨.udp, true, false⟩) {} [.resume, .tryLock 0, .recvfrom [(.ok 3, [])],
      .unlock 0, .build false]).map (·.loop.point) = some .fault ∧
    exec (SrvLedger.next ⟨.tcp, true, true⟩) {} [.resume, .tryLock 0, .accept [.ok 7], .unlock 0,
      .setNonBlock (-1)] = some ⟨⟨.returned 0, 1, false⟩, [7], [], []⟩ ∧
    ¬ ∀ c rs s, Visits (SrvLedger.next c) {} rs s → s.Safe c := by
  have hrun : exec (SrvLedger.next ⟨.tcp, true, false⟩) {} [.resume, .tryLock 0, .accept [.ok 7],
      .unlock 0, .setNonBlock 0, .build true, .resume] = some ⟨⟨.fault, 1, false⟩, [7], [7], []⟩ := by
    decide
  refine ⟨by decide, by decide, by decide, fun h => ?_⟩
  exact (h _ _ _ (.of_exec hrun)).noFault rfl

end Tinyco
