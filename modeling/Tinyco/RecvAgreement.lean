import Tinyco.SocketRecv

/-! `Frame::recv` and `Frame::recvfrom` fed with the same results of the kernel. The two loops
differ in the variable that is returned after the loop: in `recvfrom` the `ret` of the loop body
is another one. -/

namespace Tinyco

inductive RecvCallPoint where
  | call
  | parked
  | returned (ret : Int)
  deriving DecidableEq, Repr

/-- `ret` is the variable of the function body, `parkedAfter` the numbers of kernel calls after
which the coroutine was parked. -/
structure RecvCall where
  point : RecvCallPoint := .call
  errno : Option Errno := none
  ret : Int := 0
  calls : Nat := 0
  parkedAfter : List Nat := []
  deriving DecidableEq, Repr

inductive RecvFeed where
  | kernel (r : SysResult)
  | wake (evRes : List EvFlag)
  deriving DecidableEq, Repr

def Errno.Retried (e : Option Errno) : Prop :=
  e = some .eintr ∨ e = some .eagain ∨ e = some .ewouldblock

instance (e : Option Errno) : Decidable (Errno.Retried e) :=
  inferInstanceAs (Decidable (e = some .eintr ∨ e = some .eagain ∨ e = some .ewouldblock))

namespace RecvCall

/-- The loop body after the kernel call, `ret` being the value it has in the body. -/
def afterCall (shadowed : Bool) (s : RecvCall) (ret : Int) : RecvCall :=
  let s := if shadowed then s else { s with ret := ret }
  if ret > 0 then { s with point := .returned ret }
  else if ret = 0 then { s with point := .returned 0 }
  else if s.errno = some .eintr then { s with point := .call }
  else if s.errno = some .eagain ∨ s.errno = some .ewouldblock then
    { s with point := .parked, parkedAfter := s.parkedAfter ++ [s.calls] }
  else { s with point := .returned s.ret }

def afterWake (s : RecvCall) (evRes : List EvFlag) : RecvCall :=
  if .timeout ∈ evRes then { s with point := .returned (-2) }
  else if .closed ∈ evRes then { s with point := .returned 0 }
  else if .read ∈ evRes then { s with point := .call }
  else { s with point := .returned s.ret }

def kernel (s : RecvCall) : SysResult → RecvCall × Int
  -- `errno` stays as it was
  | .ok n => ({ s with calls := s.calls + 1 }, toInt32 n)
  | .err e => ({ s with calls := s.calls + 1, errno := some e }, -1)

def step (shadowed : Bool) (s : RecvCall) : RecvFeed → Option RecvCall
  | .kernel r =>
    match s.point with
    | .call => some ((s.kernel r).1.afterCall shadowed (s.kernel r).2)
    | _ => none
  | .wake evRes =>
    match s.point with
    | .parked => some (s.afterWake evRes)
    | _ => none

def recv : RecvCall → RecvFeed → Option RecvCall := step false

def recvfrom : RecvCall → RecvFeed → Option RecvCall := step true

def observed (s : RecvCall) : RecvCallPoint × Nat × List Nat := (s.point, s.calls, s.parkedAfter)

/-- The loop does not end by its `break`. -/
def Continues (s : RecvCall) : RecvFeed → Prop
  | .kernel (.ok n) => toInt32 n < 0 → Errno.Retried s.errno
  | .kernel (.err e) => Errno.Retried (some e)
  | .wake evRes => .timeout ∈ evRes ∨ .closed ∈ evRes ∨ .read ∈ evRes

/-- The coroutine is parked after an error only. -/
def Failed (s : RecvCall) : Prop := s.point = .parked → s.ret < 0

/-- The state of `recvfrom` when `recv` is in `s`: its `ret` has never been assigned to. -/
def unassigned (s : RecvCall) : RecvCall := { s with ret := 0 }

@[simp] theorem unassigned_point (s : RecvCall) : s.unassigned.point = s.point := rfl

variable {s s' : RecvCall} {a : RecvFeed} {as : List RecvFeed} {r : SysResult}
  {evRes : List EvFlag} {ret : Int} {shadowed : Bool}

theorem step_kernel (hp : s.point = .call) (r : SysResult) :
    s.step shadowed (.kernel r) = some ((s.kernel r).1.afterCall shadowed (s.kernel r).2) := by
  simp only [step, hp]

theorem step_wake (hp : s.point = .parked) (evRes : List EvFlag) :
    s.step shadowed (.wake evRes) = some (s.afterWake evRes) := by
  simp only [step, hp]

theorem step_cases (h : s.step shadowed a = some s') :
    (∃ r, a = .kernel r ∧ s.point = .call ∧ s' = (s.kernel r).1.afterCall shadowed (s.kernel r).2) ∨
      ∃ evRes, a = .wake evRes ∧ s.point = .parked ∧ s' = s.afterWake evRes := by
  cases a with
  | kernel r =>
    cases hp : s.point <;> simp only [step, hp, Option.some.injEq, reduceCtorEq] at h
    exact .inl ⟨r, rfl, rfl, h.symm⟩
  | wake evRes =>
    cases hp : s.point <;> simp only [step, hp, Option.some.injEq, reduceCtorEq] at h
    exact .inr ⟨evRes, rfl, rfl, h.symm⟩

theorem kernel_unassigned (s : RecvCall) (r : SysResult) :
    s.unassigned.kernel r = ((s.kernel r).1.unassigned, (s.kernel r).2) := by
  cases r <;> simp only [kernel, unassigned]

theorem continues_kernel_iff :
    s.Continues (.kernel r) ↔ ((s.kernel r).2 < 0 → Errno.Retried (s.kernel r).1.errno) := by
  cases r <;> simp [Continues, kernel]

/-- Without the `break` the variable of the function body plays no part. -/
theorem afterCall_unassigned (h : ret < 0 → Errno.Retried s.errno) :
    s.unassigned.afterCall true ret = (s.afterCall false ret).unassigned := by
  by_cases hpos : ret > 0
  · simp [afterCall, unassigned, hpos]
  by_cases hzero : ret = 0
  · simp [afterCall, unassigned, hzero]
  have hneg : ret < 0 := by omega
  rcases h hneg with he | he | he <;> simp [afterCall, unassigned, hpos, hzero, he]

theorem afterCall_break (hneg : ret < 0) (h : ¬ Errno.Retried s.errno) :
    (s.afterCall false ret).point = .returned ret ∧ (s.afterCall true ret).point = .returned s.ret := by
  have hpos : ¬ ret > 0 := by omega
  have hzero : ret ≠ 0 := by omega
  simp only [Errno.Retried, not_or] at h
  simp [afterCall, hpos, hzero, h.1, h.2.1, h.2.2]

theorem afterWake_unassigned (h : s.Continues (.wake evRes)) :
    s.unassigned.afterWake evRes = (s.afterWake evRes).unassigned := by
  by_cases ht : .timeout ∈ evRes
  · simp [afterWake, unassigned, ht]
  by_cases hc : .closed ∈ evRes
  · simp [afterWake, unassigned, ht, hc]
  have hr : .read ∈ evRes := by simpa [Continues, ht, hc] using h
  simp [afterWake, unassigned, ht, hc, hr]

theorem afterWake_break (h : ¬ s.Continues (.wake evRes)) :
    (s.afterWake evRes).point = .returned s.ret := by
  simp only [Continues, not_or] at h
  simp [afterWake, h.1, h.2.1, h.2.2]

theorem afterCall_failed (s : RecvCall) (ret : Int) : (s.afterCall false ret).Failed := by
  intro hp
  have hret : (s.afterCall false ret).ret = ret := by
    simp only [afterCall]
    split_ifs <;> simp_all
  by_contra hneg
  have hcase : ret > 0 ∨ ret = 0 := by omega
  rcases hcase with hpos | rfl
  · simp [afterCall, hpos] at hp
  · simp [afterCall] at hp

theorem Failed.step (h : s.recv a = some s') : s'.Failed := by
  rcases step_cases h with ⟨r, rfl, -, rfl⟩ | ⟨evRes, rfl, -, rfl⟩
  · exact afterCall_failed _ _
  · simp only [afterWake, Failed]
    split_ifs <;> simp

theorem recvfrom_of_none (h : s.recv a = none) : s.unassigned.recvfrom a = none := by
  cases a <;> cases hp : s.point <;> simp [recv, recvfrom, RecvCall.step, hp] at h ⊢

theorem recvfrom_of_continues (h : s.recv a = some s') (hc : s.Continues a) :
    s.unassigned.recvfrom a = some s'.unassigned := by
  rcases step_cases h with ⟨r, rfl, hp, rfl⟩ | ⟨evRes, rfl, hp, rfl⟩
  · rw [recvfrom, step_kernel (s := s.unassigned) hp, kernel_unassigned]
    rw [afterCall_unassigned (continues_kernel_iff.mp hc)]
  · rw [recvfrom, step_wake (s := s.unassigned) hp, afterWake_unassigned hc]

/-- The step that leaves the loop makes `recv` return an error and `recvfrom` 0. -/
theorem returned_of_break (hf : s.Failed) (h : s.recv a = some s') (hc : ¬ s.Continues a) :
    (∃ ret, ret < 0 ∧ s'.point = .returned ret) ∧
      ∃ u, s.unassigned.recvfrom a = some u ∧ u.point = .returned 0 := by
  rcases step_cases h with ⟨r, rfl, hp, rfl⟩ | ⟨evRes, rfl, hp, rfl⟩
  · rw [continues_kernel_iff, Classical.not_imp] at hc
    obtain ⟨hneg, hretry⟩ := hc
    refine ⟨⟨_, hneg, (afterCall_break hneg hretry).1⟩, _, step_kernel (s := s.unassigned) hp r, ?_⟩
    rw [kernel_unassigned]
    exact (afterCall_break (s := (s.kernel r).1.unassigned) hneg hretry).2
  · exact ⟨⟨s.ret, hf hp, afterWake_break hc⟩, _, step_wake (s := s.unassigned) hp evRes,
      afterWake_break (s := s.unassigned) hc⟩

/-- The same calls, the same waits and the same result, after any part of what comes in. -/
def AgreeOn (s : RecvCall) (as : List RecvFeed) : Prop :=
  ∀ pre, pre <+: as →
    (exec recv s pre).map observed = (exec recvfrom s.unassigned pre).map observed

theorem agreeOn_iff (hf : s.Failed) :
    s.AgreeOn as ↔ ∀ x a y, Takes recv s as x a y → x.Continues a := by
  refine exec_agree_iff_forall_takes hf (fun _ _ _ _ h => Failed.step h) (fun _ => rfl)
    (fun _ _ h => recvfrom_of_none h) (fun _ _ _ h hc => recvfrom_of_continues h hc) ?_
  intro x a y hx h hc
  obtain ⟨⟨ret, hneg, hret⟩, u, hu, hzero⟩ := returned_of_break hx h hc
  simp only [hu, Option.map_some, observed, hret, hzero, ne_eq, Option.some.injEq, Prod.mk.injEq,
    RecvCallPoint.returned.injEq]
  omega

theorem recv_of_error {pre : List RecvFeed} {e : Errno} (he : ¬ Errno.Retried (some e))
    (h : exec recv s (pre ++ [.kernel (.err e)]) = some s') : s'.point = .returned (-1) := by
  obtain ⟨u, -, hu⟩ := Option.bind_eq_some_iff.mp (exec_append s pre _ ▸ h)
  have hstep : u.recv (.kernel (.err e)) = some s' := by simpa [exec_cons] using hu
  rcases step_cases hstep with ⟨r, hr, -, rfl⟩ | ⟨evRes, hr, -⟩
  · cases hr
    exact (afterCall_break (s := (u.kernel (.err e)).1) (show (-1 : Int) < 0 by decide) he).1
  · cases hr

end RecvCall

/-- Both functions make the same calls, wait at the same points and return the same, which is
negative after an error that does not ask for another try. -/
structure RecvsAgree (errno : Option Errno) (as : List RecvFeed) : Prop where
  same : ({ errno := errno } : RecvCall).AgreeOn as
  negative : ∀ f ∈ [RecvCall.recv, RecvCall.recvfrom], ∀ pre e s, pre ++ [.kernel (.err e)] <+: as →
    ¬ Errno.Retried (some e) → exec f { errno := errno } (pre ++ [.kernel (.err e)]) = some s →
    ∃ ret, ret < 0 ∧ s.point = .returned ret

/-- `recv` and `recvfrom` agree exactly as long as the loop is not left by its `break`. -/
theorem recvs_agree_iff (errno : Option Errno) (as : List RecvFeed) :
    RecvsAgree errno as ↔
      ∀ s a s', Takes RecvCall.recv { errno := errno } as s a s' → s.Continues a := by
  have hstart : ({ errno := errno } : RecvCall).Failed := fun hp => by simp at hp
  rw [← RecvCall.agreeOn_iff hstart]
  refine ⟨fun h => h.same, fun h => ⟨h, fun f hf pre e s hpre he hs => ⟨-1, by decide, ?_⟩⟩⟩
  rcases List.mem_pair.mp hf with rfl | rfl
  · exact RecvCall.recv_of_error he hs
  · have hsame := h _ hpre
    have hs' : exec RecvCall.recvfrom ({ errno := errno } : RecvCall).unassigned
        (pre ++ [.kernel (.err e)]) = some s := hs
    rw [hs', Option.map_some] at hsame
    obtain ⟨u, hu, hobs⟩ := Option.map_eq_some_iff.mp hsame
    exact (congrArg Prod.fst hobs).symm.trans (RecvCall.recv_of_error he hu)

/-- `ECONNREFUSED` is reported by `recv` and taken for an empty datagram by `recvfrom`. -/
theorem refused_datagram_disagrees :
    (exec RecvCall.recv {} [.kernel (.err (.other 111))]).map RecvCall.point = some (.returned (-1)) ∧
    (exec RecvCall.recvfrom {} [.kernel (.err (.other 111))]).map RecvCall.point =
      some (.returned 0) ∧
    ¬ ∀ errno as, RecvsAgree errno as := by
  have hrecvfrom : exec RecvCall.recvfrom {} [.kernel (.err (.other 111))] =
      some ⟨.returned 0, some (.other 111), 0, 1, []⟩ := by decide
  refine ⟨by decide, by rw [hrecvfrom]; rfl, fun hall => ?_⟩
  obtain ⟨ret, hneg, hret⟩ := (hall none [.kernel (.err (.other 111))]).negative _ (by simp) [] _ _
    List.prefix_rfl (by decide) hrecvfrom
  obtain rfl := RecvCallPoint.returned.inj hret
  omega

section OtherModels

/-- What comes in for one call of `::recvfrom`, with the `ev_res` of the wakeup if it parks the
coroutine. -/
def RecvFeed.ofCall : SysResult × List EvFlag → List RecvFeed
  | (.ok n, _) => [.kernel (.ok n)]
  | (.err e, evRes) =>
    if e = .eagain ∨ e = .ewouldblock then [.kernel (.err e), .wake evRes] else [.kernel (.err e)]

variable {s : RecvCall} {rs : List (SysResult × List EvFlag)} {ret : Int}

theorem RecvCall.recvfrom_ok (hp : s.point = .call) {n : Nat} (hn : n < 2 ^ 31) :
    ∃ u, s.recvfrom (.kernel (.ok n)) = some u ∧ u.point = .returned n := by
  refine ⟨_, RecvCall.step_kernel hp _, ?_⟩
  rcases Nat.eq_zero_or_pos n with rfl | hpos
  · simp [RecvCall.kernel, RecvCall.afterCall, toInt32]
  · simp [RecvCall.kernel, RecvCall.afterCall, toInt32_of_lt hn, hpos]

theorem RecvCall.recvfrom_err (hp : s.point = .call) (e : Errno) :
    ∃ u, s.recvfrom (.kernel (.err e)) = some u ∧ u.ret = s.ret ∧ u.point =
      if e = .eintr then .call else if e = .eagain ∨ e = .ewouldblock then .parked
      else .returned s.ret := by
  refine ⟨_, RecvCall.step_kernel hp _, ?_⟩
  simp only [RecvCall.kernel, RecvCall.afterCall]
  cases e <;> simp

/-- The list form that the accept loops use returns what this loop returns. -/
theorem Frame.recvfrom_returned (hp : s.point = .call) (hs : s.ret = 0)
    (hlt : ∀ n ev, (SysResult.ok n, ev) ∈ rs → n < 2 ^ 31) (h : Frame.recvfrom rs = some ret) :
    ∃ u, Visits RecvCall.recvfrom s (rs.flatMap RecvFeed.ofCall) u ∧ u.point = .returned ret := by
  induction rs generalizing s with
  | nil => simp [Frame.recvfrom] at h
  | cons e rs ih =>
    obtain ⟨r, ev⟩ := e
    have hlt' : ∀ n ev, (SysResult.ok n, ev) ∈ rs → n < 2 ^ 31 := fun n ev hn =>
      hlt n ev (List.mem_cons_of_mem _ hn)
    cases r with
    | ok n =>
      obtain ⟨u, hu, hpu⟩ := RecvCall.recvfrom_ok hp (hlt n ev (by simp))
      obtain rfl : (n : Int) = ret := by simpa [Frame.recvfrom] using h
      exact ⟨u, visits_cons_iff.mpr (.inr ⟨u, hu, .refl _ _ _⟩), hpu⟩
    | err e =>
      simp only [List.flatMap_cons, RecvFeed.ofCall]
      obtain ⟨u, hu, hret, hpu⟩ := RecvCall.recvfrom_err hp e
      by_cases hintr : e = .eintr
      · simp only [hintr, if_true, Frame.recvfrom] at hpu h
        obtain ⟨v, hv, hpv⟩ := ih hpu (hret.trans hs) hlt' h
        simp only [hintr, reduceCtorEq, or_self, if_false]
        exact ⟨v, visits_cons_iff.mpr (.inr ⟨u, hintr ▸ hu, hv⟩), hpv⟩
      · by_cases hwait : e = .eagain ∨ e = .ewouldblock
        · simp only [hintr, hwait, if_true, if_false, Frame.recvfrom] at hpu h
          have hwake : u.recvfrom (.wake ev) = some (u.afterWake ev) := RecvCall.step_wake hpu ev
          rw [if_pos hwait]
          have hvisits {v : RecvCall}
              (hv : Visits RecvCall.recvfrom (u.afterWake ev) (rs.flatMap RecvFeed.ofCall) v) :
              Visits RecvCall.recvfrom s
                ([.kernel (.err e), .wake ev] ++ rs.flatMap RecvFeed.ofCall) v :=
            visits_cons_iff.mpr (.inr ⟨u, hu, visits_cons_iff.mpr (.inr ⟨_, hwake, hv⟩)⟩)
          split_ifs at h with ht hc hr
          · exact ⟨_, hvisits (.refl _ _ _), by simpa [RecvCall.afterWake, ht] using h⟩
          · exact ⟨_, hvisits (.refl _ _ _), by simpa [RecvCall.afterWake, ht, hc] using h⟩
          · have hcall : (u.afterWake ev).point = .call ∧ (u.afterWake ev).ret = 0 := by
              simp [RecvCall.afterWake, ht, hc, hr, hret, hs]
            obtain ⟨v, hv, hpv⟩ := ih hcall.1 hcall.2 hlt' h
            exact ⟨v, hvisits hv, hpv⟩
          · exact ⟨_, hvisits (.refl _ _ _),
              by simpa [RecvCall.afterWake, ht, hc, hr, hret, hs] using h⟩
        · simp only [hintr, hwait, if_false, Frame.recvfrom] at hpu h
          rw [if_neg hwait]
          refine ⟨u, visits_cons_iff.mpr (.inr ⟨u, hu, .refl _ _ _⟩), ?_⟩
          simpa [hpu, hs] using h

def RecvStream.asCall (s : RecvStream) : RecvCall where
  point := match s.point with
    | .idle | .recv _ => .call
    | .parked _ | .woken _ _ => .parked
    | .returned ret => .returned ret
  errno := s.errno
  ret := s.ret

theorem RecvStream.afterRecv_asCall {s : RecvStream} {u : RecvCall} (he : u.errno = s.errno)
    (len : Nat) (ret : Int) (data : Bytes) :
    { u.afterCall false ret with calls := 0, parkedAfter := [] } =
      (s.afterRecv len ret data).asCall := by
  simp only [RecvCall.afterCall, RecvStream.afterRecv, RecvStream.asCall, he]
  split_ifs <;> simp_all

/-- The model of a stream makes the steps of this loop, seen without the counts. -/
theorem RecvStream.recv_asCall {s s' : RecvStream} {r : SysResult}
    (h : s.step (.recv r) = some s') : ∃ u, s.asCall.recv (.kernel r) = some u ∧
      { u with calls := 0, parkedAfter := [] } = s'.asCall := by
  have hcall : s.asCall.point = .call := by
    simp only [RecvStream.step] at h
    split at h
    · next hp => simp [RecvStream.asCall, hp]
    · cases h
  refine ⟨_, RecvCall.step_kernel hcall r, ?_⟩
  cases RecvStream.moved_of_step h with
  | recvOk len n hn =>
    simp only [RecvCall.kernel]
    exact RecvStream.afterRecv_asCall (s := { s with unread := s.unread.drop n }) rfl len _ _
  | recvErr len e =>
    exact RecvStream.afterRecv_asCall (s := { s with errno := some e }) rfl len _ _

theorem RecvStream.resume_asCall {s s' : RecvStream} (h : s.step .resume = some s') :
    ∃ len evRes, s.point = .woken len evRes ∧ s.asCall.recv (.wake evRes) = some s'.asCall := by
  cases RecvStream.moved_of_step h with
  | resume len evRes hp =>
    have hparked : s.asCall.point = .parked := by simp [RecvStream.asCall, hp]
    refine ⟨len, evRes, hp, ?_⟩
    rw [RecvCall.recv, RecvCall.step_wake hparked]
    simp only [RecvCall.afterWake, RecvStream.afterWake, RecvStream.asCall]
    split_ifs <;> rfl

end OtherModels

end Tinyco
