import Tinyco.AcceptLoop
import Tinyco.HttpParser

/-! `Frame::send`. The call stops at each `::send` and where it is parked, and goes on with
what the kernel returned or with the `ev_res` it finds. -/

namespace Tinyco

inductive SendPoint where
  | send
  | parked
  | returned (ret : Int)
  deriving DecidableEq, Repr

/-- `accepted` are the bytes the kernel has taken. A call that succeeds leaves `errno`. -/
structure SendCall where
  point : SendPoint := .send
  nsend : Nat := 0
  errno : Option Errno := none
  accepted : Bytes := []
  deriving DecidableEq, Repr

inductive SendLabel where
  | send (r : SysResult)
  | wake (evRes : List EvFlag)
  deriving DecidableEq, Repr

namespace SendCall

/-- `while (nsend < len)`, with the return behind the loop. -/
def loopHead (buf : Bytes) (s : SendCall) : SendCall :=
  { s with point := if s.nsend < buf.length then .send else .returned (toInt32 s.nsend) }

def start (buf : Bytes) (errno : Option Errno) : SendCall := loopHead buf { errno := errno }

/-- The body of the loop once `ret` has its value. -/
def afterSend (buf : Bytes) (s : SendCall) (ret : Int) : SendCall :=
  let s := if ret > 0 then { s with nsend := s.nsend + ret.toNat } else s
  if ret < 0 ∧ s.errno = some .eintr then s.loopHead buf
  else if ret < 0 ∧ (s.errno = some .eagain ∨ s.errno = some .ewouldblock) then
    { s with point := .parked }
  else if ret < 0 then { s with point := .returned (-1) }
  else if ret = 0 then { s with point := .returned 0 }
  else s.loopHead buf

def afterWake (buf : Bytes) (s : SendCall) (evRes : List EvFlag) : SendCall :=
  if .timeout ∈ evRes then { s with point := .returned (-2) }
  else if .write ∈ evRes then s.loopHead buf
  else { s with point := .returned (-1) }

/-- The kernel takes at most the bytes it was given, those behind the first `nsend`. -/
def step (buf : Bytes) (s : SendCall) : SendLabel → Option SendCall
  | .send (.ok n) =>
    if s.point = .send ∧ n ≤ buf.length - s.nsend then
      some (({ s with accepted := s.accepted ++ slice buf (s.nsend, n) }).afterSend buf (toInt32 n))
    else none
  | .send (.err e) =>
    if s.point = .send then some (({ s with errno := some e }).afterSend buf (-1)) else none
  | .wake evRes => if s.point = .parked then some (s.afterWake buf evRes) else none

/-- The kernel has the first `nsend` bytes, and all of them if the result is positive. -/
structure SentRight (buf : Bytes) (s : SendCall) : Prop where
  nsend_le : s.nsend ≤ buf.length
  accepted : s.accepted = buf.take s.nsend
  returned : ∀ ret, s.point = .returned ret → 0 < ret → s.accepted = buf

end SendCall

/-- The result of `::send` fits into the `int` it is stored in. -/
def SendLabel.FitsInt : SendLabel → Prop
  | .send (.ok n) => n < 2 ^ 31
  | _ => True

/-- No call takes nothing or fails for good, and each wakeup is for writing. -/
def SendLabel.Smooth : SendLabel → Prop
  | .send (.ok n) => n ≠ 0
  | .send (.err e) => e = .eintr ∨ e = .eagain ∨ e = .ewouldblock
  | .wake evRes => .write ∈ evRes ∧ .timeout ∉ evRes

namespace SendCall

variable {buf : Bytes} {s s' : SendCall} {a : SendLabel}

theorem SentRight.loopHead (hn : s.nsend ≤ buf.length) (ha : s.accepted = buf.take s.nsend) :
    (s.loopHead buf).SentRight buf := by
  refine ⟨hn, ha, fun ret hret _ => ?_⟩
  simp only [SendCall.loopHead] at hret ⊢
  split_ifs at hret with hlt
  rw [ha, List.take_of_length_le (by omega)]

theorem SentRight.stop (hn : s.nsend ≤ buf.length) (ha : s.accepted = buf.take s.nsend)
    (ret : Int) (hret : ret ≤ 0) : ({ s with point := .returned ret } : SendCall).SentRight buf := by
  refine ⟨hn, ha, fun r hr hpos => ?_⟩
  obtain rfl : ret = r := by simpa using hr
  omega

theorem SentRight.park (hn : s.nsend ≤ buf.length) (ha : s.accepted = buf.take s.nsend) :
    ({ s with point := .parked } : SendCall).SentRight buf :=
  ⟨hn, ha, fun r hr => by simp at hr⟩

theorem slice_append_take {n m : Nat} (buf : Bytes) :
    buf.take n ++ slice buf (n, m) = buf.take (n + m) := by
  simp [slice, List.take_add]

theorem afterSend_nsend (buf : Bytes) (s : SendCall) (ret : Int) :
    (s.afterSend buf ret).nsend = s.nsend + ret.toNat := by
  have hloop (t : SendCall) : (t.loopHead buf).nsend = t.nsend := rfl
  by_cases hret : ret > 0
  · simp only [afterSend, hret, if_true]
    split_ifs <;> simp [hloop]
  · have hzero : ret.toNat = 0 := by omega
    simp only [afterSend, hret, if_false, hzero, Nat.add_zero]
    split_ifs <;> simp [hloop]

theorem afterSend_accepted (buf : Bytes) (s : SendCall) (ret : Int) :
    (s.afterSend buf ret).accepted = s.accepted := by
  have hloop (t : SendCall) : (t.loopHead buf).accepted = t.accepted := rfl
  by_cases hret : ret > 0 <;> simp only [afterSend, hret, if_true, if_false] <;>
    split_ifs <;> simp [hloop]

theorem afterSend_of_pos (buf : Bytes) (s : SendCall) {ret : Int} (hret : 0 < ret) :
    s.afterSend buf ret = ({ s with nsend := s.nsend + ret.toNat }).loopHead buf := by
  have hneg : ¬ ret < 0 := by omega
  have hne : ret ≠ 0 := by omega
  simp [afterSend, hret, hneg, hne]

theorem afterSend_zero (buf : Bytes) (s : SendCall) :
    s.afterSend buf 0 = { s with point := .returned 0 } := by
  simp [afterSend]

theorem afterSend_failed (buf : Bytes) (s : SendCall) :
    s.afterSend buf (-1) =
      if s.errno = some .eintr then s.loopHead buf
      else if s.errno = some .eagain ∨ s.errno = some .ewouldblock then { s with point := .parked }
      else { s with point := .returned (-1) } := by
  simp [afterSend]

theorem sentRight_sent_iff (h : s.SentRight buf) {n : Nat} (hn : n ≤ buf.length - s.nsend) :
    (({ s with accepted := s.accepted ++ slice buf (s.nsend, n) }).afterSend buf
      (toInt32 n)).SentRight buf ↔ n < 2 ^ 31 := by
  have hle := h.nsend_le
  have hacc : s.accepted ++ slice buf (s.nsend, n) = buf.take (s.nsend + n) := by
    rw [h.accepted, slice_append_take]
  rw [hacc]
  constructor
  · intro hr
    have hlen := congrArg List.length hr.accepted
    have hnle := hr.nsend_le
    simp only [afterSend_nsend, afterSend_accepted, List.length_take] at hlen hnle
    have hlt := toInt32_lt n
    omega
  · intro hfit
    rw [toInt32_of_lt hfit]
    rcases Nat.eq_zero_or_pos n with rfl | hpos
    · rw [Nat.cast_zero, afterSend_zero]
      exact .stop (s := { s with accepted := buf.take (s.nsend + 0) }) hle rfl 0 le_rfl
    · rw [afterSend_of_pos buf _ (by omega)]
      have hle' : s.nsend + n ≤ buf.length := by omega
      exact .loopHead (by simpa using hle') (by simp)

theorem SentRight.setErrno (h : s.SentRight buf) (e : Errno) :
    ({ s with errno := some e } : SendCall).SentRight buf := ⟨h.nsend_le, h.accepted, h.returned⟩

theorem SentRight.failed (h : s.SentRight buf) : (s.afterSend buf (-1)).SentRight buf := by
  rw [afterSend_failed]
  split_ifs
  · exact .loopHead h.nsend_le h.accepted
  · exact .park h.nsend_le h.accepted
  · exact .stop h.nsend_le h.accepted (-1) (by decide)

theorem SentRight.wake (h : s.SentRight buf) (evRes : List EvFlag) :
    (s.afterWake buf evRes).SentRight buf := by
  simp only [afterWake]
  split_ifs
  · exact .stop h.nsend_le h.accepted (-2) (by decide)
  · exact .loopHead h.nsend_le h.accepted
  · exact .stop h.nsend_le h.accepted (-1) (by decide)

theorem sentRight_step_iff (h : s.SentRight buf) (hs : s.step buf a = some s') :
    s'.SentRight buf ↔ a.FitsInt := by
  match a with
  | .send (.ok n) =>
    simp only [step, Option.ite_none_right_eq_some, Option.some.injEq] at hs
    obtain ⟨⟨-, hn⟩, rfl⟩ := hs
    exact sentRight_sent_iff h hn
  | .send (.err e) =>
    simp only [step, Option.ite_none_right_eq_some, Option.some.injEq] at hs
    obtain ⟨-, rfl⟩ := hs
    exact iff_of_true (h.setErrno e).failed trivial
  | .wake evRes =>
    simp only [step, Option.ite_none_right_eq_some, Option.some.injEq] at hs
    obtain ⟨-, rfl⟩ := hs
    exact iff_of_true (h.wake evRes) trivial

theorem sentRight_start (buf : Bytes) (errno : Option Errno) : (start buf errno).SentRight buf :=
  .loopHead (Nat.zero_le _) rfl

theorem returned_loopHead (hlen : buf.length < 2 ^ 31) (hn : s.nsend ≤ buf.length) {ret : Int}
    (hret : (s.loopHead buf).point = .returned ret) : ret = buf.length := by
  simp only [loopHead] at hret
  split_ifs at hret with hlt
  have heq : s.nsend = buf.length := by omega
  rw [← SendPoint.returned.inj hret, heq, toInt32_of_lt hlen]

theorem returned_of_smooth (hlen : buf.length < 2 ^ 31) (h : s.SentRight buf) (ha : a.Smooth)
    (hs : s.step buf a = some s') {ret : Int} (hret : s'.point = .returned ret) :
    ret = buf.length := by
  have hle := h.nsend_le
  match a with
  | .send (.ok n) =>
    simp only [step, Option.ite_none_right_eq_some, Option.some.injEq] at hs
    obtain ⟨⟨-, hn⟩, rfl⟩ := hs
    have hpos : 0 < n := Nat.pos_of_ne_zero ha
    rw [toInt32_of_lt (by omega), afterSend_of_pos buf _ (by omega)] at hret
    exact returned_loopHead hlen (by simp only [Int.toNat_natCast]; omega) hret
  | .send (.err e) =>
    simp only [step, Option.ite_none_right_eq_some, Option.some.injEq] at hs
    obtain ⟨-, rfl⟩ := hs
    rw [afterSend_failed] at hret
    rcases ha with rfl | rfl | rfl
    · exact returned_loopHead (s := { s with errno := some .eintr }) hlen hle (by simpa using hret)
    all_goals simp at hret
  | .wake evRes =>
    simp only [step, Option.ite_none_right_eq_some, Option.some.injEq] at hs
    obtain ⟨-, rfl⟩ := hs
    rw [afterWake, if_neg ha.2, if_pos ha.1] at hret
    exact returned_loopHead hlen hle hret

end SendCall

/-- Whatever the kernel does, the bytes it has taken are the first `nsend` of the buffer and a
positive result means all of them, exactly if no result of `::send` is cut off by the `int`.
A call on fewer than 2 GiB that runs smoothly returns their number. -/
theorem sent_right_iff_fits_int (buf : Bytes) (errno : Option Errno) (as : List SendLabel) :
    ((∀ s, Visits (SendCall.step buf) (.start buf errno) as s → s.SentRight buf) ∧
      (0 < buf.length → buf.length < 2 ^ 31 → (∀ a ∈ as, a.Smooth) →
        ∀ s ret, Visits (SendCall.step buf) (.start buf errno) as s → s.point = .returned ret →
          ret = buf.length)) ↔
      ∀ s a s', Takes (SendCall.step buf) (.start buf errno) as s a s' → a.FitsInt := by
  have hiff : (∀ s, Visits (SendCall.step buf) (.start buf errno) as s → s.SentRight buf) ↔
      ∀ s a s', Takes (SendCall.step buf) (.start buf errno) as s a s' → a.FitsInt :=
    forall_visits_iff_forall_takes (SendCall.sentRight_start buf errno) fun _ _ _ h hs =>
      SendCall.sentRight_step_iff h hs
  rw [← hiff]
  refine and_iff_left_of_imp fun hright h0 hlen hsmooth s ret hv => ?_
  refine hv.invariant_takes (I := fun t => t.SentRight buf ∧
    (t.point = .returned ret → ret = buf.length)) ⟨hright _ (.refl _ _ _), ?_⟩ ?_ |>.2
  · simp [SendCall.start, SendCall.loopHead, h0]
  · intro t a u ht hu
    exact ⟨hright u hu.visits, fun hret =>
      SendCall.returned_of_smooth hlen ht.1 (hsmooth a hu.mem) hu.step_eq hret⟩

def fourGigabytes : Bytes := List.replicate (2 ^ 32 + 1) 0

theorem length_fourGigabytes : fourGigabytes.length = 2 ^ 32 + 1 := List.length_replicate

/-- The kernel takes all of 4 GiB and a byte at once. The result is cut to 1, and the call
asks for all bytes but the first again. -/
theorem four_gigabytes_sent_again :
    (∃ s, exec (SendCall.step fourGigabytes) (.start fourGigabytes none)
        [.send (.ok (2 ^ 32 + 1))] = some s ∧
      s.point = .send ∧ s.nsend = 1 ∧ s.accepted.length = 2 ^ 32 + 1) ∧
    ¬ ∀ buf errno as s, Visits (SendCall.step buf) (.start buf errno) as s → s.SentRight buf := by
  have hcut : toInt32 ((2 ^ 32 + 1 : Nat) : Int) = 1 := by decide
  have hlen := length_fourGigabytes
  have hlt (n : Nat) (hn : n ≤ 1) : n < fourGigabytes.length := by omega
  have hstart : SendCall.start fourGigabytes none = {} := by
    simp [SendCall.start, SendCall.loopHead, hlt 0 (by omega)]
  have hslice : slice fourGigabytes (0, 2 ^ 32 + 1) = fourGigabytes :=
    List.take_of_length_le (by rw [List.drop_zero, hlen])
  have he : exec (SendCall.step fourGigabytes) (.start fourGigabytes none)
      [.send (.ok (2 ^ 32 + 1))] = some ⟨.send, 1, none, fourGigabytes⟩ := by
    have hstep : SendCall.step fourGigabytes {} (.send (.ok (2 ^ 32 + 1))) =
        some ⟨.send, 1, none, fourGigabytes⟩ := by
      have hle : 2 ^ 32 + 1 ≤ fourGigabytes.length - ({} : SendCall).nsend := by
        rw [show ({} : SendCall).nsend = 0 from rfl, Nat.sub_zero, hlen]
      rw [SendCall.step, if_pos ⟨rfl, hle⟩, hcut, hslice,
        SendCall.afterSend_of_pos _ _ (by decide)]
      simp [SendCall.loopHead, hlt 1 le_rfl]
    rw [hstart, exec_cons, hstep]
    rfl
  refine ⟨⟨_, he, rfl, rfl, hlen⟩, fun hall => ?_⟩
  have hacc := congrArg List.length (hall _ _ _ _ (.of_exec he)).accepted
  rw [List.length_take, hlen] at hacc
  exact absurd hacc (by decide)

end Tinyco
