import Tinyco.Runs
import Tinyco.SocketRecv
import Tinyco.SocketSend

/-! A coroutine in `Frame::send` and one in `Frame::recv` at the two ends of a connection that has
room for `cap` bytes: the model of the two, and what one step of either leaves. -/

namespace Tinyco

/-- `buf` is being sent by the call `send`, `todo` are the buffers of the calls after it and `sent`
what the calls before it have sent. The bytes on their way are those `stream` still has to get. -/
structure Pipe where
  buf : Bytes
  send : SendCall
  sent : Bytes := []
  todo : List Bytes
  stream : RecvStream

inductive PipeLabel where
  | send (a : SendLabel)
  | next
  | recv (a : StreamLabel)
  deriving DecidableEq, Repr

namespace Pipe

def start (bufs : List Bytes) : Pipe where
  buf := []
  send := .start [] none
  todo := bufs
  stream := { coming := [] }

def inFlight (s : Pipe) : Nat := s.stream.coming.length + s.stream.unread.length

/-- The sending kernel takes what there is room for, and asks the caller to wait only if there is
none. -/
def SendAllowed (cap : Nat) (s : Pipe) : SendLabel → Prop
  | .send (.ok n) => 0 < n ∧ s.inFlight + n ≤ cap
  | .send (.err e) => e = .eintr ∨ (e = .eagain ∨ e = .ewouldblock) ∧ s.inFlight = cap
  | .wake evRes => evRes = [.write] ∧ s.inFlight < cap

instance (cap : Nat) (s : Pipe) : (a : SendLabel) → Decidable (s.SendAllowed cap a)
  | .send (.ok n) => inferInstanceAs (Decidable (0 < n ∧ s.inFlight + n ≤ cap))
  | .send (.err e) => inferInstanceAs (Decidable (e = .eintr ∨
      (e = .eagain ∨ e = .ewouldblock) ∧ s.inFlight = cap))
  | .wake evRes => inferInstanceAs (Decidable (evRes = [.write] ∧ s.inFlight < cap))

/-- The sender keeps its end open and the connection does not fail. The receiver asks for bytes. -/
def RecvAllowed : StreamLabel → Bool
  | .call len => decide (0 < len)
  | .recv (.err e) => decide (e = .eintr ∨ e = .eagain ∨ e = .ewouldblock)
  | .close => false
  | _ => true

/-- The stream with the bytes that a step of the sender has handed to the kernel. -/
def carry (s : Pipe) (send : SendCall) : Pipe :=
  { s with
    send := send
    stream := { s.stream with
      coming := s.stream.coming ++ send.accepted.drop s.send.accepted.length } }

def step (cap : Nat) (s : Pipe) : PipeLabel → Option Pipe
  | .send a => if s.SendAllowed cap a then (s.send.step s.buf a).map s.carry else none
  | .next =>
    match s.send.point, s.todo with
    | .returned _, b :: todo => some { s with
        buf := b
        send := .start b s.send.errno
        sent := s.sent ++ s.send.accepted
        todo := todo }
    | _, _ => none
  | .recv a =>
    if RecvAllowed a then (s.stream.step a).map fun stream => { s with stream := stream } else none

end Pipe

namespace RecvStream

variable {s s' : RecvStream} {a : StreamLabel}

/-- The peer has not closed, and no call has returned 0. -/
structure Open (s : RecvStream) : Prop where
  opened : s.closed = false
  wakeful : s.Wakeful
  goes_on : s.point ≠ .returned 0
  asks : ∀ len, s.point = .recv len ∨ s.point = .parked len ∨ (∃ ev, s.point = .woken len ev) →
    0 < len

/-- Everything that has been handed to the stream, in order. -/
def passed (s : RecvStream) : Bytes := s.got ++ s.unread ++ s.coming

theorem Open.received (h : s.Open) : s.Received s.passed := ⟨rfl, fun hp => absurd hp h.goes_on⟩

theorem Open.not_closed (h : s.Open) {len : Nat} {ev : List EvFlag} (hp : s.point = .woken len ev) :
    .timeout ∉ ev ∧ .closed ∉ ev ∧ .read ∈ ev := by
  obtain ⟨ht, hr, hc⟩ := h.wakeful.woken len ev hp
  exact ⟨ht, fun hm => absurd (hc hm) (by simp [h.opened]), hr⟩

theorem afterRecv_asks {len len' : Nat} {ret : Int} {data : Bytes} (hlen : 0 < len)
    (hp : (s.afterRecv len ret data).point = .recv len' ∨
      (s.afterRecv len ret data).point = .parked len' ∨
      ∃ ev, (s.afterRecv len ret data).point = .woken len' ev) : 0 < len' := by
  simp only [afterRecv] at hp
  split_ifs at hp <;> simp_all

theorem afterRecv_goes_on {len : Nat} {ret : Int} {data : Bytes} (hret : ret ≠ 0) :
    (s.afterRecv len ret data).point ≠ .returned 0 :=
  fun hp => hret (afterRecv_returned_zero hp)

theorem afterWake_of_read {len : Nat} {ev : List EvFlag} (ht : .timeout ∉ ev) (hc : .closed ∉ ev)
    (hr : .read ∈ ev) : s.afterWake len ev = { s with point := .recv len } := by
  rw [afterWake, if_neg ht, if_neg hc, if_pos hr]

theorem Open.step (h : s.Open) (ha : Pipe.RecvAllowed a = true) (hfits : s.unread.length < 2 ^ 31)
    (hs : s.step a = some s') : s'.Open ∧ s'.passed = s.passed := by
  have hw := h.wakeful.step hs
  have hreads : s.ReadsFirst a := by
    cases a with
    | recv r =>
      cases r with
      | ok n =>
        simp only [RecvStream.step] at hs
        split at hs
        · split_ifs at hs with hallows
          change n < 2 ^ 31
          rcases hallows with hn | hn <;> omega
        · cases hs
      | err e => trivial
    | resume => exact fun len ev hp hc => absurd hc (h.not_closed hp).2.1
    | _ => trivial
  have hpassed : s'.passed = s.passed := ((received_step_iff h.received h.wakeful hs).mpr hreads).bytes
  suffices hpoint : s'.closed = false ∧ s'.point ≠ .returned 0 ∧ ∀ len, s'.point = .recv len ∨
      s'.point = .parked len ∨ (∃ ev, s'.point = .woken len ev) → 0 < len from
    ⟨⟨hpoint.1, hw, hpoint.2.1, hpoint.2.2⟩, hpassed⟩
  cases a with
  | close => cases ha
  | arrive n =>
    simp only [RecvStream.step, Option.ite_none_right_eq_some, Option.some.injEq] at hs
    obtain ⟨-, rfl⟩ := hs
    exact ⟨h.opened, h.goes_on, h.asks⟩
  | call len =>
    have hlen : 0 < len := by simpa [Pipe.RecvAllowed] using ha
    cases moved_of_step hs with
    | call =>
      refine ⟨h.opened, by simp, fun len' hp => ?_⟩
      simp only [RecvPoint.recv.injEq, reduceCtorEq, exists_false, or_self, or_false] at hp
      exact hp ▸ hlen
  | recv r =>
    simp only [RecvStream.step] at hs
    split at hs
    · next len hp =>
      have hlen := h.asks len (.inl hp)
      split_ifs at hs with hallows
      cases r with
      | ok n =>
        obtain rfl := Option.some.inj hs
        obtain ⟨hn, -, hle⟩ | ⟨-, -, hc⟩ := hallows
        · refine ⟨by simpa using h.opened, afterRecv_goes_on ?_, fun len' => afterRecv_asks hlen⟩
          rw [toInt32_of_lt (by omega)]
          omega
        · exact absurd hc (by simp [h.opened])
      | err e =>
        obtain rfl := Option.some.inj hs
        exact ⟨by simpa using h.opened, afterRecv_goes_on (by decide),
          fun len' => afterRecv_asks hlen⟩
    · cases hs
  | fire =>
    simp only [RecvStream.step] at hs
    split at hs
    · next len hp =>
      have hlen := h.asks len (.inr (.inl hp))
      simp only [Option.ite_none_right_eq_some, Option.some.injEq] at hs
      obtain ⟨-, rfl⟩ := hs
      refine ⟨h.opened, by simp, fun len' hp' => ?_⟩
      simp only [reduceCtorEq, RecvPoint.woken.injEq, exists_and_left, exists_eq', and_true,
        false_or] at hp'
      exact hp' ▸ hlen
    · cases hs
  | resume =>
    simp only [RecvStream.step] at hs
    split at hs
    · next len ev hp =>
      have hlen := h.asks len (.inr (.inr ⟨ev, hp⟩))
      obtain ⟨ht, hc, hr⟩ := h.not_closed hp
      obtain rfl := Option.some.inj hs
      rw [afterWake_of_read ht hc hr]
      refine ⟨h.opened, by simp, fun len' hp' => ?_⟩
      simp only [RecvPoint.recv.injEq, reduceCtorEq, exists_false, or_self, or_false] at hp'
      exact hp' ▸ hlen
    · cases hs

theorem onWay_le (hs : s.step a = some s') :
    s'.coming.length + s'.unread.length ≤ s.coming.length + s.unread.length := by
  cases moved_of_step hs with
  | arrive n hopen =>
    simp only [List.length_append, List.length_take, List.length_drop]
    omega
  | recvOk len n hn => simp
  | recvErr len e => simp
  | close hcome => exact le_rfl
  | call len => exact le_rfl
  | fire len hready => exact le_rfl
  | resume len ev hp =>
    simp only [afterWake]
    split_ifs <;> exact le_rfl

end RecvStream

namespace SendCall

variable {buf : Bytes} {s s' : SendCall} {a : SendLabel}

/-- A call on a connection that does not fail: it returns only behind the last byte. -/
structure Steady (buf : Bytes) (s : SendCall) : Prop where
  right : s.SentRight buf
  busy : s.point = .send ∨ s.point = .parked → s.nsend < buf.length
  whole : ∀ ret, s.point = .returned ret → ret = buf.length

theorem Steady.accepted_eq (h : s.Steady buf) {ret : Int} (hp : s.point = .returned ret) :
    s.accepted = buf := by
  have hret := h.whole ret hp
  rcases Nat.eq_zero_or_pos buf.length with h0 | hpos
  · rw [h.right.accepted, List.length_eq_zero_iff.mp h0, List.take_nil]
  · exact h.right.returned ret hp (by omega)

theorem loopHead_busy (hp : (s.loopHead buf).point = .send ∨ (s.loopHead buf).point = .parked) :
    (s.loopHead buf).nsend < buf.length := by
  simp only [loopHead] at hp ⊢
  split_ifs at hp with hlt
  · exact hlt
  · simp at hp

theorem steady_start (hlen : buf.length < 2 ^ 31) (errno : Option Errno) :
    (start buf errno).Steady buf where
  right := sentRight_start buf errno
  busy := loopHead_busy
  whole _ hp := returned_loopHead hlen (Nat.zero_le _) hp

theorem Steady.step (hlen : buf.length < 2 ^ 31) (h : s.Steady buf) (hsmooth : a.Smooth)
    (hfits : a.FitsInt) (hs : s.step buf a = some s') : s'.Steady buf where
  right := (sentRight_step_iff h.right hs).mpr hfits
  whole _ hp := returned_of_smooth hlen h.right hsmooth hs hp
  busy := by
    match a with
    | .send (.ok n) =>
      simp only [SendCall.step, Option.ite_none_right_eq_some, Option.some.injEq] at hs
      obtain ⟨⟨-, hn⟩, rfl⟩ := hs
      have hpos : 0 < n := Nat.pos_of_ne_zero hsmooth
      rw [toInt32_of_lt hfits, afterSend_of_pos buf _ (by omega)]
      exact loopHead_busy
    | .send (.err e) =>
      simp only [SendCall.step, Option.ite_none_right_eq_some, Option.some.injEq] at hs
      obtain ⟨hp, rfl⟩ := hs
      have hlt := h.busy (.inl hp)
      rw [afterSend_failed]
      split_ifs
      · exact loopHead_busy
      · exact fun _ => hlt
      · simp
    | .wake ev =>
      simp only [SendCall.step, Option.ite_none_right_eq_some, Option.some.injEq] at hs
      obtain ⟨-, rfl⟩ := hs
      rw [afterWake, if_neg hsmooth.2, if_pos hsmooth.1]
      exact loopHead_busy

theorem accepted_of_step (hs : s.step buf a = some s') :
    ∃ x, s'.accepted = s.accepted ++ x ∧ (x = [] ∨ ∃ n, a = .send (.ok n) ∧ x.length ≤ n) := by
  match a with
  | .send (.ok n) =>
    simp only [SendCall.step, Option.ite_none_right_eq_some, Option.some.injEq] at hs
    obtain ⟨-, rfl⟩ := hs
    refine ⟨slice buf (s.nsend, n), afterSend_accepted _ _ _, .inr ⟨n, rfl, ?_⟩⟩
    simp [slice]
  | .send (.err e) =>
    simp only [SendCall.step, Option.ite_none_right_eq_some, Option.some.injEq] at hs
    obtain ⟨-, rfl⟩ := hs
    exact ⟨[], by rw [afterSend_accepted, List.append_nil], .inl rfl⟩
  | .wake ev =>
    simp only [SendCall.step, Option.ite_none_right_eq_some, Option.some.injEq] at hs
    obtain ⟨-, rfl⟩ := hs
    refine ⟨[], ?_, .inl rfl⟩
    rw [List.append_nil, afterWake]
    split_ifs <;> rfl

end SendCall

end Tinyco
