import Tinyco.AcceptLoop
import Tinyco.Bytes

/-! `Frame::recv` on a connection whose peer writes some bytes and closes its end. Bytes and
the close arrive while the coroutine is in a call, is parked or does something else. -/

namespace Tinyco

/-- `woken` holds the `ev_res` the coroutine finds when it is scheduled. -/
inductive RecvPoint where
  | idle
  | recv (len : Nat)
  | parked (len : Nat)
  | woken (len : Nat) (evRes : List EvFlag)
  | returned (ret : Int)
  deriving DecidableEq, Repr

/-- `coming` are the bytes that have not arrived, `unread` those in the socket, `got` those
the calls have returned. -/
structure RecvStream where
  point : RecvPoint := .idle
  errno : Option Errno := none
  ret : Int := 0
  coming : Bytes
  unread : Bytes := []
  closed : Bool := false
  got : Bytes := []
  deriving DecidableEq, Repr

inductive StreamLabel where
  | arrive (n : Nat)
  | close
  | call (len : Nat)
  | recv (r : SysResult)
  | fire
  | resume
  deriving DecidableEq, Repr

namespace RecvStream

/-- The registered conditions that are ready. The end of the stream can be read, too. -/
def ready (s : RecvStream) : List EvFlag :=
  (if s.unread ≠ [] ∨ s.closed = true then [.read] else []) ++
    (if s.closed = true then [.closed] else [])

/-- The body of the loop once `ret` has its value and the bytes `data` are in the buffer. -/
def afterRecv (s : RecvStream) (len : Nat) (ret : Int) (data : Bytes) : RecvStream :=
  let s := { s with ret := ret }
  if ret > 0 then { s with point := .returned ret, got := s.got ++ data.take ret.toNat }
  else if ret = 0 then { s with point := .returned 0 }
  else if s.errno = some .eintr then { s with point := .recv len }
  else if s.errno = some .eagain ∨ s.errno = some .ewouldblock then { s with point := .parked len }
  else { s with point := .returned ret }

def afterWake (s : RecvStream) (len : Nat) (evRes : List EvFlag) : RecvStream :=
  if .timeout ∈ evRes then { s with point := .returned (-2) }
  -- tested before `EV_READ`
  else if .closed ∈ evRes then { s with point := .returned 0 }
  else if .read ∈ evRes then { s with point := .recv len }
  else { s with point := .returned s.ret }

/-- The kernel returns bytes in order and 0 at the end of the stream only; it asks the caller
to wait only if there is neither. -/
def Allows (s : RecvStream) (len : Nat) : SysResult → Prop
  | .ok n => (0 < n ∧ n ≤ len ∧ n ≤ s.unread.length) ∨ (n = 0 ∧ s.unread = [] ∧ s.closed = true)
  | .err e => e = .eagain ∨ e = .ewouldblock → s.unread = [] ∧ s.closed = false

instance (s : RecvStream) (len : Nat) : (r : SysResult) → Decidable (s.Allows len r)
  | .ok n => inferInstanceAs (Decidable ((0 < n ∧ n ≤ len ∧ n ≤ s.unread.length) ∨
      (n = 0 ∧ s.unread = [] ∧ s.closed = true)))
  | .err e => inferInstanceAs (Decidable (e = .eagain ∨ e = .ewouldblock →
      s.unread = [] ∧ s.closed = false))

/-- The coroutine calls `Frame::recv` until a call returns 0. -/
def step (s : RecvStream) : StreamLabel → Option RecvStream
  | .arrive n =>
    if s.closed = false ∧ n ≤ s.coming.length then
      some { s with unread := s.unread ++ s.coming.take n, coming := s.coming.drop n }
    else none
  | .close => if s.coming = [] then some { s with closed := true } else none
  | .call len =>
    match s.point with
    | .idle => some { s with point := .recv len }
    | .returned ret => if ret ≠ 0 then some { s with point := .recv len } else none
    | _ => none
  | .recv r =>
    match s.point with
    | .recv len =>
      if s.Allows len r then
        match r with
        | .ok n =>
          some (({ s with unread := s.unread.drop n }).afterRecv len (toInt32 n) (s.unread.take n))
        | .err e => some (({ s with errno := some e }).afterRecv len (-1) [])
      else none
    | _ => none
  | .fire =>
    match s.point with
    | .parked len => if s.ready ≠ [] then some { s with point := .woken len s.ready } else none
    | _ => none
  | .resume =>
    match s.point with
    | .woken len evRes => some (s.afterWake len evRes)
    | _ => none

/-- No byte is lost, and a call has returned 0 only behind the last one. -/
structure Received (peer : Bytes) (s : RecvStream) : Prop where
  bytes : s.got ++ s.unread ++ s.coming = peer
  whole : s.point = .returned 0 → s.got = peer

/-- The coroutine does not find the close while there are bytes to be read, and the number of
bytes read at once fits into an `int`. -/
def ReadsFirst (s : RecvStream) : StreamLabel → Prop
  | .recv (.ok n) => n < 2 ^ 31
  | .resume => ∀ len evRes, s.point = .woken len evRes → .closed ∈ evRes → s.unread = []
  | _ => True

/-- What the coroutine finds was so when it was woken. -/
structure Wakeful (s : RecvStream) : Prop where
  all_come : s.closed = true → s.coming = []
  woken : ∀ len evRes, s.point = .woken len evRes →
    .timeout ∉ evRes ∧ .read ∈ evRes ∧ (.closed ∈ evRes → s.closed = true)

variable {peer : Bytes} {s s' : RecvStream} {len : Nat} {a : StreamLabel}

theorem afterRecv_got (s : RecvStream) (len : Nat) (ret : Int) (data : Bytes) :
    (s.afterRecv len ret data).got = s.got ++ data.take ret.toNat := by
  simp only [afterRecv]
  split_ifs with hpos
  · rfl
  all_goals simp [show ret.toNat = 0 by omega]

@[simp] theorem afterRecv_unread (s : RecvStream) (len : Nat) (ret : Int) (data : Bytes) :
    (s.afterRecv len ret data).unread = s.unread := by
  simp only [afterRecv]
  split_ifs <;> rfl

@[simp] theorem afterRecv_coming (s : RecvStream) (len : Nat) (ret : Int) (data : Bytes) :
    (s.afterRecv len ret data).coming = s.coming := by
  simp only [afterRecv]
  split_ifs <;> rfl

@[simp] theorem afterRecv_closed (s : RecvStream) (len : Nat) (ret : Int) (data : Bytes) :
    (s.afterRecv len ret data).closed = s.closed := by
  simp only [afterRecv]
  split_ifs <;> rfl

theorem afterRecv_point_ne_woken (s : RecvStream) (len : Nat) (ret : Int) (data : Bytes)
    (len' : Nat) (evRes : List EvFlag) : (s.afterRecv len ret data).point ≠ .woken len' evRes := by
  simp only [afterRecv]
  split_ifs <;> simp

theorem afterRecv_returned_zero {ret : Int} {data : Bytes}
    (h : (s.afterRecv len ret data).point = .returned 0) : ret = 0 := by
  simp only [afterRecv] at h
  split_ifs at h with hpos h0
  · exact RecvPoint.returned.inj h
  · exact h0
  · exact RecvPoint.returned.inj h

theorem timeout_not_mem_ready (s : RecvStream) : .timeout ∉ s.ready := by
  simp only [ready]
  split_ifs <;> simp

theorem read_mem_ready (h : s.ready ≠ []) : .read ∈ s.ready := by
  by_cases hc : s.closed = true
  · simp [ready, hc]
  · by_cases hu : s.unread = []
    · simp [ready, hc, hu] at h
    · simp [ready, hu]

theorem closed_of_mem_ready (h : .closed ∈ s.ready) : s.closed = true := by
  by_contra hc
  by_cases hu : s.unread = [] <;> simp [ready, hc, hu] at h

inductive Moved (s : RecvStream) : StreamLabel → RecvStream → Prop where
  | arrive (n : Nat) (hopen : s.closed = false) : Moved s (.arrive n)
    { s with unread := s.unread ++ s.coming.take n, coming := s.coming.drop n }
  | close (hcome : s.coming = []) : Moved s .close { s with closed := true }
  | call (len : Nat) : Moved s (.call len) { s with point := .recv len }
  | recvOk (len n : Nat) (hn : s.Allows len (.ok n)) : Moved s (.recv (.ok n))
    (({ s with unread := s.unread.drop n }).afterRecv len (toInt32 n) (s.unread.take n))
  | recvErr (len : Nat) (e : Errno) : Moved s (.recv (.err e))
    (({ s with errno := some e }).afterRecv len (-1) [])
  | fire (len : Nat) (hready : s.ready ≠ []) : Moved s .fire { s with point := .woken len s.ready }
  | resume (len : Nat) (evRes : List EvFlag) (hp : s.point = .woken len evRes) :
    Moved s .resume (s.afterWake len evRes)

theorem moved_of_step (hs : s.step a = some s') : Moved s a s' := by
  cases a with
  | arrive n =>
    simp only [step, Option.ite_none_right_eq_some, Option.some.injEq] at hs
    obtain ⟨⟨hopen, -⟩, rfl⟩ := hs
    exact .arrive n hopen
  | close =>
    simp only [step, Option.ite_none_right_eq_some, Option.some.injEq] at hs
    obtain ⟨hcome, rfl⟩ := hs
    exact .close hcome
  | call len =>
    simp only [step] at hs
    split at hs
    · obtain rfl := Option.some.inj hs
      exact .call len
    · obtain ⟨-, rfl⟩ := by simpa using hs
      exact .call len
    · cases hs
  | recv r =>
    simp only [step] at hs
    split at hs
    · split_ifs at hs with hallows
      cases r with
      | ok n =>
        obtain rfl := Option.some.inj hs
        exact .recvOk _ n hallows
      | err e =>
        obtain rfl := Option.some.inj hs
        exact .recvErr _ e
    · cases hs
  | fire =>
    simp only [step] at hs
    split at hs
    · simp only [Option.ite_none_right_eq_some, Option.some.injEq] at hs
      obtain ⟨hready, rfl⟩ := hs
      exact .fire _ hready
    · cases hs
  | resume =>
    simp only [step] at hs
    split at hs
    · next len evRes hp =>
      obtain rfl := Option.some.inj hs
      exact .resume len evRes hp
    · cases hs

theorem Wakeful.step (h : s.Wakeful) (hs : s.step a = some s') : s'.Wakeful := by
  obtain ⟨hall, hwoken⟩ := h
  cases moved_of_step hs with
  | arrive n hopen => exact ⟨fun hc => absurd hc (by simp [hopen]), hwoken⟩
  | close hcome =>
    exact ⟨fun _ => hcome, fun l ev hp => ⟨(hwoken l ev hp).1, (hwoken l ev hp).2.1, fun _ => rfl⟩⟩
  | call len => exact ⟨hall, fun _ _ hp => by simp at hp⟩
  | recvOk len n hn =>
    exact ⟨by simpa using hall, fun _ _ hp => (afterRecv_point_ne_woken _ _ _ _ _ _ hp).elim⟩
  | recvErr len e =>
    exact ⟨by simpa using hall, fun _ _ hp => (afterRecv_point_ne_woken _ _ _ _ _ _ hp).elim⟩
  | fire len hready =>
    refine ⟨hall, fun l ev hp => ?_⟩
    obtain ⟨-, rfl⟩ := by simpa using hp
    exact ⟨timeout_not_mem_ready s, read_mem_ready hready, closed_of_mem_ready⟩
  | resume len evRes hp =>
    simp only [afterWake]
    split_ifs
    all_goals exact ⟨hall, fun _ _ hp => by simp at hp⟩

theorem received_recv_ok_iff (h : s.Received peer) (hw : s.Wakeful) {n : Nat}
    (hn : s.Allows len (.ok n)) :
    (({ s with unread := s.unread.drop n }).afterRecv len (toInt32 n)
      (s.unread.take n)).Received peer ↔ n < 2 ^ 31 := by
  have hle : n ≤ s.unread.length := by
    rcases hn with ⟨-, -, hle⟩ | ⟨rfl, -⟩
    · exact hle
    · exact Nat.zero_le _
  constructor
  · intro hr
    have hlen := congrArg List.length (hr.bytes.trans h.bytes.symm)
    simp only [afterRecv_got, afterRecv_unread, afterRecv_coming, List.length_append,
      List.length_take, List.length_drop] at hlen
    have hlt := toInt32_lt n
    omega
  · intro hfit
    rw [toInt32_of_lt hfit]
    refine ⟨?_, fun hp => ?_⟩
    · rw [afterRecv_got, afterRecv_unread, afterRecv_coming, ← h.bytes]
      simp [List.take_take]
    · have h0 : n = 0 := by simpa using afterRecv_returned_zero hp
      obtain ⟨hlt, -⟩ | ⟨-, hunread, hclosed⟩ := hn
      · omega
      · rw [afterRecv_got, ← h.bytes, hunread, hw.all_come hclosed]
        simp

theorem Received.failed (h : s.Received peer) :
    (s.afterRecv len (-1) []).Received peer := by
  refine ⟨?_, fun hp => absurd (afterRecv_returned_zero hp) (by decide)⟩
  rw [afterRecv_got, afterRecv_unread, afterRecv_coming, ← h.bytes]
  simp

theorem received_afterWake_iff (h : s.Received peer) (hw : s.Wakeful) {evRes : List EvFlag}
    (hp : s.point = .woken len evRes) :
    (s.afterWake len evRes).Received peer ↔ (.closed ∈ evRes → s.unread = []) := by
  obtain ⟨htimeout, hread, hclosed⟩ := hw.woken len evRes hp
  by_cases hc : .closed ∈ evRes
  · have hcome : s.coming = [] := hw.all_come (hclosed hc)
    have hbytes := h.bytes
    rw [hcome, List.append_nil] at hbytes
    rw [afterWake, if_neg htimeout, if_pos hc]
    constructor
    · intro hr _
      have hgot : s.got = peer := hr.whole rfl
      simpa [hgot] using hbytes
    · intro hu
      rw [hu hc, List.append_nil] at hbytes
      exact ⟨h.bytes, fun _ => hbytes⟩
  · rw [afterWake, if_neg htimeout, if_neg hc, if_pos hread]
    exact iff_of_true ⟨h.bytes, fun hr => by simp at hr⟩ fun hc' => absurd hc' hc

theorem received_step_iff (h : s.Received peer) (hw : s.Wakeful) (hs : s.step a = some s') :
    s'.Received peer ↔ s.ReadsFirst a := by
  cases moved_of_step hs with
  | arrive n hopen => exact iff_of_true ⟨by simp [← h.bytes], h.whole⟩ trivial
  | close hcome => exact iff_of_true ⟨h.bytes, h.whole⟩ trivial
  | call len => exact iff_of_true ⟨h.bytes, fun hp => by simp at hp⟩ trivial
  | recvOk len n hn => exact received_recv_ok_iff h hw hn
  | recvErr len e =>
    exact iff_of_true (Received.failed (s := { s with errno := some e }) ⟨h.bytes, h.whole⟩) trivial
  | fire len hready => exact iff_of_true ⟨h.bytes, fun hp => by simp at hp⟩ trivial
  | resume len evRes hp =>
    rw [received_afterWake_iff h hw hp]
    constructor
    · intro hu l' ev' hp'
      obtain ⟨-, rfl⟩ := by simpa [hp] using hp'
      exact hu
    · intro hu
      exact hu len evRes hp

theorem wakeful_start (peer : Bytes) : ({ coming := peer } : RecvStream).Wakeful :=
  ⟨fun hc => by simp at hc, fun _ _ hp => by simp at hp⟩

theorem received_start (peer : Bytes) : ({ coming := peer } : RecvStream).Received peer :=
  ⟨rfl, fun hp => by simp at hp⟩

end RecvStream

/-- Nothing of the stream is lost exactly if the coroutine is never woken by the close in front
of unread bytes, and never reads more bytes at once than an `int` can count. -/
theorem stream_received_iff (peer : Bytes) (as : List StreamLabel) :
    (∀ s, Visits RecvStream.step { coming := peer } as s → s.Received peer) ↔
      ∀ s a s', Takes RecvStream.step { coming := peer } as s a s' → s.ReadsFirst a :=
  forall_visits_iff_forall_takes_under (RecvStream.received_start peer)
    (RecvStream.wakeful_start peer) (fun _ _ _ h hs => h.step hs)
    fun _ _ _ h hw hs => RecvStream.received_step_iff h hw hs

/-- The coroutine waits, then `hi` and the close arrive: the call returns 0. -/
theorem bytes_before_close_lost :
    (exec RecvStream.step { coming := bytes "hi" }
        [.call 10, .recv (.err .eagain), .arrive 2, .close, .fire, .resume]).map
      (fun s => (s.point, s.unread, s.got)) = some (.returned 0, bytes "hi", []) ∧
    ¬ ∀ peer as s, Visits RecvStream.step { coming := peer } as s → s.point = .returned 0 →
      s.got = peer := by
  have he : exec RecvStream.step { coming := bytes "hi" }
      [.call 10, .recv (.err .eagain), .arrive 2, .close, .fire, .resume] =
      some ⟨.returned 0, some .eagain, -1, [], bytes "hi", true, []⟩ := by decide
  exact ⟨by rw [he]; rfl, fun hall => absurd (hall _ _ _ (.of_exec he) rfl) (by decide)⟩

end Tinyco
