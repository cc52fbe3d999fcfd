import Tinyco.Bytes
import Tinyco.Runs

/-! The receive buffer of `HttpSrvWork::Run`. The loop is cut at its calls of `recv`; an
iteration is told what `recv`, `CheckPkg`, `ParseHttpRequest` and `KeepAlive` return. -/

namespace Tinyco

/-- What `Frame::recv` returns: bytes it has put into the buffer, zero or an error. -/
inductive RecvResult where
  | data (chunk : Bytes)
  | closed
  | error
  deriving DecidableEq, Repr

/-- `fault` is a write behind the end of the buffer. -/
inductive RunPoint where
  | recv
  | returned (ret : Int)
  | fault
  deriving DecidableEq, Repr

/-- `unconsumed` are the received bytes that no served request has consumed. -/
structure RecvLoop where
  req : Bytes := List.replicate 512 0
  recvd : Nat := 0
  unconsumed : Bytes := []
  point : RunPoint := .recv
  deriving DecidableEq, Repr

structure Iteration where
  recv : RecvResult
  nparsed : Int
  parsed : Int
  keepAlive : Bool
  deriving DecidableEq, Repr

namespace RecvLoop

/-- The length `req.size() - recvd`, computed with `size_t`. -/
def asked (s : RecvLoop) : Nat :=
  if s.recvd ≤ s.req.length then s.req.length - s.recvd
  else 2 ^ 64 - (s.recvd - s.req.length)

/-- `recv` has written a chunk at `req.data() + recvd`. -/
def received (s : RecvLoop) (chunk : Bytes) : RecvLoop :=
  { s with
    req := s.req.take s.recvd ++ chunk ++ s.req.drop (s.recvd + chunk.length)
    recvd := s.recvd + chunk.length
    unconsumed := s.unconsumed ++ chunk }

/-- `if (recvd == req.size()) req.resize(req.size() * 2)` at the head of the loop. -/
def growUp (s : RecvLoop) : RecvLoop :=
  if s.recvd = s.req.length then { s with req := s.req ++ List.replicate s.req.length 0 } else s

/-- The move of the rest of the buffer to the front. The count stays as it is if there
is a rest. -/
def moveLeft (s : RecvLoop) (nparsed : Nat) : RecvLoop :=
  if s.recvd > nparsed then { s with req := s.req.drop nparsed }
  else if s.recvd = nparsed then { s with recvd := 0 }
  else s

/-- The rest of an iteration after `Serve` has consumed the first `nparsed` bytes. -/
def served (s : RecvLoop) (nparsed : Nat) (keepAlive : Bool) : RecvLoop :=
  let s := { s with unconsumed := s.unconsumed.drop nparsed }.moveLeft nparsed
  if keepAlive then s.growUp else { s with point := .returned 0 }

/-- `CheckPkg` reports at most the bytes it was given. -/
def checked (s : RecvLoop) (a : Iteration) : Option RecvLoop :=
  if 0 < a.nparsed then
    if (s.recvd : Int) < a.nparsed then none
    else if a.parsed = 0 then some (s.served a.nparsed.toNat a.keepAlive)
    else some { s with point := .returned (-69) }
  else if a.nparsed = 0 then some s.growUp
  else some { s with point := .returned (-74) }

/-- `recv` returns at least one byte and at most as many as were asked for. -/
def iterate (s : RecvLoop) (a : Iteration) : Option RecvLoop :=
  if s.point = .recv then
    match a.recv with
    | .closed => some { s with point := .returned (-77) }
    | .error => some { s with point := .returned (-79) }
    | .data chunk =>
      if chunk = [] ∨ s.asked < chunk.length then none
      else if s.req.length < s.recvd + chunk.length then some { s with point := .fault }
      else (s.received chunk).checked a
  else none

/-- At a call of `recv` the written range lies inside the buffer and is not empty, and
what stands before it are the bytes still to be consumed. -/
def BufferRight (s : RecvLoop) : Prop :=
  match s.point with
  | .recv => s.recvd ≤ s.req.length ∧ 0 < s.asked ∧ s.recvd + s.asked ≤ s.req.length ∧
      s.req.take s.recvd = s.unconsumed
  | .returned _ => True
  | .fault => False

end RecvLoop

/-- The iteration serves a request, has received more than it, and goes on. -/
def Iteration.LeavesRest (a : Iteration) (s : RecvLoop) : Prop :=
  ∃ chunk, a.recv = .data chunk ∧ 0 < a.nparsed ∧ a.nparsed < s.recvd + chunk.length ∧
    a.parsed = 0 ∧ a.keepAlive = true

namespace RecvLoop

variable {s s' : RecvLoop} {a : Iteration} {chunk : Bytes}

theorem bufferRight_recv_iff (hp : s.point = .recv) :
    s.BufferRight ↔ s.recvd < s.req.length ∧ s.req.take s.recvd = s.unconsumed := by
  simp only [BufferRight, hp, asked]
  constructor
  · rintro ⟨hle, hpos, _, htake⟩
    rw [if_pos hle] at hpos
    exact ⟨by omega, htake⟩
  · rintro ⟨hlt, htake⟩
    rw [if_pos hlt.le]
    exact ⟨hlt.le, by omega, by omega, htake⟩

theorem length_received (h : s.recvd + chunk.length ≤ s.req.length) :
    (s.received chunk).req.length = s.req.length := by
  simp only [received, List.length_append, List.length_take, List.length_drop]
  omega

theorem take_received (h : s.recvd + chunk.length ≤ s.req.length)
    (ht : s.req.take s.recvd = s.unconsumed) :
    (s.received chunk).req.take (s.received chunk).recvd = (s.received chunk).unconsumed := by
  have hlen : (s.req.take s.recvd ++ chunk).length = s.recvd + chunk.length := by
    simp only [List.length_append, List.length_take]
    omega
  rw [received, ← ht, ← hlen, List.take_left]

theorem bufferRight_growUp_iff (hp : s.point = .recv) (h0 : 0 < s.req.length) :
    s.growUp.BufferRight ↔ s.recvd ≤ s.req.length ∧ s.req.take s.recvd = s.unconsumed := by
  by_cases hfull : s.recvd = s.req.length
  · have hp' : s.growUp.point = .recv := by simp [growUp, hfull, hp]
    rw [bufferRight_recv_iff hp']
    simp only [growUp, hfull, if_true, List.length_append, List.length_replicate, List.take_left,
      List.take_length, le_refl, true_and, and_iff_right_iff_imp]
    omega
  · have hg : s.growUp = s := by simp [growUp, hfull]
    rw [hg, bufferRight_recv_iff hp]
    exact and_congr_left fun _ => ⟨le_of_lt, fun hle => lt_of_le_of_ne hle hfull⟩

theorem bufferRight_served_iff (hp : s.point = .recv) (hle : s.recvd ≤ s.req.length)
    (ht : s.req.take s.recvd = s.unconsumed) {n : Nat} (hn : 0 < n) (hnr : n ≤ s.recvd)
    (keepAlive : Bool) :
    (s.served n keepAlive).BufferRight ↔ ¬ (n < s.recvd ∧ keepAlive = true) := by
  cases keepAlive with
  | false => simp [served, BufferRight]
  | true =>
    have hlen : s.unconsumed.length = s.recvd := by rw [← ht, List.length_take]; omega
    rcases Nat.lt_or_eq_of_le hnr with hlt | rfl
    · have hmove : s.served n true =
          { s with unconsumed := s.unconsumed.drop n, req := s.req.drop n }.growUp := by
        simp [served, moveLeft, hlt]
      have hpos : 0 < (s.req.drop n).length := by rw [List.length_drop]; omega
      rw [hmove]
      refine (bufferRight_growUp_iff (by exact hp) (by exact hpos)).trans ?_
      refine iff_of_false (fun h => ?_) (fun h => h ⟨hlt, rfl⟩)
      have hcount := congrArg List.length h.2
      have hle' : s.recvd ≤ (s.req.drop n).length := h.1
      simp only [List.length_take, List.length_drop, hlen] at hcount hle'
      omega
    · have hmove : s.served s.recvd true =
          { s with unconsumed := s.unconsumed.drop s.recvd, recvd := 0 }.growUp := by
        simp [served, moveLeft]
      rw [hmove]
      refine (bufferRight_growUp_iff (by exact hp) (by exact hn.trans_le hle)).trans ?_
      exact iff_of_true ⟨Nat.zero_le _, by simp [← hlen]⟩ (by simp)

theorem bufferRight_checked_iff (hp : s.point = .recv) (hle : s.recvd ≤ s.req.length)
    (h0 : 0 < s.req.length) (ht : s.req.take s.recvd = s.unconsumed) (hs : s.checked a = some s') :
    s'.BufferRight ↔
      ¬ (0 < a.nparsed ∧ a.nparsed < s.recvd ∧ a.parsed = 0 ∧ a.keepAlive = true) := by
  simp only [checked] at hs
  split_ifs at hs with hpos hbig hparsed hzero
  · cases hs
    have hn : 0 < a.nparsed.toNat := by omega
    rw [bufferRight_served_iff hp hle ht hn (by omega)]
    simp only [hpos, hparsed, true_and]
    refine not_congr (and_congr_left fun _ => ?_)
    omega
  · cases hs
    simp [BufferRight, hparsed]
  · cases hs
    rw [bufferRight_growUp_iff hp h0]
    simp [hle, ht, hpos]
  · cases hs
    simp [BufferRight, hpos]

theorem checked_of_iterate (h : s.BufferRight) (hr : a.recv = .data chunk)
    (hs : s.iterate a = some s') :
    chunk ≠ [] ∧ s.recvd + chunk.length ≤ s.req.length ∧ s.req.take s.recvd = s.unconsumed ∧
      (s.received chunk).checked a = some s' := by
  simp only [iterate, Option.ite_none_right_eq_some, hr] at hs
  obtain ⟨hp, hs⟩ := hs
  obtain ⟨hlt, ht⟩ := (bufferRight_recv_iff hp).mp h
  simp only [asked, if_pos hlt.le] at hs
  split_ifs at hs with hchunk hover
  · omega
  · rw [not_or] at hchunk
    exact ⟨hchunk.1, by omega, ht, hs⟩

theorem bufferRight_iterate_iff (h : s.BufferRight) (hs : s.iterate a = some s') :
    s'.BufferRight ↔ ¬ a.LeavesRest s := by
  have hp : s.point = .recv := by
    simp only [iterate, Option.ite_none_right_eq_some] at hs
    exact hs.1
  cases hr : a.recv with
  | closed =>
    simp only [iterate, hp, if_true, hr, Option.some.injEq] at hs
    simp [← hs, BufferRight, Iteration.LeavesRest, hr]
  | error =>
    simp only [iterate, hp, if_true, hr, Option.some.injEq] at hs
    simp [← hs, BufferRight, Iteration.LeavesRest, hr]
  | data chunk =>
    obtain ⟨hne, hfit, ht, hs⟩ := checked_of_iterate h hr hs
    have hlen := length_received hfit
    have hle : (s.received chunk).recvd ≤ (s.received chunk).req.length := by rwa [hlen]
    have hpos : 0 < chunk.length := List.length_pos_iff.mpr hne
    refine (bufferRight_checked_iff (by exact hp) hle (by omega) (take_received hfit ht) hs).trans ?_
    simp [Iteration.LeavesRest, hr, received]

theorem checked_of_zero (h : a.nparsed = 0) : s.checked a = some s.growUp := by
  simp [checked, h]

theorem checked_of_all (h0 : 0 < s.recvd) (hn : a.nparsed = s.recvd) (hp : a.parsed = 0)
    (hk : a.keepAlive = true) :
    s.checked a =
      some { s with unconsumed := s.unconsumed.drop s.recvd, recvd := 0 }.growUp := by
  simp [checked, hn, h0, hp, hk, served, moveLeft]

theorem growUp_point (s : RecvLoop) : s.growUp.point = s.point := by
  unfold growUp
  split_ifs <;> rfl

theorem growUp_unconsumed (s : RecvLoop) : s.growUp.unconsumed = s.unconsumed := by
  unfold growUp
  split_ifs <;> rfl

theorem bufferRight_start : BufferRight {} := by
  have hlen : 0 < (List.replicate 512 (0 : UInt8)).length := by
    rw [List.length_replicate]
    decide
  exact (bufferRight_recv_iff rfl).mpr ⟨hlen, rfl⟩

end RecvLoop

/-- Every call of `recv` is safe and finds the unconsumed bytes at the front exactly if
no iteration serves a request, keeps a rest behind it and goes on. -/
theorem buffer_right_iff_no_rest (as : List Iteration) :
    (∀ s, Visits RecvLoop.iterate {} as s → s.BufferRight) ↔
      ∀ s a s', Takes RecvLoop.iterate {} as s a s' → ¬ a.LeavesRest s :=
  forall_visits_iff_forall_takes RecvLoop.bufferRight_start fun _ _ _ h hs =>
    RecvLoop.bufferRight_iterate_iff h hs

/-- A request of 500 bytes and 12 bytes of the next one arrive together. The buffer is
cut to 12 bytes, `recvd` stays 512, and the length asked for wraps around. -/
theorem rest_makes_length_wrap :
    (exec RecvLoop.iterate {} [⟨.data (List.replicate 512 65), 500, 0, true⟩]).map
        (fun s => (s.point, s.recvd, s.req.length, s.asked)) =
      some (.recv, 512, 12, 2 ^ 64 - 500) ∧
    ¬ ∀ as s, Visits RecvLoop.iterate {} as s → s.BufferRight := by
  have he : (exec RecvLoop.iterate {} [⟨.data (List.replicate 512 65), 500, 0, true⟩]).map
      (fun s => (s.point, s.recvd, s.req.length, s.asked)) =
      some (.recv, 512, 12, 2 ^ 64 - 500) := by
    decide +kernel
  refine ⟨he, fun h => ?_⟩
  obtain ⟨s, hs, hq⟩ := Option.map_eq_some_iff.mp he
  simp only [Prod.mk.injEq] at hq
  have hright := h _ s (.of_exec hs)
  rw [RecvLoop.bufferRight_recv_iff hq.1] at hright
  omega

end Tinyco
