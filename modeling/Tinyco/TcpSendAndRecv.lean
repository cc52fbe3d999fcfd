import Tinyco.AcceptLoop
import Tinyco.Bytes

/-! `Frame::TcpSendAndRecv`: the loop that should send the request, and the loop that receives
into the caller's buffer until `CheckPkg` finds a package. -/

namespace Tinyco

inductive ChunkResult where
  | data (chunk : Bytes)
  | closed
  | error (errno : Errno)
  deriving DecidableEq, Repr

/-- A chunk is not empty, not longer than the place given for it, and its length is an `int`. -/
def ChunkResult.fits (len : Nat) : ChunkResult → Bool
  | .data d => decide (0 < d.length ∧ d.length ≤ len ∧ d.length < 2 ^ 31)
  | _ => true

inductive ExchangePoint where
  | setNonBlock
  | send
  | recv
  | returned (ret : Int)
  deriving DecidableEq, Repr

/-- `recvbuf` is the caller's buffer and `recvlen` the number behind its pointer. The last four
fields record the bytes sent, the chunks received, the lengths given to `CheckPkg` and the
places, as offset and length, given to `Frame::recv`. -/
structure TcpExchange where
  point : ExchangePoint := .setNonBlock
  nsend : Int := 0
  recvbuf : Bytes
  recvlen : Nat
  recvd : Nat := 0
  sent : Bytes := []
  chunks : List Bytes := []
  checked : List Nat := []
  asked : List (Nat × Nat) := []
  deriving DecidableEq, Repr

/-- The results of the calls: `send` carries `errno`, `recv` what `CheckPkg` returns if it is
called. -/
inductive ExchangeLabel where
  | setNonBlock (ret : Int)
  | send (ret : Int) (errno : Errno)
  | recv (r : ChunkResult) (check : Int)
  deriving DecidableEq, Repr

namespace TcpExchange

/-- The head of the loop `while (nsend == sendlen)`, a comparison of unsigned numbers. -/
def atSendLoop (sendlen : Nat) (s : TcpExchange) : TcpExchange :=
  { s with point := if toUInt64 s.nsend = sendlen then .send else .recv }

def afterSend (sendbuf : Bytes) (s : TcpExchange) (ret : Int) (e : Errno) : TcpExchange :=
  let s := if ret > 0 then
      { s with nsend := s.nsend + ret
               sent := s.sent ++ (sendbuf.drop s.nsend.toNat).take ret.toNat }
    else s
  if ret < 0 ∧ (e = .eagain ∨ e = .ewouldblock) then s.atSendLoop sendbuf.length
  else if ret < 0 then { s with point := .returned (-1) }
  else if ret = 0 then { s with point := .returned (-1) }
  else s.atSendLoop sendbuf.length

def store (s : TcpExchange) (d : Bytes) : TcpExchange :=
  { s with
    -- at the start of the buffer, whatever was received before
    recvbuf := d ++ s.recvbuf.drop d.length
    recvd := s.recvd + d.length
    chunks := s.chunks ++ [d] }

def afterRecv (s : TcpExchange) (r : ChunkResult) (check : Int) : TcpExchange :=
  match r with
  | .data d =>
    let s := s.store d
    let s := { s with checked := s.checked ++ [s.recvd % 2 ^ 32] }
    if check = 0 then { s with recvlen := s.recvd, point := .returned 0 } else s
  | .closed => { s with point := .returned (-2) }
  | .error e =>
    if e = .eagain ∨ e = .ewouldblock then s else { s with point := .returned (-2) }

def step (sendbuf : Bytes) (s : TcpExchange) : ExchangeLabel → Option TcpExchange
  | .setNonBlock ret =>
    if s.point = .setNonBlock then
      some (if ret < 0 then { s with point := .returned (-1) } else s.atSendLoop sendbuf.length)
    else none
  | .send ret e =>
    if s.point = .send ∧ ret ≤ sendbuf.length - s.nsend then some (s.afterSend sendbuf ret e)
    else none
  | .recv r check =>
    if s.point = .recv ∧ r.fits s.recvlen = true then
      some (({ s with asked := s.asked ++ [(0, s.recvlen)] } : TcpExchange).afterRecv r check)
    else none

structure Right (sendbuf : Bytes) (cap : Nat) (s : TcpExchange) : Prop where
  sent : s.point = .returned 0 → s.sent = sendbuf
  received : s.point = .returned 0 → s.recvbuf.take s.recvlen = s.chunks.flatten
  checked : ∀ n ∈ s.checked, n ≤ cap
  asked : ∀ p ∈ s.asked, p.1 + p.2 ≤ cap

/-- `CheckPkg` finds no package, and is asked about no more than the buffer holds. -/
def Unanswered (cap : Nat) (s : TcpExchange) : ExchangeLabel → Prop
  | .recv (.data d) check => check ≠ 0 ∧ (s.recvd + d.length) % 2 ^ 32 ≤ cap
  | _ => True

/-- Nothing is sent, and the receive loop asks for whole buffers. -/
structure Silent (cap : Nat) (s : TcpExchange) : Prop where
  nsend : s.nsend = 0
  sent : s.sent = []
  not_send : s.point ≠ .send
  recvlen : s.point = .setNonBlock ∨ s.point = .recv → s.recvlen = cap

variable {sendbuf : Bytes} {cap : Nat} {s s' : TcpExchange} {a : ExchangeLabel}

theorem atSendLoop_eq (hbuf : sendbuf ≠ []) (hs : s.nsend = 0) :
    s.atSendLoop sendbuf.length = { s with point := .recv } := by
  have hlen := List.length_pos_iff.mpr hbuf
  have hne : ¬ toUInt64 s.nsend = sendbuf.length := by
    rw [hs]
    exact fun h => by simp [toUInt64] at h; omega
  rw [atSendLoop, if_neg hne]

inductive Moved (s : TcpExchange) : ExchangeLabel → TcpExchange → Prop where
  | blocking (ret : Int) : Moved s (.setNonBlock ret) { s with point := .returned (-1) }
  | nonBlock (ret : Int) (hp : s.point = .setNonBlock) :
    Moved s (.setNonBlock ret) { s with point := .recv }
  | data (d : Bytes) (check : Int) (hp : s.point = .recv) : Moved s (.recv (.data d) check)
    (({ s with asked := s.asked ++ [(0, s.recvlen)] } : TcpExchange).afterRecv (.data d) check)
  | again (r : ChunkResult) (check : Int) (hp : s.point = .recv) (hr : ∀ d, r ≠ .data d) :
    Moved s (.recv r check) { s with asked := s.asked ++ [(0, s.recvlen)] }
  | failed (r : ChunkResult) (check : Int) (hp : s.point = .recv) (hr : ∀ d, r ≠ .data d) :
    Moved s (.recv r check)
      { s with asked := s.asked ++ [(0, s.recvlen)], point := .returned (-2) }

theorem Silent.moved (hbuf : sendbuf ≠ []) (h : s.Silent cap) (hs : s.step sendbuf a = some s') :
    Moved s a s' := by
  cases a with
  | setNonBlock ret =>
    simp only [step, Option.ite_none_right_eq_some, Option.some.injEq] at hs
    obtain ⟨hp, rfl⟩ := hs
    split_ifs
    · exact .blocking ret
    · rw [atSendLoop_eq hbuf h.nsend]
      exact .nonBlock ret hp
  | send ret e =>
    simp only [step, Option.ite_none_right_eq_some] at hs
    exact absurd hs.1.1 h.not_send
  | recv r check =>
    simp only [step, Option.ite_none_right_eq_some, Option.some.injEq] at hs
    obtain ⟨⟨hp, -⟩, rfl⟩ := hs
    cases r with
    | data d => exact .data d check hp
    | closed => exact .failed .closed check hp (by simp)
    | error e =>
      simp only [afterRecv]
      split_ifs
      · exact .again (.error e) check hp (by simp)
      · exact .failed (.error e) check hp (by simp)

theorem Silent.step (hbuf : sendbuf ≠ []) (h : s.Silent cap) (hs : s.step sendbuf a = some s') :
    s'.Silent cap := by
  cases h.moved hbuf hs with
  | blocking ret => exact ⟨h.nsend, h.sent, by simp, by simp⟩
  | nonBlock ret hp => exact ⟨h.nsend, h.sent, by simp, fun _ => h.recvlen (.inl hp)⟩
  | data d check hp =>
    simp only [afterRecv, store]
    split_ifs
    · exact ⟨h.nsend, h.sent, by simp, by simp⟩
    · exact ⟨h.nsend, h.sent, h.not_send, h.recvlen⟩
  | again r check hp hr => exact ⟨h.nsend, h.sent, h.not_send, h.recvlen⟩
  | failed r check hp hr => exact ⟨h.nsend, h.sent, by simp, by simp⟩

theorem Right.asked_again (h : s.Right sendbuf cap) (hi : s.Silent cap) (hp : s.point = .recv) :
    ∀ p ∈ s.asked ++ [(0, s.recvlen)], p.1 + p.2 ≤ cap := by
  intro p hmem
  rcases List.mem_append.mp hmem with hmem | hmem
  · exact h.asked p hmem
  · obtain rfl := List.mem_singleton.mp hmem
    simp [hi.recvlen (.inr hp)]

theorem unanswered_of_no_data {r : ChunkResult} {check : Int} (hr : ∀ d, r ≠ .data d) :
    s.Unanswered cap (.recv r check) := by
  cases r with
  | data d => exact absurd rfl (hr d)
  | closed => trivial
  | error e => trivial

theorem right_step_iff (hbuf : sendbuf ≠ []) (h : s.Right sendbuf cap) (hi : s.Silent cap)
    (hs : s.step sendbuf a = some s') : s'.Right sendbuf cap ↔ s.Unanswered cap a := by
  cases hi.moved hbuf hs with
  | blocking ret => exact iff_of_true ⟨by simp, by simp, h.checked, h.asked⟩ trivial
  | nonBlock ret hp => exact iff_of_true ⟨by simp, by simp, h.checked, h.asked⟩ trivial
  | data d check hp =>
    simp only [Unanswered, afterRecv, store]
    constructor
    · intro hr
      by_cases hc : check = 0
      · rw [if_pos hc] at hr
        exact absurd ((hr.sent rfl).symm.trans hi.sent) hbuf
      · rw [if_neg hc] at hr
        exact ⟨hc, hr.checked _ (by simp)⟩
    · rintro ⟨hc, hle⟩
      rw [if_neg hc]
      refine ⟨by simp [hp], by simp [hp], fun n hn => ?_, h.asked_again hi hp⟩
      rcases List.mem_append.mp hn with hn | hn
      · exact h.checked n hn
      · obtain rfl := List.mem_singleton.mp hn
        exact hle
  | again r check hp hr =>
    exact iff_of_true ⟨h.sent, h.received, h.checked, h.asked_again hi hp⟩ (unanswered_of_no_data hr)
  | failed r check hp hr =>
    exact iff_of_true ⟨by simp, by simp, h.checked, h.asked_again hi hp⟩ (unanswered_of_no_data hr)

theorem silent_start (recvbuf : Bytes) :
    ({ recvbuf := recvbuf, recvlen := cap } : TcpExchange).Silent cap :=
  ⟨rfl, rfl, by simp, fun _ => rfl⟩

theorem right_start (recvbuf : Bytes) :
    ({ recvbuf := recvbuf, recvlen := cap } : TcpExchange).Right sendbuf cap :=
  ⟨by simp, by simp, by simp, by simp⟩

end TcpExchange

/-- With a request that is not empty the call does what it should exactly as long as it does
not find a package and has not received more than the buffer holds. -/
theorem exchange_right_iff (sendbuf recvbuf : Bytes) (as : List ExchangeLabel) (hbuf : sendbuf ≠ []) :
    (∀ s, Visits (TcpExchange.step sendbuf) { recvbuf := recvbuf, recvlen := recvbuf.length } as s →
      s.Right sendbuf recvbuf.length) ↔
    ∀ s a s', Takes (TcpExchange.step sendbuf) { recvbuf := recvbuf, recvlen := recvbuf.length } as
      s a s' → s.Unanswered recvbuf.length a :=
  forall_visits_iff_forall_takes_under (TcpExchange.right_start recvbuf)
    (TcpExchange.silent_start recvbuf) (fun _ _ _ h hs => h.step hbuf hs)
    fun _ _ _ h hi hs => TcpExchange.right_step_iff hbuf h hi hs

theorem exchange_right_without_package : bytes "ping" ≠ [] ∧
    ∀ s, Visits (TcpExchange.step (bytes "ping")) { recvbuf := [0, 0, 0, 0], recvlen := 4 }
      [.setNonBlock 0, .recv (.data (bytes "ab")) 1, .recv .closed 0] s → s.Right (bytes "ping") 4 := by
  have hping : bytes "ping" ≠ [] := by decide
  refine ⟨hping, (exchange_right_iff (bytes "ping") [0, 0, 0, 0] _ hping).mpr fun s a s' h => ?_⟩
  rcases takes_cons_iff.mp h with ⟨rfl, rfl, -⟩ | ⟨v, hv, h⟩
  · trivial
  rcases takes_cons_iff.mp h with ⟨rfl, rfl, -⟩ | ⟨w, -, h⟩
  · obtain rfl := Option.some.inj hv
    exact ⟨by decide, by decide⟩
  rcases takes_cons_iff.mp h with ⟨rfl, rfl, -⟩ | ⟨x, -, h⟩
  · trivial
  · exact (takes_nil _ _ _ h).elim

/-- The answer `abcd` comes in two chunks: the call returns 0, has sent nothing and leaves the
second chunk in the place of the first. -/
theorem exchange_returns_without_sending :
    (exec (TcpExchange.step (bytes "ping")) { recvbuf := [0, 0, 0, 0], recvlen := 4 }
        [.setNonBlock 0, .recv (.data (bytes "ab")) 1, .recv (.data (bytes "cd")) 0]).map
      (fun s => (s.point, s.sent, s.recvbuf.take s.recvlen, s.chunks.flatten)) =
      some (.returned 0, [], [99, 100, 0, 0], bytes "abcd") ∧
    ¬ ∀ sendbuf recvbuf as s, sendbuf ≠ [] →
      Visits (TcpExchange.step sendbuf) { recvbuf := recvbuf, recvlen := recvbuf.length } as s →
      s.Right sendbuf recvbuf.length := by
  have he : exec (TcpExchange.step (bytes "ping")) { recvbuf := [0, 0, 0, 0], recvlen := 4 }
      [.setNonBlock 0, .recv (.data (bytes "ab")) 1, .recv (.data (bytes "cd")) 0] =
      some ⟨.returned 0, 0, [99, 100, 0, 0], 4, 4, [], [bytes "ab", bytes "cd"], [2, 4],
        [(0, 4), (0, 4)]⟩ := by decide
  refine ⟨by rw [he]; decide, fun hall => ?_⟩
  have hright := hall (bytes "ping") [0, 0, 0, 0] _ _ (by decide) (.of_exec he)
  exact absurd (hright.sent rfl) (by decide)

/-- Two chunks that each fit make `CheckPkg` look at twice the buffer. -/
example : (exec (TcpExchange.step (bytes "ping")) { recvbuf := [0, 0, 0, 0], recvlen := 4 }
    [.setNonBlock 0, .recv (.data (bytes "abcd")) 1, .recv (.data (bytes "efgh")) 1]).map
      (fun s => s.checked) = some [4, 8] := by decide

end Tinyco
