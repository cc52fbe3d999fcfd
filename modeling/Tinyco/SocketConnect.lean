import Tinyco.AcceptLoop
import Tinyco.Bytes

/-! `Frame::connect` on a non-blocking socket. The attempt goes on in the kernel while the
coroutine is parked, and also when a signal has interrupted the call that began it. -/

namespace Tinyco

namespace Errno

def eaddrinuse : Errno := .other 98
def eisconn : Errno := .other 106
def ealready : Errno := .other 114
def einprogress : Errno := .other 115

end Errno

/-- How far the connection has come; `soError` is what `SO_ERROR` holds. -/
inductive SockState where
  | idle
  | connecting
  | established
  | failed (soError : Nat)
  deriving DecidableEq, Repr

namespace SockState

def isFailed : SockState → Bool
  | .failed _ => true
  | _ => false

def soError : SockState → Nat
  | .failed e => e
  | _ => 0

/-- What `::connect` may return and leave behind. An interrupted call may have begun the
attempt, and a call during the attempt or after it only says so. -/
def answers : SockState → SysResult → SockState → Bool
  | .idle, .ok _, next => next = .established
  | .idle, .err e, next =>
    if e = .eintr then decide (next = .idle ∨ next = .connecting)
    else if e = .einprogress then decide (next = .connecting)
    else decide (e ≠ .ealready ∧ e ≠ .eisconn) && next.isFailed
  | .connecting, .err e, next => decide ((e = .eintr ∨ e = .ealready) ∧ next = .connecting)
  | .established, .ok _, next => next = .established
  | .established, .err e, next => decide (e = .eisconn ∧ next = .established)
  | .failed _, .err e, next =>
    decide (e ≠ .eintr ∧ e ≠ .einprogress ∧ e ≠ .ealready ∧ e ≠ .eisconn) && next.isFailed
  | _, _, _ => false

theorem answers_ok {k next : SockState} {n : Nat} (h : k.answers (.ok n) next = true) :
    next = .established := by
  cases k <;> simp [answers] at h <;> exact h

theorem answers_err {k next : SockState} {e : Errno} (h : k.answers (.err e) next = true) :
    e = .eintr ∨ e = .einprogress ∨ (e = .ealready ∧ next = .connecting) ∨
      (e = .eisconn ∧ next = .established) ∨
      (e ≠ .eintr ∧ e ≠ .einprogress ∧ e ≠ .ealready ∧ e ≠ .eisconn ∧ next.isFailed = true) := by
  by_cases hintr : e = .eintr
  · exact .inl hintr
  by_cases hprogress : e = .einprogress
  · exact .inr (.inl hprogress)
  cases k <;> simp [answers, hintr, hprogress] at h <;> simp [hintr, hprogress, h]

end SockState

/-- `woken` holds the `ev_res` the coroutine finds when it is scheduled. -/
inductive ConnectPoint where
  | connect
  | parked
  | woken (evRes : List EvFlag)
  | returned (ret : Int)
  deriving DecidableEq, Repr

structure ConnectCall where
  point : ConnectPoint := .connect
  sock : SockState := .idle
  readable : Bool := false
  deriving DecidableEq, Repr

/-- `resume` carries what `getsockopt` returns if it is called. -/
inductive ConnectLabel where
  | connect (r : SysResult) (next : SockState)
  | establish
  | fail (soError : Nat)
  | arrive
  | fire
  | resume (opt : Int)
  deriving DecidableEq, Repr

/-- The low `n` bytes of `old` overwritten by those of `v`. -/
def storeBytes (n v old : Nat) : Nat := v % 256 ^ n + old / 256 ^ n * 256 ^ n

namespace ConnectCall

def afterConnect (s : ConnectCall) : SysResult → ConnectCall
  | .ok _ => { s with point := .returned 0 }
  | .err e =>
    if e = .eintr then { s with point := .connect }
    else if e = .einprogress ∨ e = .eaddrinuse then { s with point := .parked }
    else { s with point := .returned (-1) }

def afterWake (s : ConnectCall) (evRes : List EvFlag) (opt : Int) : ConnectCall :=
  if .timeout ∈ evRes then { s with point := .returned (-1) }
  else if ¬ (.write ∈ evRes ∧ ∀ f ∈ evRes, f = .write) then { s with point := .returned (-1) }
  else if opt < 0 then { s with point := .returned (-1) }
  -- the length given to `getsockopt` is 0
  else if storeBytes 0 s.sock.soError 0 ≠ 0 then { s with point := .returned (-1) }
  else { s with point := .returned 0 }

def ready (s : ConnectCall) : List EvFlag :=
  match s.sock with
  | .established => if s.readable then [.write, .read] else [.write]
  | .failed _ => [.write, .read]
  | _ => []

def isReturned (s : ConnectCall) : Bool :=
  match s.point with
  | .returned _ => true
  | _ => false

def step (s : ConnectCall) : ConnectLabel → Option ConnectCall
  | .connect r next =>
    if s.point = .connect ∧ s.sock.answers r next = true then
      some (({ s with sock := next } : ConnectCall).afterConnect r)
    else none
  | .establish =>
    if s.sock = .connecting ∧ s.isReturned = false then some { s with sock := .established } else none
  | .fail e =>
    if s.sock = .connecting ∧ s.isReturned = false ∧ e ≠ 0 then some { s with sock := .failed e }
    else none
  | .arrive =>
    if s.sock = .established ∧ s.isReturned = false then some { s with readable := true } else none
  | .fire =>
    if s.point = .parked ∧ s.ready ≠ [] then some { s with point := .woken s.ready } else none
  | .resume opt =>
    match s.point with
    | .woken evRes => if 0 ≤ opt then some (s.afterWake evRes opt) else none
    | _ => none

/-- A call that has returned tells how the attempt ended, and one that is parked returns once
there is an end. -/
structure Right (s : ConnectCall) : Prop where
  zero_iff : ∀ ret, s.point = .returned ret → (ret = 0 ↔ s.sock = .established)
  neg_iff : ∀ ret, s.point = .returned ret → (ret = -1 ↔ s.sock.isFailed = true)
  returns : s.point = .parked → s.sock = .established ∨ s.sock.isFailed = true →
    ∃ u, exec step s [.fire, .resume 0] = some u ∧ ∃ ret, u.point = .returned ret

/-- `::connect` does not meet an attempt that an interrupted call has begun, and the coroutine
does not find bytes of the server. -/
def Undisturbed (s : ConnectCall) : ConnectLabel → Prop
  | .connect (.err e) _ => e ≠ .ealready ∧ e ≠ .eisconn
  | .resume _ => ∀ evRes, s.point = .woken evRes → s.sock = .established → .read ∉ evRes
  | _ => True

def Wakeful (s : ConnectCall) : Prop :=
  ∀ evRes, s.point = .woken evRes →
    (s.sock = .established ∧ (evRes = [.write] ∨ evRes = [.write, .read])) ∨
      (s.sock.isFailed = true ∧ evRes = [.write, .read])

variable {s s' : ConnectCall} {a : ConnectLabel} {r : SysResult} {evRes : List EvFlag} {opt ret : Int}

theorem afterConnect_sock (s : ConnectCall) (r : SysResult) : (s.afterConnect r).sock = s.sock := by
  cases r with
  | ok n => rfl
  | err e =>
    simp only [afterConnect]
    split_ifs <;> rfl

theorem afterConnect_ne_woken (s : ConnectCall) (r : SysResult) (evRes : List EvFlag) :
    (s.afterConnect r).point ≠ .woken evRes := by
  cases r with
  | ok n => simp [afterConnect]
  | err e =>
    simp only [afterConnect]
    split_ifs <;> simp

theorem afterWake_sock (s : ConnectCall) (evRes : List EvFlag) (opt : Int) :
    (s.afterWake evRes opt).sock = s.sock := by
  simp only [afterWake]
  split_ifs <;> rfl

/-- `getsockopt` stores nothing, so that only the mask tells a failure. -/
theorem afterWake_point (s : ConnectCall) (evRes : List EvFlag) (hopt : 0 ≤ opt) :
    (s.afterWake evRes opt).point =
      .returned (if .write ∈ evRes ∧ ∀ f ∈ evRes, f = .write then 0 else -1) := by
  have hstored : storeBytes 0 s.sock.soError 0 = 0 := by simp [storeBytes, Nat.mod_one]
  by_cases hwrite : .write ∈ evRes ∧ ∀ f ∈ evRes, f = .write
  · have htimeout : .timeout ∉ evRes := fun ht => absurd (hwrite.2 _ ht) (by decide)
    rw [afterWake, if_neg htimeout, if_neg (not_not.mpr hwrite), if_neg (not_lt.mpr hopt),
      if_neg (not_not.mpr hstored), if_pos hwrite]
  · by_cases htimeout : .timeout ∈ evRes <;> simp [afterWake, htimeout, hwrite]

inductive Moved (s : ConnectCall) : ConnectLabel → ConnectCall → Prop where
  | connect (r : SysResult) (next : SockState) (ha : s.sock.answers r next = true) :
    Moved s (.connect r next) (({ s with sock := next } : ConnectCall).afterConnect r)
  | establish (hk : s.sock = .connecting) (hr : s.isReturned = false) :
    Moved s .establish { s with sock := .established }
  | fail (e : Nat) (hk : s.sock = .connecting) (hr : s.isReturned = false) :
    Moved s (.fail e) { s with sock := .failed e }
  | arrive (hr : s.isReturned = false) : Moved s .arrive { s with readable := true }
  | fire (hready : s.ready ≠ []) : Moved s .fire { s with point := .woken s.ready }
  | resume (evRes : List EvFlag) (opt : Int) (hp : s.point = .woken evRes) (hopt : 0 ≤ opt) :
    Moved s (.resume opt) (s.afterWake evRes opt)

theorem moved_of_step (hs : s.step a = some s') : Moved s a s' := by
  cases a with
  | connect r next =>
    simp only [step, Option.ite_none_right_eq_some, Option.some.injEq] at hs
    obtain ⟨⟨-, ha⟩, rfl⟩ := hs
    exact .connect r next ha
  | establish =>
    simp only [step, Option.ite_none_right_eq_some, Option.some.injEq] at hs
    obtain ⟨⟨hk, hr⟩, rfl⟩ := hs
    exact .establish hk hr
  | fail e =>
    simp only [step, Option.ite_none_right_eq_some, Option.some.injEq] at hs
    obtain ⟨⟨hk, hr, -⟩, rfl⟩ := hs
    exact .fail e hk hr
  | arrive =>
    simp only [step, Option.ite_none_right_eq_some, Option.some.injEq] at hs
    obtain ⟨⟨-, hr⟩, rfl⟩ := hs
    exact .arrive hr
  | fire =>
    simp only [step, Option.ite_none_right_eq_some, Option.some.injEq] at hs
    obtain ⟨⟨-, hready⟩, rfl⟩ := hs
    exact .fire hready
  | resume opt =>
    simp only [step] at hs
    split at hs
    · next evRes hp =>
      simp only [Option.ite_none_right_eq_some, Option.some.injEq] at hs
      obtain ⟨hopt, rfl⟩ := hs
      exact .resume evRes opt hp hopt
    · cases hs

theorem ready_cases (h : s.ready ≠ []) :
    (s.sock = .established ∧ (s.ready = [.write] ∨ s.ready = [.write, .read])) ∨
      (s.sock.isFailed = true ∧ s.ready = [.write, .read]) := by
  cases hk : s.sock with
  | idle => simp [ready, hk] at h
  | connecting => simp [ready, hk] at h
  | established => cases hr : s.readable <;> simp [ready, hk, hr]
  | failed e => simp [ready, hk, SockState.isFailed]

theorem Wakeful.step (h : s.Wakeful) (hs : s.step a = some s') : s'.Wakeful := by
  cases moved_of_step hs with
  | connect r next ha => exact fun ev hp => (afterConnect_ne_woken _ _ _ hp).elim
  | establish hk hr =>
    intro ev hp
    rcases h ev hp with ⟨he, -⟩ | ⟨hf, -⟩
    · simp [he] at hk
    · simp [hk, SockState.isFailed] at hf
  | fail e hk hr =>
    intro ev hp
    rcases h ev hp with ⟨he, -⟩ | ⟨hf, -⟩
    · simp [he] at hk
    · simp [hk, SockState.isFailed] at hf
  | arrive hr => exact h
  | fire hready =>
    intro ev hp
    obtain rfl : s.ready = ev := by simpa using hp
    exact ready_cases hready
  | resume evRes opt hp hopt =>
    intro ev hp'
    rw [afterWake_point s evRes hopt] at hp'
    cases hp'

theorem returns_of_settled (hp : s.point = .parked)
    (hk : s.sock = .established ∨ s.sock.isFailed = true) :
    ∃ u, exec step s [.fire, .resume 0] = some u ∧ ∃ ret, u.point = .returned ret := by
  have hready : s.ready ≠ [] := by
    rcases hk with hk | hk
    · cases hr : s.readable <;> simp [ready, hk, hr]
    · cases hsock : s.sock <;> simp [ready, hsock, SockState.isFailed] at hk ⊢
  refine ⟨({ s with point := .woken s.ready } : ConnectCall).afterWake s.ready 0, ?_, _,
    afterWake_point _ _ le_rfl⟩
  simp [exec_cons, step, hp, hready]

theorem right_of_not_returned (h : s.isReturned = false) : s.Right := by
  have hne (ret : Int) : s.point ≠ .returned ret := fun hp => by simp [isReturned, hp] at h
  exact ⟨fun ret hp => (hne ret hp).elim, fun ret hp => (hne ret hp).elim, returns_of_settled⟩

theorem right_iff_of_returned (hp : s.point = .returned ret) :
    s.Right ↔ (ret = 0 ↔ s.sock = .established) ∧ (ret = -1 ↔ s.sock.isFailed = true) := by
  constructor
  · intro h
    exact ⟨h.zero_iff ret hp, h.neg_iff ret hp⟩
  · rintro ⟨hzero, hneg⟩
    refine ⟨fun ret' hp' => ?_, fun ret' hp' => ?_, fun hparked => by simp [hp] at hparked⟩
    all_goals
      obtain rfl : ret = ret' := by simpa [hp] using hp'
      assumption

theorem right_afterConnect_iff {next : SockState} (ha : s.sock.answers r next = true) :
    (({ s with sock := next } : ConnectCall).afterConnect r).Right ↔
      s.Undisturbed (.connect r next) := by
  cases r with
  | ok n =>
    obtain rfl := SockState.answers_ok ha
    refine iff_of_true ((right_iff_of_returned rfl).mpr ?_) trivial
    simp [afterConnect, SockState.isFailed]
  | err e =>
    rcases SockState.answers_err ha with rfl | rfl | ⟨rfl, rfl⟩ | ⟨rfl, rfl⟩ | ⟨he, hp, ha', hc, hf⟩
    · exact iff_of_true (right_of_not_returned rfl) ⟨by decide, by decide⟩
    · exact iff_of_true (right_of_not_returned rfl) ⟨by decide, by decide⟩
    · refine iff_of_false (fun h => ?_) fun h => h.1 rfl
      simpa [afterConnect_sock, SockState.isFailed] using h.neg_iff (-1) rfl
    · refine iff_of_false (fun h => ?_) fun h => h.2 rfl
      simpa [afterConnect_sock, SockState.isFailed] using h.neg_iff (-1) rfl
    · refine iff_of_true ?_ ⟨ha', hc⟩
      have hne : next ≠ .established := fun hn => by simp [hn, SockState.isFailed] at hf
      by_cases hinuse : e = .eaddrinuse
      · exact right_of_not_returned (by simp [afterConnect, hinuse, isReturned, Errno.eaddrinuse])
      · have hret : (({ s with sock := next } : ConnectCall).afterConnect (.err e)).point =
            .returned (-1) := by simp [afterConnect, he, hp, hinuse]
        rw [right_iff_of_returned hret, afterConnect_sock]
        simp [hne, hf]

theorem right_afterWake_iff (hw : s.Wakeful) (hp : s.point = .woken evRes) (hopt : 0 ≤ opt) :
    (s.afterWake evRes opt).Right ↔ (s.sock = .established → .read ∉ evRes) := by
  rw [right_iff_of_returned (afterWake_point s evRes hopt), afterWake_sock]
  rcases hw evRes hp with ⟨hk, rfl | rfl⟩ | ⟨hk, rfl⟩
  · simp [hk, SockState.isFailed]
  · simp [hk, SockState.isFailed]
  · have hne : s.sock ≠ .established := fun he => by simp [he, SockState.isFailed] at hk
    simp [hk, hne]

theorem right_step_iff (hw : s.Wakeful) (hs : s.step a = some s') :
    s'.Right ↔ s.Undisturbed a := by
  cases moved_of_step hs with
  | connect r next ha => exact right_afterConnect_iff ha
  | establish hk hr => exact iff_of_true (right_of_not_returned hr) trivial
  | fail e hk hr => exact iff_of_true (right_of_not_returned hr) trivial
  | arrive hr => exact iff_of_true (right_of_not_returned hr) trivial
  | fire hready => exact iff_of_true (right_of_not_returned rfl) trivial
  | resume evRes opt hp hopt =>
    rw [right_afterWake_iff hw hp hopt]
    constructor
    · intro hread ev hp'
      obtain rfl : evRes = ev := by simpa [hp] using hp'
      exact hread
    · exact fun hread => hread evRes hp

end ConnectCall

/-- `Frame::connect` tells how the attempt ended exactly if the event does not find bytes of the
server beside the connection and no interrupted call leaves an attempt to the next one. -/
theorem connect_right_iff (as : List ConnectLabel) :
    (∀ s, Visits ConnectCall.step {} as s → s.Right) ↔
      ∀ s a s', Takes ConnectCall.step {} as s a s' → s.Undisturbed a :=
  forall_visits_iff_forall_takes_under (ConnectCall.right_of_not_returned rfl)
    (I := ConnectCall.Wakeful) (fun _ hp => by simp at hp) (fun _ _ _ h hs => h.step hs)
    fun _ _ _ _ hw hs => ConnectCall.right_step_iff hw hs

/-- The server speaks first: the connection is there and the call returns −1. -/
theorem greeted_connection_refused :
    (exec ConnectCall.step {} [.connect (.err .einprogress) .connecting, .establish, .arrive, .fire,
        .resume 0]).map (fun s => (s.point, s.sock)) = some (.returned (-1), .established) ∧
    ¬ ∀ as s ret, Visits ConnectCall.step {} as s → s.point = .returned ret →
      (ret = 0 ↔ s.sock = .established) := by
  have he : exec ConnectCall.step {} [.connect (.err .einprogress) .connecting, .establish, .arrive,
      .fire, .resume 0] = some ⟨.returned (-1), .established, true⟩ := by decide
  refine ⟨by rw [he]; rfl, fun hall => ?_⟩
  exact absurd ((hall _ _ _ (.of_exec he) rfl).mpr rfl) (by decide)

end Tinyco
