import Mathlib.Algebra.BigOperators.Group.Finset.Basic
import Mathlib.Algebra.Order.Group.Multiset
import Tinyco.ListenerShut

/-! The connections and datagrams that come in at the listeners, on their way through the accept
loops of all workers. What a loop has taken is in its variable `fd` or `req` until it takes the next;
`CreateThread` is called with whatever is there. -/

namespace Tinyco

/-- The points at which a loop has something in hand that it has taken from the listener. -/
def SrvPoint.holds : SrvPoint → Bool
  | .unlock _ | .setNonBlock _ | .close _ | .build _ | .createThread _ => true
  | _ => false

inductive Fate where
  | work | dropped
  deriving DecidableEq, Repr

/-- What becomes of the variable of a loop that goes on from one point to another. -/
def SrvPoint.fate : SrvPoint → SrvPoint → Option Fate
  | .createThread _, _ => some .work
  | .close _, _ => some .dropped
  -- the loop is left with the descriptor open
  | .setNonBlock _, .returned _ => some .dropped
  | .build _, .fault => some .dropped
  -- there is no builder for the datagram
  | .unlock _, .loopStart => some .dropped
  | _, _ => none

/-- Whether the last `::recvfrom` of a call has taken a datagram. A call that returns 0 may have
taken an empty one or none. -/
def Frame.recvfromTook : List (SysResult × List EvFlag) → Bool
  | [] => false
  | (.ok _, _) :: _ => true
  | (.err e, evRes) :: rs =>
    if e = .eintr then Frame.recvfromTook rs
    else if e = .eagain ∨ e = .ewouldblock then
      if .timeout ∈ evRes then false
      else if .closed ∈ evRes then false
      else if .read ∈ evRes then Frame.recvfromTook rs
      else false
    else false

/-- The cluster with what has come in at each listener. `item` is the variable of the loop of a
worker, `works` what it held at each return of `CreateThread`, and `dropped` what was closed, left or
died with. -/
structure Intake (n : Nat) (α : Type*) where
  cluster : Cluster n
  queue : Fin n → List α := fun _ => []
  item : Nat → Fin n → Option α := fun _ _ => none
  works : Fin n → List (Option α) := fun _ => []
  dropped : Fin n → List (Option α) := fun _ => []

inductive IntakeLabel (n : Nat) (α : Type*) where
  | arrive (l : Fin n) (x : α)
  | step (a : ClusterLabel n)

namespace Intake

variable {n : Nat} {α : Type*}

def start (n : Nat) (α : Type*) (pids : List Nat) : Intake n α := { cluster := .start n pids }

def setQueue (s : Intake n α) (l : Fin n) (xs : List α) : Intake n α :=
  { s with queue := Function.update s.queue l xs }

def setItem (s : Intake n α) (p : Nat) (l : Fin n) (x : α) : Intake n α :=
  { s with item := Function.update s.item p (Function.update (s.item p) l (some x)) }

def addDropped (s : Intake n α) (l : Fin n) (x : Option α) : Intake n α :=
  { s with dropped := Function.update s.dropped l (s.dropped l ++ [x]) }

def addWork (s : Intake n α) (l : Fin n) (x : Option α) : Intake n α :=
  { s with works := Function.update s.works l (s.works l ++ [x]) }

/-- The kernel gives the caller the first in the queue. -/
def take (s : Intake n α) (p : Nat) (l : Fin n) : Option (Intake n α) :=
  match s.queue l with
  | x :: rest => some ((s.setQueue l rest).setItem p l x)
  | [] => none

/-- A datagram goes into the variable unless it is empty. `size` is its length, which the call
returns. -/
def takeDatagram (size : α → Nat) (s : Intake n α) (p : Nat) (l : Fin n) (ret : Option Int) :
    Option (Intake n α) :=
  match s.queue l with
  | x :: rest =>
    if ret = some (size x : Int) then
      if size x = 0 then some ((s.setQueue l rest).addDropped l (some x)) else s.take p l
    else none
  | [] => none

def takes (size : α → Nat) (s : Intake n α) : ClusterLabel n → Option (Intake n α)
  | .reply p l (.accept rs) =>
    match Frame.accept rs with
    | some fd => if 0 ≤ fd then s.take p l else some s
    | none => some s
  | .reply p l (.recvfrom rs) =>
    if Frame.recvfromTook rs then s.takeDatagram size p l (Frame.recvfrom rs) else some s
  | _ => some s

def record (s : Intake n α) (p : Nat) (l : Fin n) : Option Fate → Intake n α
  | none => s
  | some .work => s.addWork l (s.item p l)
  | some .dropped => s.addDropped l (s.item p l)

def settle (s : Intake n α) (t : Cluster n) : ClusterLabel n → Intake n α
  | .die p =>
    { s with dropped := fun l =>
        s.dropped l ++ if (s.cluster.loops p l).loop.point.holds then [s.item p l] else [] }
  | a =>
    match a.caller with
    | some (p, l) =>
      s.record p l ((s.cluster.loops p l).loop.point.fate (t.loops p l).loop.point)
    | none => s

def step (size : α → Nat) (c : Fin n → SrvWork) (s : Intake n α) : IntakeLabel n α → Option (Intake n α)
  | .arrive l x => some (s.setQueue l (s.queue l ++ [x]))
  | .step a =>
    (s.cluster.step c a).bind fun t =>
      (s.takes size a).map fun s' => { s'.settle t a with cluster := t }

/-- What the worker `p` has in hand on the listener `l`. -/
def held (s : Intake n α) (p : Nat) (l : Fin n) : Multiset (Option α) :=
  if (s.cluster.loops p l).loop.point.holds then {s.item p l} else 0

/-- What is in the hands of the workers. -/
def inHand (s : Intake n α) (l : Fin n) : Multiset (Option α) := ∑ p ∈ s.cluster.live, s.held p l

def outOfHand (s : Intake n α) (l : Fin n) : Multiset (Option α) :=
  ((s.queue l).map some : List (Option α)) + s.works l + s.dropped l

end Intake

/-- The call has returned something that the loop goes on with. -/
def SrvReply.hands : SrvReply → Bool
  | .accept rs => (Frame.accept rs).any fun fd => decide (0 ≤ fd)
  | .recvfrom rs => (Frame.recvfrom rs).any fun ret => decide (0 < ret)
  | _ => false

def ClusterLabel.hands {n : Nat} : ClusterLabel n → Bool
  | .reply _ _ r => r.hands
  | _ => false

theorem Frame.recvfromTook_of_pos {rs : List (SysResult × List EvFlag)} {ret : Int}
    (h : Frame.recvfrom rs = some ret) (hpos : 0 < ret) : Frame.recvfromTook rs = true := by
  fun_induction Frame.recvfrom rs <;> grind [Frame.recvfromTook]

/-- A loop that holds something keeps it until its fate is settled; one that holds nothing comes to
hold what a call hands to it. -/
theorem SrvLoop.next_holds {w : SrvWork} {v v' : SrvLoop} {r : SrvReply}
    (h : v.next w r = some v') :
    if v.point.holds then r.hands = false ∧ v'.point.holds = (v.point.fate v'.point).isNone
    else v.point.fate v'.point = none ∧ v'.point.holds = r.hands := by
  cases hp : v.point <;> cases r <;>
    simp only [next, hp, Option.some.injEq, Option.map_eq_some_iff, reduceCtorEq] at h
  case loopStart.resume =>
    subst h
    cases hw : w.proto <;> by_cases hm : v.accepted > 15 <;>
      simp [atLoopStart, hw, hm, SrvPoint.holds, SrvPoint.fate, SrvReply.hands]
  case tryLock.tryLock ret =>
    subst h
    cases hw : w.proto <;> by_cases hr : ret < 0 <;>
      simp [afterTryLock, hw, hr, SrvPoint.holds, SrvPoint.fate, SrvReply.hands]
  case accept.accept rs =>
    obtain ⟨fd, hfd, rfl⟩ := h
    by_cases hneg : fd < 0 <;>
      simp [afterAccept, hneg, hfd, SrvPoint.holds, SrvPoint.fate, SrvReply.hands]
    omega
  case recvfrom.recvfrom rs =>
    obtain ⟨ret, hret, rfl⟩ := h
    by_cases hpos : ret > 0 <;> by_cases hneg : ret < 0 <;>
      simp [afterRecvfrom, hpos, hneg, hret, SrvPoint.holds, SrvPoint.fate, SrvReply.hands]
  case unlock.unlock =>
    subst h
    cases hw : w.proto <;> cases hb : w.workBuilder <;>
      simp [afterUnlock, hw, hb, SrvPoint.holds, SrvPoint.fate, SrvReply.hands]
  case setNonBlock.setNonBlock fd ret =>
    subst h
    by_cases hr : ret < 0 <;> cases hb : w.workBuilder <;>
      simp [afterSetNonBlock, hr, hb, SrvPoint.holds, SrvPoint.fate, SrvReply.hands]
  case build.build got work =>
    subst h
    cases work <;> simp [afterBuild, SrvPoint.holds, SrvPoint.fate, SrvReply.hands]
  case createThread.resume =>
    subst h
    cases hw : w.proto <;> cases hc : w.ct <;>
      simp [afterCreateThread, hw, hc, SrvPoint.holds, SrvPoint.fate, SrvReply.hands]
  case gracefulShutdown.gracefulShutdown b =>
    subst h
    cases b <;> simp [SrvPoint.holds, SrvPoint.fate, SrvReply.hands]
  all_goals
    subst h
    simp [SrvPoint.holds, SrvPoint.fate, SrvReply.hands]

namespace Cluster

variable {n : Nat} {c : Fin n → SrvWork} {s t : Cluster n} {a : ClusterLabel n} {p : Nat} {l : Fin n}

/-- A step of the loop of one worker on one listener. -/
structure CallerStep (s : Cluster n) (a : ClusterLabel n) (p : Nat) (l : Fin n) (t : Cluster n) :
    Prop where
  mem : p ∈ s.live
  live : t.live = s.live
  others : ∀ q m, (q, m) ≠ (p, l) → t.loops q m = s.loops q m
  holds : if (s.loops p l).loop.point.holds then
      a.hands = false ∧ (t.loops p l).loop.point.holds =
        ((s.loops p l).loop.point.fate (t.loops p l).loop.point).isNone
    else (s.loops p l).loop.point.fate (t.loops p l).loop.point = none ∧
      (t.loops p l).loop.point.holds = a.hands

theorem LoopMove.holds {v : WorkerLoop} (h : LoopMove c s a p l v) :
    if (s.loops p l).loop.point.holds then
      a.hands = false ∧ v.loop.point.holds = ((s.loops p l).loop.point.fate v.loop.point).isNone
    else (s.loops p l).loop.point.fate v.loop.point = none ∧ v.loop.point.holds = a.hands := by
  cases h with
  | read ha hpoint hw =>
    subst ha
    rw [hpoint]
    exact ⟨rfl, rfl⟩
  | @next r v hr hret hv =>
    have hhands : a.hands = r.hands := by
      rcases hr with rfl | ⟨hmutex, hne⟩
      · rfl
      · cases a with
        | reply q m r' => exact absurd rfl (hne q m r')
        | _ => cases r <;> simp [SrvReply.ofMutex] at hmutex <;> rfl
    rw [hhands]
    exact SrvLoop.next_holds hv

theorem callerStep_of_step (ha : a.caller = some (p, l)) (hs : s.step c a = some t) :
    CallerStep s a p l t := by
  cases moved_of_step hs with
  | @loop _ p' w l' v ha' hp hw hv =>
    obtain ⟨rfl, rfl⟩ : p' = p ∧ l' = l := by simpa using ha'.symm.trans ha
    exact ⟨hp, rfl, fun q m hqm => by rw [setLoop_apply, if_neg hqm]; rfl,
      by rw [setLoop_apply, if_pos rfl]; exact hv.holds⟩
  | turn hturn m => rcases hturn with rfl | rfl | rfl | rfl <;> cases ha
  | _ => cases ha

end Cluster

end Tinyco
