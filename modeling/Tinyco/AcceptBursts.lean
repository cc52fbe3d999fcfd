import Tinyco.ListenerOpen

/-! How much a worker takes from a listener in a row: the TCP loop sleeps after sixteen rounds, the
UDP loop goes on as long as there are datagrams. -/

namespace Tinyco

def SrvPoint.sleeps : SrvPoint → Bool
  | .herdSleep | .lockSleep _ => true
  | _ => false

/-- The points of a round that has still to call `accept`. -/
def SrvPoint.beforeAccept : SrvPoint → Bool
  | .tryLock | .accept => true
  | _ => false

def SrvReply.ofAccept : SrvReply → Bool
  | .accept _ => true
  | _ => false

namespace SrvLoop

/-- The calls of `accept` that a TCP loop can come to before its next sleep against the herd. -/
def left (v : SrvLoop) : Nat := if v.point.beforeAccept then 17 - v.accepted else 16 - v.accepted

/-- `accepted++` has counted the round that the loop is in. -/
structure Paced (v : SrvLoop) : Prop where
  round : v.point.beforeAccept = true → 1 ≤ v.accepted
  count : v.point ≠ .herdSleep → v.accepted ≤ 16

variable {w : SrvWork} {v v' : SrvLoop} {r : SrvReply}

theorem Paced.left_le (h : v.Paced) : v.left ≤ 16 := by
  have hround := h.round
  unfold left
  split_ifs with hp
  · have hpos := hround hp
    omega
  · omega

/-- A loop that has come behind its call of `accept`, or not yet to the next round. -/
theorem paced_of_not_beforeAccept (hp : v.point.beforeAccept = false) (hle : v.accepted ≤ 16) :
    v.Paced ∧ v.left = 16 - v.accepted := by
  refine ⟨⟨fun h => absurd h (by simp [hp]), fun _ => hle⟩, ?_⟩
  simp [left, hp]

theorem paced_atLoopStart (hw : w.proto = .tcp) (hle : v.accepted ≤ 16) :
    (v.atLoopStart w).Paced ∧ (v.atLoopStart w).left = 16 - v.accepted := by
  by_cases hgt : v.accepted > 15
  · obtain hv : v.accepted = 16 := by omega
    simp only [atLoopStart, hw, hv]
    exact ⟨⟨fun h => Bool.noConfusion h, fun h => absurd rfl h⟩, rfl⟩
  · simp only [atLoopStart, hw, if_neg hgt]
    refine ⟨⟨fun _ => Nat.le_add_left _ _, fun _ => ?_⟩, ?_⟩
    · simp only
      omega
    · simp only [left, SrvPoint.beforeAccept, if_true]
      omega

/-- A step of a TCP loop that is not asleep against the herd: a call of `accept` uses up one of those
that are left. -/
theorem Paced.next (hw : w.proto = .tcp) (h : v.Paced) (hs : v.next w r = some v') :
    v'.Paced ∧ (v.point ≠ .herdSleep → v'.left + (if r.ofAccept then 1 else 0) ≤ v.left) := by
  have hround := h.round
  have hcount := h.count
  have hout (hp : v.point ≠ .herdSleep) (hr : r.ofAccept = false)
      (hp' : v'.point.beforeAccept = false) (hacc : v'.accepted = v.accepted) :
      v'.Paced ∧ v'.left + (if r.ofAccept then 1 else 0) ≤ v.left := by
    obtain ⟨hpaced, hleft⟩ := paced_of_not_beforeAccept hp' (hacc ▸ hcount hp)
    refine ⟨hpaced, ?_⟩
    rw [hleft, hacc, hr, left, if_neg Bool.false_ne_true]
    split_ifs <;> omega
  cases hp : v.point <;> cases r <;>
    simp only [SrvLoop.next, hp, Option.some.injEq, reduceCtorEq] at hs
  case loopStart.resume =>
    obtain ⟨hpaced, hleft⟩ := paced_atLoopStart hw (hcount (by simp [hp]))
    subst hs
    refine ⟨hpaced, fun _ => ?_⟩
    rw [hleft, left, hp]
    simp [SrvPoint.beforeAccept, SrvReply.ofAccept]
  case herdSleep.resume =>
    subst hs
    exact ⟨⟨fun h => Bool.noConfusion h, fun _ => Nat.zero_le _⟩, fun h => absurd rfl h⟩
  case tryLock.tryLock ret =>
    by_cases hneg : ret < 0
    · refine (hout (by simp [hp]) rfl ?_ ?_).imp_right fun hle _ => hle <;> subst hs <;>
        simp [afterTryLock, hw, hneg, SrvPoint.beforeAccept]
    · have hle := hcount (by simp [hp])
      have hpos := hround (by simp [hp, SrvPoint.beforeAccept])
      subst hs
      simp only [afterTryLock, hw, if_neg hneg]
      refine ⟨⟨fun _ => hpos, fun _ => hle⟩, fun _ => ?_⟩
      simp [left, hp, SrvPoint.beforeAccept, SrvReply.ofAccept]
  case accept.accept rs =>
    obtain ⟨fd, -, rfl⟩ := Option.map_eq_some_iff.mp hs
    have hle := hcount (by simp [hp])
    have hp' : (v.afterAccept fd).point.beforeAccept = false := by
      by_cases hfd : fd < 0 <;> simp [afterAccept, hfd, SrvPoint.beforeAccept]
    obtain ⟨hpaced, hleft⟩ := paced_of_not_beforeAccept hp' (show v.accepted ≤ 16 from hle)
    refine ⟨hpaced, fun _ => ?_⟩
    rw [hleft, left, hp]
    simp only [SrvReply.ofAccept, SrvPoint.beforeAccept, if_true]
    change 16 - v.accepted + 1 ≤ _
    omega
  case recvfrom.recvfrom rs =>
    obtain ⟨m, -, rfl⟩ := Option.map_eq_some_iff.mp hs
    refine (hout (by simp [hp]) rfl ?_ rfl).imp_right fun hle _ => hle
    simp only [afterRecvfrom]
    split_ifs <;> rfl
  all_goals refine (hout (by simp [hp]) rfl ?_ ?_).imp_right fun hle _ => hle <;> subst hs
  case unlock.unlock.refine_1 got ret => simp [afterUnlock, hw, SrvPoint.beforeAccept]
  case setNonBlock.setNonBlock.refine_1 fd ret =>
    simp only [afterSetNonBlock]
    split_ifs <;> rfl
  case build.build.refine_1 got work => cases work <;> rfl
  case createThread.resume.refine_1 got =>
    simp only [afterCreateThread, hw]
    split_ifs <;> rfl
  case gracefulShutdown.gracefulShutdown.refine_1 b => cases b <;> rfl
  all_goals rfl

theorem paced_start : Paced {} := ⟨fun h => Bool.noConfusion h, fun _ => Nat.zero_le _⟩

end SrvLoop

/-- The label is the return of a call of `accept` that the worker makes on the listener. -/
def ClusterLabel.acceptOf {n : Nat} (p : Nat) (l : Fin n) : ClusterLabel n → Bool
  | .reply q m r => decide (q = p ∧ m = l) && r.ofAccept
  | _ => false

namespace Cluster

variable {n : Nat} {c : Fin n → SrvWork} {s t : Cluster n} {a : ClusterLabel n}
  {bs : List (ClusterLabel n)} {p : Nat} {l : Fin n}

section Tcp

variable (hw : (c l).proto = .tcp)

include hw

theorem paced_step (h : (s.loops p l).loop.Paced) (hs : s.step c a = some t) :
    (t.loops p l).loop.Paced := by
  obtain ⟨-, hloop⟩ := step_loop p l hs
  generalize t.loops p l = v at hloop ⊢
  cases hloop with
  | same => exact h
  | read => exact h
  | next _ _ _ hv => exact (h.next hw hv).1
  | new => exact SrvLoop.paced_start

theorem paced_run {pids : List Nat} {as : List (ClusterLabel n)}
    (h : exec (step c) (start n pids) as = some s) (p : Nat) : (s.loops p l).loop.Paced :=
  (Visits.of_exec h).invariant (I := fun u => (u.loops p l).loop.Paced) SrvLoop.paced_start
    fun _ _ _ => paced_step hw

theorem left_step (h : (s.loops p l).loop.Paced) (hlive : p ∈ s.live)
    (hsleep : (s.loops p l).loop.point ≠ .herdSleep) (hs : s.step c a = some t) :
    (t.loops p l).loop.left + (if a.acceptOf p l then 1 else 0) ≤ (s.loops p l).loop.left := by
  by_cases ha : a.acceptOf p l = true
  · cases a <;> simp only [ClusterLabel.acceptOf, Bool.and_eq_true, decide_eq_true_eq,
      Bool.false_eq_true] at ha
    case reply q m r =>
      obtain ⟨⟨rfl, rfl⟩, hr⟩ := ha
      simp only [step, Option.ite_none_right_eq_some] at hs
      obtain ⟨v, hv, rfl⟩ := Option.map_eq_some_iff.mp hs.2
      have hleft := (h.next hw hv).2 hsleep
      rw [loops_setLoop]
      simpa [ClusterLabel.acceptOf, hr] using hleft
  · obtain ⟨-, hloop⟩ := step_loop p l hs
    rw [if_neg ha, Nat.add_zero]
    generalize t.loops p l = v at hloop ⊢
    cases hloop with
    | same => exact le_rfl
    | read => exact le_rfl
    | next _ _ _ hv => exact (Nat.le_add_right _ _).trans ((h.next hw hv).2 hsleep)
    | new hp => exact absurd hlive hp

/-- The calls of `accept` of a stretch without a sleep against the herd. -/
theorem countP_acceptOf_le (h : (s.loops p l).loop.Paced) (hlive : p ∈ s.live) (hdie : .die p ∉ bs)
    (hsleep : ∀ x, Visits (step c) s bs x → (x.loops p l).loop.point ≠ .herdSleep)
    (hs : exec (step c) s bs = some t) :
    bs.countP (ClusterLabel.acceptOf p l) + (t.loops p l).loop.left ≤ (s.loops p l).loop.left := by
  induction bs generalizing s with
  | nil =>
    obtain rfl : s = t := Option.some.inj hs
    simp
  | cons a bs ih =>
    obtain ⟨u, hu, hs⟩ := Option.bind_eq_some_iff.mp hs
    obtain ⟨hhere, hrest⟩ := (forall_visits_cons hu).mp hsleep
    obtain ⟨hkeep, -⟩ := step_loop p l hu
    rw [List.mem_cons, not_or] at hdie
    have hhead := left_step hw h hlive hhere hu
    have htail := ih (paced_step hw h hu) (hkeep hlive (Ne.symm hdie.1)) hdie.2 hrest hs
    rw [List.countP_cons]
    omega

end Tcp

section Udp

/-- The state with another word and another loop of one worker on one listener. -/
def placed (s : Cluster n) (p : Nat) (l : Fin n) (w : Nat) (v : WorkerLoop) : Cluster n :=
  (s.setWord l w).setLoop p l v

theorem loops_placed (s : Cluster n) (p : Nat) (l : Fin n) (w : Nat) (v : WorkerLoop) :
    (s.placed p l w v).loops p l = v := loops_setLoop _ _ _ _

theorem words_placed (s : Cluster n) (p : Nat) (l : Fin n) (w : Nat) (v : WorkerLoop) :
    (s.placed p l w v).words l = w := by
  simp [placed, setLoop, setWord]

theorem setLoop_placed (s : Cluster n) (p : Nat) (l : Fin n) (w w' : Nat) (v v' : WorkerLoop) :
    ((s.placed p l w v).setWord l w').setLoop p l v' = s.placed p l w' v' := by
  simp [placed, setLoop, setWord]

theorem goOn_placed {w w' : Nat} {v : WorkerLoop} {u : SrvLoop} {r : SrvReply}
    (hu : v.loop.next (c l) r = some u) :
    ((s.placed p l w v).setWord l w').goOn c p l r = some (s.placed p l w' { loop := u }) := by
  have hloops : ((s.placed p l w v).setWord l w').loops p l = v := loops_placed s p l w v
  rw [goOn, hloops, hu, Option.map_some, setLoop_placed]

theorem step_reply_placed {w : Nat} {v : WorkerLoop} {u : SrvLoop} {r : SrvReply} (hp : p ∈ s.live)
    (hr : r.ofMutex = false) (hu : v.loop.next (c l) r = some u) :
    (s.placed p l w v).step c (.reply p l r) = some (s.placed p l w { loop := u }) := by
  have hlive : p ∈ (s.placed p l w v).live := hp
  have hself := setWord_self (s.placed p l w v) l
  rw [words_placed] at hself
  rw [step, if_pos ⟨hlive, hr⟩, ← hself]
  exact goOn_placed hu

/-- The run leads from one state to another, and the loop of the worker never sleeps in it. -/
def Awake (c : Fin n → SrvWork) (p : Nat) (l : Fin n) (s : Cluster n) (bs : List (ClusterLabel n))
    (t : Cluster n) : Prop :=
  exec (step c) s bs = some t ∧
    ∀ x, Visits (step c) s bs x → (x.loops p l).loop.point.sleeps = false

theorem Awake.nil (h : (s.loops p l).loop.point.sleeps = false) : Awake c p l s [] s :=
  ⟨rfl, fun _ hx => visits_nil_iff.mp hx ▸ h⟩

theorem Awake.cons {u : Cluster n} (h : (s.loops p l).loop.point.sleeps = false)
    (hs : s.step c a = some u) (hu : Awake c p l u bs t) : Awake c p l s (a :: bs) t := by
  refine ⟨?_, (forall_visits_cons hs).mpr ⟨h, hu.2⟩⟩
  rw [exec_cons, hs, Option.bind_some, hu.1]

theorem Awake.append {u : Cluster n} {as : List (ClusterLabel n)} (h : Awake c p l s as u)
    (hu : Awake c p l u bs t) : Awake c p l s (as ++ bs) t := by
  induction as generalizing s with
  | nil =>
    obtain rfl : s = u := Option.some.inj h.1
    exact hu
  | cons a as ih =>
    obtain ⟨v, hv, hexec⟩ := Option.bind_eq_some_iff.mp h.1
    obtain ⟨hhere, hrest⟩ := (forall_visits_cons hv).mp h.2
    exact .cons hhere hv (ih ⟨hexec, hrest⟩)

/-- A round of the UDP loop that gets the lock and a datagram of `size` bytes. -/
def datagramRound (p : Nat) (l : Fin n) (size : Nat) : List (ClusterLabel n) :=
  [.reply p l .resume, .tryLockRead p l, .tryLockCas p l, .reply p l (.recvfrom [(.ok size, [])]),
    .unlock p l, .reply p l (.build true), .reply p l .resume]

/-- The round ends where it began. -/
theorem awake_datagramRound (hw : (c l).proto = .udp) (hb : (c l).workBuilder = true)
    (hp : p ∈ s.live) {size : Nat} (hsize : 0 < size) :
    Awake c p l (s.placed p l 0 {}) (datagramRound p l size) (s.placed p l 0 {}) := by
  have hlive (w : Nat) (v : WorkerLoop) : p ∈ (s.placed p l w v).live := hp
  have hawake {w : Nat} {v : WorkerLoop} (hv : v.loop.point.sleeps = false) :
      ((s.placed p l w v).loops p l).loop.point.sleeps = false := by rw [loops_placed, hv]
  refine .cons (hawake rfl) (step_reply_placed hp rfl (u := { point := .tryLock }) ?_) ?_
  · simp [SrvLoop.next, SrvLoop.atLoopStart, hw]
  refine .cons (hawake rfl) (u := s.placed p l 0 ⟨{ point := .tryLock }, true⟩) ?_ ?_
  · rw [step, if_pos (hlive _ _), tryLockRead, loops_placed, words_placed]
    simp [placed, setLoop_setLoop]
  refine .cons (hawake rfl) (u := s.placed p l p { loop := { point := .recvfrom, owned := true } }) ?_ ?_
  · rw [step, if_pos (hlive _ _), tryLockCas, loops_placed, words_placed, if_pos rfl]
    exact goOn_placed (by simp [SrvLoop.next, SrvLoop.afterTryLock, hw, atomicCompareAndSet])
  refine .cons (hawake rfl) (step_reply_placed hp rfl
    (u := { point := .unlock size, owned := true }) ?_) ?_
  · simp [SrvLoop.next, Frame.recvfrom, SrvLoop.afterRecvfrom, hsize.ne']
  refine .cons (hawake rfl) (u := s.placed p l 0 { loop := { point := .build size } }) ?_ ?_
  · rw [step, if_pos (hlive _ _), unlock, words_placed]
    simp only [atomicCompareAndSet, if_true]
    exact goOn_placed (by simp [SrvLoop.next, SrvLoop.afterUnlock, hw, hb])
  refine .cons (hawake rfl) (step_reply_placed hp rfl (u := { point := .createThread size }) rfl) ?_
  refine .cons (hawake rfl) (step_reply_placed hp rfl (u := {}) ?_) (.nil (hawake rfl))
  simp [SrvLoop.next, SrvLoop.afterCreateThread, hw]

theorem awake_datagramRounds (hw : (c l).proto = .udp) (hb : (c l).workBuilder = true)
    (hp : p ∈ s.live) {sizes : List Nat} (hsizes : ∀ k ∈ sizes, 0 < k) :
    Awake c p l (s.placed p l 0 {}) (sizes.flatMap (datagramRound p l)) (s.placed p l 0 {}) := by
  induction sizes with
  | nil => exact .nil (by rw [loops_placed]; rfl)
  | cons k sizes ih =>
    rw [List.forall_mem_cons] at hsizes
    exact (awake_datagramRound hw hb hp hsizes.1).append (ih hsizes.2)

theorem placed_start (pids : List Nat) (p : Nat) (l : Fin n) :
    (start n pids).placed p l 0 {} = start n pids := by
  simp [placed, start, setLoop, setWord]

end Udp

end Cluster

/-- A worker takes at most sixteen connections of a TCP listener before it sleeps against the herd,
from any reachable state on and whatever the others do. Of a UDP listener it takes datagrams for as
long as they come, without a sleep. -/
theorem accept_bursts {n : Nat} (c : Fin n → SrvWork) (pids : List Nat) (p : Nat) (l : Fin n) :
    ((c l).proto = .tcp → ∀ as bs s t, exec (Cluster.step c) (Cluster.start n pids) as = some s →
      exec (Cluster.step c) s bs = some t → p ∈ s.live → .die p ∉ bs →
      (∀ x, Visits (Cluster.step c) s bs x → (x.loops p l).loop.point ≠ .herdSleep) →
        bs.countP (ClusterLabel.acceptOf p l) ≤ 16) ∧
    ((c l).proto = .udp → (c l).workBuilder = true → p ∈ pids →
      ∀ sizes : List Nat, (∀ k ∈ sizes, 0 < k) →
        Cluster.Awake c p l (.start n pids) (sizes.flatMap (Cluster.datagramRound p l))
          (.start n pids)) := by
  refine ⟨fun hw as bs s t hs ht hlive hdie hsleep => ?_, fun hw hb hp sizes hsizes => ?_⟩
  · have hpaced := Cluster.paced_run hw hs p
    have hcount := Cluster.countP_acceptOf_le hw hpaced hlive hdie hsleep ht
    have hleft := hpaced.left_le
    omega
  · have hlive : p ∈ (Cluster.start n pids).live := List.mem_toFinset.mpr hp
    have hrounds := Cluster.awake_datagramRounds hw hb hlive hsizes
    rwa [Cluster.placed_start] at hrounds

/-- A round of the TCP loop that gets the lock and a connection. -/
def connectionRound {n : Nat} (p : Nat) (l : Fin n) : List (ClusterLabel n) :=
  [.reply p l .resume, .tryLockRead p l, .tryLockCas p l, .reply p l (.accept [.ok 5]), .unlock p l,
    .reply p l (.setNonBlock 0), .reply p l (.build true), .reply p l .resume,
    .reply p l (.gracefulShutdown false)]

/-- Sixteen connections are taken in a row. -/
theorem accept_bursts_sixteen :
    ((List.replicate 16 (connectionRound 7 (0 : Fin 1))).flatten.countP
        (ClusterLabel.acceptOf 7 0) = 16 ∧
      (List.replicate 16 (connectionRound 7 (0 : Fin 1))).flatten.countP
        (ClusterLabel.acceptOf 7 0) ≤ 16) ∧
    Cluster.Awake (fun _ => ⟨.udp, true, true⟩) 7 0 (.start 1 [7])
      ([3, 1].flatMap (Cluster.datagramRound 7 0)) (.start 1 [7]) := by
  have hrun : (exec (Cluster.step fun _ => ⟨.tcp, true, true⟩) (Cluster.start 1 [7])
      (List.replicate 16 (connectionRound 7 0)).flatten).isSome = true := by decide +kernel
  have hawake : ∀ x ∈ trace (Cluster.step fun _ => ⟨.tcp, true, true⟩) (Cluster.start 1 [7])
      (List.replicate 16 (connectionRound 7 0)).flatten, (x.loops 7 0).loop.point ≠ .herdSleep := by
    decide +kernel
  obtain ⟨t, ht⟩ := Option.isSome_iff_exists.mp hrun
  refine ⟨⟨by decide +kernel, ?_⟩, ?_⟩
  · exact (accept_bursts (fun _ => ⟨.tcp, true, true⟩) [7] 7 0).1 rfl [] _ _ t rfl ht (by decide)
      (by decide +kernel) fun x hx => hawake x (mem_trace.mpr hx)
  · exact (accept_bursts (fun _ => ⟨.udp, true, true⟩) [7] 7 0).2 rfl rfl (by decide) [3, 1] (by decide)

end Tinyco
