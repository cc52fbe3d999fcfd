import Tinyco.AcceptLockSafety

/-! What an `accept` that fails or an empty datagram does to the other workers: the loop keeps the
lock of the listener, and as long as its worker lives nobody takes anything from the listener. -/

namespace Tinyco

/-- The points of a loop that is not on its way through the lock. -/
def SrvPoint.idle : SrvPoint → Bool
  | .loopStart | .herdSleep | .tryLock | .lockSleep _ | .returned _ => true
  | _ => false

namespace SrvLoop

variable {w : SrvWork} {v v' : SrvLoop} {r : SrvReply}

theorem idle_atLoopStart (w : SrvWork) (v : SrvLoop) : (v.atLoopStart w).point.idle = true := by
  simp only [atLoopStart]
  split
  · rfl
  · by_cases h : v.accepted > 15 <;> simp [h, SrvPoint.idle]

theorem afterTryLock_of_neg (w : SrvWork) (v : SrvLoop) {ret : Int} (h : ret < 0) :
    (v.afterTryLock w ret).point.idle = true ∧ (v.afterTryLock w ret).owned = v.owned := by
  cases hw : w.proto <;> simp [afterTryLock, hw, h, SrvPoint.idle]

/-- A loop that is not on its way through the lock stays so unless it gets the lock. -/
theorem next_idle (hv : v.point.idle = true) (hret : ∀ ret, r = .tryLock ret → ret < 0)
    (h : v.next w r = some v') : v'.point.idle = true ∧ v'.owned = v.owned := by
  cases hp : v.point <;> cases r <;> simp only [next, hp, Option.some.injEq, reduceCtorEq] at h <;>
    rw [hp] at hv
  case loopStart.resume => exact h ▸ ⟨idle_atLoopStart w v, (locked_atLoopStart w v).2⟩
  case herdSleep.resume => exact h ▸ ⟨rfl, rfl⟩
  case tryLock.tryLock ret => exact h ▸ afterTryLock_of_neg w v (hret ret rfl)
  case lockSleep.resume => exact h ▸ ⟨rfl, rfl⟩
  all_goals cases hv

theorem next_locked (hv : v.point.locked = true → v.owned = true) (h : v.next w r = some v') :
    v'.point.locked = true → v'.owned = true := by
  cases hp : v.point <;> cases r <;> simp only [next, hp, Option.some.injEq, reduceCtorEq] at h <;>
    rw [hp] at hv
  case loopStart.resume => exact h ▸ fun hl => absurd hl (by simp [(locked_atLoopStart w v).1])
  case tryLock.tryLock ret =>
    subst h
    cases hw : w.proto <;> by_cases hr : ret < 0 <;> simp [afterTryLock, hw, hr, SrvPoint.locked]
  case accept.accept =>
    obtain ⟨fd, -, rfl⟩ := Option.map_eq_some_iff.mp h
    exact fun _ => hv rfl
  case recvfrom.recvfrom =>
    obtain ⟨m, -, rfl⟩ := Option.map_eq_some_iff.mp h
    exact fun _ => hv rfl
  case unlock.unlock got ret => exact h ▸ fun hl => absurd hl (by simp [locked_afterUnlock])
  case setNonBlock.setNonBlock =>
    exact h ▸ fun hl => absurd hl (by simp [locked_afterSetNonBlock])
  case build.build => exact h ▸ fun hl => absurd hl (by simp [locked_afterBuild])
  case createThread.resume => exact h ▸ fun hl => absurd hl (by simp [locked_afterCreateThread])
  case gracefulShutdown.gracefulShutdown b =>
    subst h
    cases b <;> exact fun hl => Bool.noConfusion hl
  all_goals exact h ▸ fun hl => Bool.noConfusion hl

/-- A call that yields nothing leaves the loop with the lock and outside of the calls it guards. -/
theorem next_undelivered (hv : v.point.locked = true → v.owned = true) (hr : ¬ r.Delivers)
    (h : v.next w r = some v') : v'.point.idle = true ∧ v'.owned = true := by
  cases hp : v.point <;> cases r <;> simp only [SrvReply.Delivers, not_true_eq_false] at hr <;>
    simp only [next, hp, reduceCtorEq] at h <;> rw [hp] at hv
  case accept.accept =>
    obtain ⟨fd, hfd, rfl⟩ := Option.map_eq_some_iff.mp h
    have hneg : fd < 0 := by simpa [hfd] using hr
    exact ⟨by simp [afterAccept, hneg, SrvPoint.idle], hv rfl⟩
  case recvfrom.recvfrom =>
    obtain ⟨m, hm, rfl⟩ := Option.map_eq_some_iff.mp h
    have hle : ¬ 0 < m := by simpa [hm] using hr
    refine ⟨?_, hv rfl⟩
    by_cases hneg : m < 0 <;> simp [afterRecvfrom, hle, hneg, SrvPoint.idle]

end SrvLoop

/-- The worker and the listener whose loop the label belongs to. -/
def ClusterLabel.caller {n : Nat} : ClusterLabel n → Option (Nat × Fin n)
  | .tryLockRead p l | .tryLockCas p l | .unlock p l | .reply p l _ => some (p, l)
  | _ => none

namespace Cluster

variable {n : Nat} {c : Fin n → SrvWork} {s t : Cluster n} {a : ClusterLabel n} {p : Nat} {l : Fin n}

theorem setWord_self (s : Cluster n) (l : Fin n) : s.setWord l (s.words l) = s := by
  simp [setWord]

/-- The loop reads the word of the listener or goes on with what a call has returned. -/
inductive LoopMove (c : Fin n → SrvWork) (s : Cluster n) (a : ClusterLabel n) (p : Nat) (l : Fin n) :
    WorkerLoop → Prop
  | read (ha : a = .tryLockRead p l) (hpoint : (s.loops p l).loop.point = .tryLock)
    (hw : s.words l = 0) : LoopMove c s a p l { s.loops p l with sawZero := true }
  | next {r : SrvReply} {v : SrvLoop}
    (hr : a = .reply p l r ∨ r.ofMutex = true ∧ ∀ q m r', a ≠ .reply q m r')
    (hret : ∀ ret, r = .tryLock ret → s.words l ≠ 0 → ret < 0)
    (hv : (s.loops p l).loop.next (c l) r = some v) : LoopMove c s a p l { loop := v }

/-- What a step can do. -/
inductive Moved (c : Fin n → SrvWork) (s : Cluster n) : ClusterLabel n → Cluster n → Prop
  | loop {a : ClusterLabel n} {p w : Nat} {l : Fin n} {v : WorkerLoop} (ha : a.caller = some (p, l))
    (hp : p ∈ s.live) (hw : w = s.words l ∨ s.words l = 0 ∨ s.words l = p)
    (hv : LoopMove c s a p l v) : Moved c s a ((s.setWord l w).setLoop p l v)
  | die {p : Nat} (hp : p ∈ s.live) : Moved c s (.die p) (s.die p)
  | getWorkerStatus {rs : List WaitResult} {t : Cluster n} (ht : s.getWorkerStatus rs = some t) :
    Moved c s (.getWorkerStatus rs) t
  | turn {a : ClusterLabel n} (ha : a = .beginPass ∨ a = .pick ∨ a = .compare ∨ a = .fork none)
    (m : MasterPoint n) : Moved c s a { s with master := m }
  | store {pid : Nat} {l : Fin n} {ls : List (Fin n)} {rest : List Nat}
    (hm : s.master = .store pid l ls rest) :
    Moved c s .store { s.setWord l 0 with master := .compare pid ls rest }
  | fork {q : Nat} (hq : q ∉ s.live) (table : List Nat) (m : MasterPoint n) :
    Moved c s (.fork (some q)) { s with
      live := insert q s.live
      loops := Function.update s.loops q fun _ => {}
      workerProcesses := table
      master := m }
  | endPass : Moved c s .endPass { s with restartWorkerPid := [], master := .sleep }

theorem moved_of_step (hs : s.step c a = some t) : Moved c s a t := by
  have hgoOn {p w : Nat} {l : Fin n} {r : SrvReply} (ha : a.caller = some (p, l)) (hp : p ∈ s.live)
      (hw : w = s.words l ∨ s.words l = 0 ∨ s.words l = p)
      (hr : a = .reply p l r ∨ r.ofMutex = true ∧ ∀ q m r', a ≠ .reply q m r')
      (hret : ∀ ret, r = .tryLock ret → s.words l ≠ 0 → ret < 0)
      (h : (s.setWord l w).goOn c p l r = some t) : Moved c s a t := by
    obtain ⟨v, hv, rfl⟩ := Option.map_eq_some_iff.mp h
    exact .loop ha hp hw (.next hr hret hv)
  have hcas (w x y : Nat) : (atomicCompareAndSet w x y).1 = w ∨ w = x := by
    by_cases hwx : w = x <;> simp [atomicCompareAndSet, hwx]
  cases a with
  | tryLockRead p l =>
    simp only [step, tryLockRead, Option.ite_none_right_eq_some] at hs
    obtain ⟨hp, ⟨hpoint, -⟩, hs⟩ := hs
    split_ifs at hs with hw
    · obtain rfl := Option.some.inj hs
      have hread : Moved c s (.tryLockRead p l) ((s.setWord l (s.words l)).setLoop p l
        { s.loops p l with sawZero := true }) := .loop rfl hp (.inl rfl) (.read rfl hpoint hw)
      rwa [setWord_self] at hread
    · rw [← setWord_self s l] at hs
      refine hgoOn rfl hp (.inl rfl) (.inr ⟨rfl, by simp⟩) (fun ret hr _ => ?_) hs
      cases hr
      decide
  | tryLockCas p l =>
    simp only [step, tryLockCas, Option.ite_none_right_eq_some] at hs
    refine hgoOn rfl hs.1 ((hcas ..).imp_right .inl) (.inr ⟨rfl, by simp⟩) (fun ret hr hw => ?_)
      hs.2.2
    simp only [atomicCompareAndSet, if_neg hw, Bool.false_eq_true, if_false,
      SrvReply.tryLock.injEq] at hr
    omega
  | unlock p l =>
    simp only [step, unlock, Option.ite_none_right_eq_some] at hs
    exact hgoOn rfl hs.1 ((hcas ..).imp_right .inr) (.inr ⟨rfl, by simp⟩) (by simp) hs.2
  | reply p l r =>
    simp only [step, Option.ite_none_right_eq_some] at hs
    obtain ⟨⟨hp, hr⟩, hs⟩ := hs
    rw [← setWord_self s l] at hs
    refine hgoOn rfl hp (.inl rfl) (.inl rfl) (fun ret hret => ?_) hs
    subst hret
    cases hr
  | die p =>
    simp only [step, Option.ite_none_right_eq_some, Option.some.injEq] at hs
    obtain ⟨hp, rfl⟩ := hs
    exact .die hp
  | getWorkerStatus rs =>
    simp only [step, Option.ite_none_right_eq_some] at hs
    exact .getWorkerStatus hs.2
  | beginPass =>
    simp only [step, Option.ite_none_right_eq_some, Option.some.injEq] at hs
    obtain ⟨-, rfl⟩ := hs
    exact .turn (.inl rfl) _
  | pick =>
    simp only [step] at hs
    split at hs
    · obtain rfl := Option.some.inj hs
      exact .turn (.inr (.inl rfl)) _
    · cases hs
  | compare =>
    simp only [step] at hs
    split at hs
    · obtain rfl := Option.some.inj hs
      exact .turn (.inr (.inr (.inl rfl))) _
    · cases hs
  | store =>
    simp only [step] at hs
    split at hs
    · next hm =>
      obtain rfl := Option.some.inj hs
      exact .store hm
    · cases hs
  | fork q =>
    simp only [step] at hs
    split at hs
    · cases q with
      | none =>
        obtain rfl := Option.some.inj hs
        exact .turn (.inr (.inr (.inr rfl))) _
      | some q =>
        simp only [fork, Option.ite_none_right_eq_some] at hs
        obtain ⟨⟨-, hq, -⟩, hs⟩ := hs
        split at hs <;> obtain rfl := Option.some.inj hs <;> exact .fork hq _ _
    · cases hs
  | endPass =>
    simp only [step] at hs
    split at hs
    · obtain rfl := Option.some.inj hs
      exact .endPass
    · cases hs

/-- What a step can make of the loop of a worker on a listener. -/
inductive LoopStep (c : Fin n → SrvWork) (s : Cluster n) (a : ClusterLabel n) (p : Nat) (l : Fin n) :
    WorkerLoop → Prop
  | same : LoopStep c s a p l (s.loops p l)
  | read (ha : a.caller = some (p, l)) (hpoint : (s.loops p l).loop.point = .tryLock)
    (hw : s.words l = 0) : LoopStep c s a p l { s.loops p l with sawZero := true }
  | next {r : SrvReply} {v : SrvLoop} (ha : a.caller = some (p, l))
    (hr : r.ofMutex = true ∨ a = .reply p l r)
    (hret : ∀ ret, r = .tryLock ret → s.words l ≠ 0 → ret < 0)
    (hv : (s.loops p l).loop.next (c l) r = some v) : LoopStep c s a p l { loop := v }
  | new (hp : p ∉ s.live) : LoopStep c s a p l {}

theorem setLoop_apply (s : Cluster n) (p : Nat) (l : Fin n) (v : WorkerLoop) (q : Nat) (m : Fin n) :
    (s.setLoop p l v).loops q m = if (q, m) = (p, l) then v else s.loops q m := by
  by_cases hq : q = p
  · subst hq
    by_cases hm : m = l <;> simp [setLoop, hm]
  · simp [setLoop, hq]

theorem loops_getWorkerStatus {rs : List WaitResult} (h : s.getWorkerStatus rs = some t) :
    t.live = s.live ∧ t.loops = s.loops := by
  induction rs with
  | nil => cases h
  | cons r rs ih =>
    cases r with
    | none => exact Option.some.inj h ▸ ⟨rfl, rfl⟩
    | error => exact Option.some.inj h ▸ ⟨rfl, rfl⟩
    | eintr => exact ih h
    | exited pid =>
      simp only [getWorkerStatus, Option.ite_none_right_eq_some, Option.some.injEq] at h
      exact h.2 ▸ ⟨rfl, rfl⟩

/-- A worker that does not die stays live, and its loop is as before, in the middle of `TryLock`,
past the call it was in, or new. -/
theorem step_loop (p : Nat) (l : Fin n) (hs : s.step c a = some t) :
    (p ∈ s.live → a ≠ .die p → p ∈ t.live) ∧ LoopStep c s a p l (t.loops p l) := by
  cases moved_of_step hs with
  | @loop _ q w m v ha hq hw hv =>
    refine ⟨fun hp _ => hp, ?_⟩
    rw [setLoop_apply]
    split_ifs with hpl
    · obtain ⟨rfl, rfl⟩ : p = q ∧ l = m := by simpa using hpl
      cases hv with
      | read _ hpoint hw => exact .read ha hpoint hw
      | next hr hret hv => exact .next ha (hr.symm.imp_left And.left) hret hv
    · exact .same
  | @die q hq => exact ⟨fun hp ha => Finset.mem_erase.mpr ⟨fun hpq => ha (hpq ▸ rfl), hp⟩, .same⟩
  | getWorkerStatus ht =>
    obtain ⟨hlive, hloops⟩ := loops_getWorkerStatus ht
    rw [hlive, hloops]
    exact ⟨fun hp _ => hp, .same⟩
  | @fork q hq table m =>
    refine ⟨fun hp _ => Finset.mem_insert_of_mem hp, ?_⟩
    by_cases hpq : p = q
    · subst hpq
      simpa using LoopStep.new hq
    · simpa [hpq] using LoopStep.same (c := c)
  | turn | store | endPass => exact ⟨fun hp _ => hp, .same⟩

/-- A loop is in one of the calls that the lock guards only with the lock. -/
def LockedOwned (s : Cluster n) : Prop :=
  ∀ p l, (s.loops p l).loop.point.locked = true → s.owned p l

theorem LockedOwned.step (h : s.LockedOwned) (hs : s.step c a = some t) : t.LockedOwned := by
  intro p l
  rw [owned]
  obtain ⟨-, hloop⟩ := step_loop p l hs
  generalize t.loops p l = w at hloop ⊢
  cases hloop with
  | same => exact h p l
  | read _ _ hw => exact h p l
  | next _ _ hret hv => exact SrvLoop.next_locked (h p l) hv
  | new hp => exact fun hl => Bool.noConfusion hl

/-- The worker `p` has the lock of `l` and is not on its way to give it back. -/
structure Shut (s : Cluster n) (p : Nat) (l : Fin n) : Prop where
  live : p ∈ s.live
  owned : s.owned p l
  idle : (s.loops p l).loop.point.idle = true
  sawZero : (s.loops p l).sawZero = false

theorem Shut.step (hinv : LockInvariant s) (h : s.Shut p l) (ha : a ≠ .die p)
    (hs : s.step c a = some t) : t.Shut p l := by
  have hword : s.words l ≠ 0 := by
    rw [(hinv.owned_iff p h.live l).mp h.owned]
    exact hinv.pids.ne_zero p (.inl h.live)
  obtain ⟨hlive, hloop⟩ := step_loop p l hs
  have hl := hlive h.live ha
  suffices hw : (t.loops p l).loop.owned = true ∧ (t.loops p l).loop.point.idle = true ∧
      (t.loops p l).sawZero = false from ⟨hl, hw.1, hw.2.1, hw.2.2⟩
  generalize t.loops p l = w at hloop ⊢
  cases hloop with
  | same => exact ⟨h.owned, h.idle, h.sawZero⟩
  | read _ _ hw => exact absurd hw hword
  | next _ _ hret hv =>
    obtain ⟨hidle, howned⟩ := SrvLoop.next_idle h.idle (fun ret hr => hret ret hr hword) hv
    exact ⟨howned.trans h.owned, hidle, rfl⟩
  | new hp => exact absurd h.live hp

theorem Shut.nobody_locked (hinv : LockInvariant s) (hlocked : s.LockedOwned) (h : s.Shut p l) :
    s.words l = p ∧ ∀ q ∈ s.live, (s.loops q l).loop.point.locked = false := by
  have hword := (hinv.owned_iff p h.live l).mp h.owned
  refine ⟨hword, fun q hq => Bool.eq_false_iff.mpr fun hl => ?_⟩
  have hqp : s.words l = q := (hinv.owned_iff q hq l).mp (hlocked q l hl)
  obtain rfl : q = p := hqp.symm.trans hword
  have hidle := h.idle
  revert hl hidle
  cases (s.loops q l).loop.point <;> simp [SrvPoint.locked, SrvPoint.idle]

theorem shut_of_undelivered {r : SrvReply} (hlocked : s.LockedOwned) (hr : ¬ r.Delivers)
    (hs : s.step c (.reply p l r) = some t) : t.Shut p l := by
  simp only [Cluster.step, Option.ite_none_right_eq_some] at hs
  obtain ⟨⟨hp, -⟩, hs⟩ := hs
  obtain ⟨v, hv, rfl⟩ := Option.map_eq_some_iff.mp hs
  obtain ⟨hidle, howned⟩ := SrvLoop.next_undelivered (hlocked p l) hr hv
  exact ⟨hp, by simpa [Cluster.owned, setLoop] using howned, by simpa [setLoop] using hidle,
    by simp [setLoop]⟩

end Cluster

/-- In every run, once an `accept` has failed or a `recvfrom` has yielded nothing, an empty
datagram among it, in a worker that stays alive, the word of the listener keeps the pid of that
worker, and no worker is ever again in `accept` or `recvfrom` on the listener. -/
theorem undelivered_call_shuts_listener {n : Nat} (c : Fin n → SrvWork) {pids : List Nat}
    (h0 : 0 ∉ pids) {as bs : List (ClusterLabel n)} {s t u : Cluster n} {p : Nat} {l : Fin n}
    {r : SrvReply} (has : exec (Cluster.step c) (Cluster.start n pids) as = some s)
    (hr : ¬ r.Delivers) (hs : s.step c (.reply p l r) = some t) (hbs : .die p ∉ bs)
    (hu : Visits (Cluster.step c) t bs u) :
    u.words l = p ∧ ∀ q ∈ u.live, (u.loops q l).loop.point.locked = false := by
  have hinv : LockInvariant s :=
    (Visits.of_exec has).invariant (.start h0) fun _ _ _ hi hs => hi.step hs
  have hlocked : s.LockedOwned :=
    (Visits.of_exec has).invariant (fun _ _ hl => Bool.noConfusion hl) fun _ _ _ hi hs => hi.step hs
  have hshut : LockInvariant u ∧ u.LockedOwned ∧ u.Shut p l := by
    refine hu.invariant_takes (I := fun x => LockInvariant x ∧ x.LockedOwned ∧ x.Shut p l)
      ⟨hinv.step hs, hlocked.step hs, Cluster.shut_of_undelivered hlocked hr hs⟩ ?_
    rintro x a y ⟨hi, hl, hx⟩ hxy
    exact ⟨hi.step hxy.step_eq, hl.step hxy.step_eq,
      hx.step hi (fun ha => hbs (ha ▸ hxy.mem)) hxy.step_eq⟩
  exact hshut.2.2.nobody_locked hshut.1 hshut.2.1

/-- Worker 7 receives an empty datagram, and worker 8 does not get the lock any more. -/
theorem empty_datagram_shuts_listener :
    ∃ u : Cluster 1, exec (Cluster.step fun _ => ⟨.udp, true, true⟩) (Cluster.start 1 [7, 8])
        ([.reply 7 0 .resume, .tryLockRead 7 0, .tryLockCas 7 0] ++
          .reply 7 0 (.recvfrom [(.ok 0, [])]) ::
          [.reply 8 0 .resume, .tryLockRead 8 0, .reply 8 0 .resume]) = some u ∧
      u.words 0 = 7 ∧ ∀ q ∈ u.live, (u.loops q 0).loop.point.locked = false := by
  obtain ⟨u, hu⟩ : ∃ u : Cluster 1, exec (Cluster.step fun _ => ⟨.udp, true, true⟩)
      (Cluster.start 1 [7, 8]) ([.reply 7 0 .resume, .tryLockRead 7 0, .tryLockCas 7 0] ++
        .reply 7 0 (.recvfrom [(.ok 0, [])]) ::
        [.reply 8 0 .resume, .tryLockRead 8 0, .reply 8 0 .resume]) = some u := ⟨_, rfl⟩
  have hparts := hu
  rw [exec_append] at hparts
  obtain ⟨s, hs, hrest⟩ := Option.bind_eq_some_iff.mp hparts
  obtain ⟨t, ht, hbs⟩ := Option.bind_eq_some_iff.mp hrest
  have hempty : ¬ (SrvReply.recvfrom [(.ok 0, [])]).Delivers := fun hd => absurd (hd 0 rfl) (by decide)
  exact ⟨u, hu, undelivered_call_shuts_listener _ (by decide) hs hempty ht (by decide) (.of_exec hbs)⟩

end Tinyco
