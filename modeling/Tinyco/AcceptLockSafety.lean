import Tinyco.WorkerPids

/-! Mutual exclusion of the accept locks with crash recovery. The word of a listener
names its live holder or a dead worker the master has still to process. -/

namespace Tinyco

variable {n : Nat} {c : Fin n → SrvWork} {s s' : Cluster n} {p q : Nat} {l m : Fin n}

namespace SrvLoop

variable {w : SrvWork} {v v' : SrvLoop}

theorem next_tryLock_owned {ret : Int} (h : v.next w (.tryLock ret) = some v') :
    v'.owned = (v.owned || decide (0 ≤ ret)) := by
  cases hp : v.point <;> simp only [next, hp, Option.some.injEq, reduceCtorEq] at h
  rw [← h]
  cases hc : w.proto <;> by_cases hr : ret < 0 <;> simp [afterTryLock, hc, hr] <;> omega

theorem next_unlock_owned {ret : Int} (h : v.next w (.unlock ret) = some v') :
    v'.owned = false := by
  cases hp : v.point <;> simp only [next, hp, Option.some.injEq, reduceCtorEq] at h
  rw [← h]
  rfl

theorem next_owned {r : SrvReply} (h : v.next w r = some v') (hr : r.ofMutex = false) :
    v'.owned = v.owned := by
  cases r <;> simp only [SrvReply.ofMutex, reduceCtorEq] at hr <;> cases hp : v.point <;>
    simp only [next, hp, Option.some.injEq, Option.map_eq_some_iff, reduceCtorEq] at h
  case accept.accept => obtain ⟨_, _, rfl⟩ := h; rfl
  case recvfrom.recvfrom => obtain ⟨_, _, rfl⟩ := h; rfl
  case resume.loopStart => exact h ▸ (locked_atLoopStart w v).2
  all_goals exact h ▸ rfl

end SrvLoop

namespace MasterPoint

def unprocessed (m : MasterPoint n) (restart : List Nat) : List Nat :=
  match m with
  | .sleep | .fault => restart
  | .pick rest => rest
  | .compare pid _ rest => pid :: rest
  | .store pid _ _ rest => pid :: rest

/-- The unprocessed pids for which the word of `l` is still to be looked at. -/
def pending (m : MasterPoint n) (restart : List Nat) (l : Fin n) : List Nat :=
  match m with
  | .sleep | .fault => restart
  | .pick rest => rest
  | .compare pid ls rest => if l ∈ ls then pid :: rest else rest
  | .store pid l' ls rest => if l = l' ∨ l ∈ ls then pid :: rest else rest

theorem pending_subset (m : MasterPoint n) (restart : List Nat) (l : Fin n) :
    m.pending restart l ⊆ m.unprocessed restart := by
  cases m <;> simp only [pending, unprocessed, List.Subset.refl]
  case compare pid ls rest => split <;> simp
  case store pid l' ls rest => split <;> simp

end MasterPoint

namespace Cluster

def owned (s : Cluster n) (p : Nat) (l : Fin n) : Prop := (s.loops p l).loop.owned = true

def unprocessed (s : Cluster n) : List Nat := s.master.unprocessed s.restartWorkerPid

def pending (s : Cluster n) (l : Fin n) : List Nat := s.master.pending s.restartWorkerPid l

theorem owned_setLoop_self (s : Cluster n) (p : Nat) (l : Fin n) (v : WorkerLoop) :
    (s.setLoop p l v).owned p l ↔ v.loop.owned = true := by
  simp [owned, setLoop]

theorem owned_setLoop_ne (s : Cluster n) (v : WorkerLoop) (h : ¬ (q = p ∧ m = l)) :
    (s.setLoop p l v).owned q m ↔ s.owned q m := by
  by_cases hq : q = p
  · subst hq
    have hm : m ≠ l := fun hm => h ⟨rfl, hm⟩
    simp [owned, setLoop, hm]
  · simp [owned, setLoop, hq]

end Cluster

structure LockInvariant (s : Cluster n) : Prop where
  no_fault : s.master ≠ .fault
  pids : PidInvariant s.live s.zombies s.restartWorkerPid s.unprocessed s.workerProcesses
  owned_iff : ∀ p ∈ s.live, ∀ l, s.owned p l ↔ s.words l = p
  word : ∀ l, s.words l = 0 ∨ s.words l ∈ s.live ∨ s.words l ∈ s.zombies ∨ s.words l ∈ s.pending l
  storing : ∀ pid l ls rest, s.master = .store pid l ls rest → s.words l = pid

structure AcceptLockSafe (s : Cluster n) : Prop where
  exclusive : ∀ l, ∀ p ∈ s.live, ∀ q ∈ s.live, s.owned p l → s.owned q l → p = q
  word : ∀ l, s.words l = 0 ∨ (∃ p ∈ s.live, s.owned p l ∧ s.words l = p) ∨
    s.words l ∉ s.live ∧ (s.words l ∈ s.zombies ∨ s.words l ∈ s.unprocessed)
  forced : ∀ pid l ls rest, s.master = .store pid l ls rest → ∀ p ∈ s.live, ¬ s.owned p l

namespace LockInvariant

theorem storing_not_live (h : LockInvariant s) {pid : Nat} {ls : List (Fin n)} {rest : List Nat}
    (hm : s.master = .store pid l ls rest) : s.words l ∉ s.live ∧ s.words l ≠ 0 := by
  have hpid : pid ∈ s.restartWorkerPid :=
    h.pids.suffix.subset (by simp [Cluster.unprocessed, hm, MasterPoint.unprocessed])
  rw [h.storing _ _ _ _ hm]
  exact ⟨(h.pids.restart_gone pid hpid).1, h.pids.ne_zero pid (.inr (.inr hpid))⟩

theorem acceptLockSafe (h : LockInvariant s) : AcceptLockSafe s where
  exclusive l p hp q hq hop hoq :=
    ((h.owned_iff p hp l).mp hop).symm.trans ((h.owned_iff q hq l).mp hoq)
  word l := by
    rcases h.word l with h0 | hl | hz | hr
    · exact .inl h0
    · exact .inr (.inl ⟨s.words l, hl, (h.owned_iff _ hl l).mpr rfl, rfl⟩)
    · exact .inr (.inr ⟨fun hl => h.pids.live_running _ hl hz, .inl hz⟩)
    · have hu : s.words l ∈ s.unprocessed := s.master.pending_subset _ l hr
      exact .inr (.inr ⟨(h.pids.restart_gone _ (h.pids.suffix.subset hu)).1, .inr hu⟩)
  forced pid l ls rest hm p hp ho := by
    rw [h.owned_iff p hp l] at ho
    exact (h.storing_not_live hm).1 (ho ▸ hp)

theorem worker (h : LockInvariant s) (hp : p ∈ s.live) {w : Nat} {v : WorkerLoop}
    (hv : v.loop.owned = true ↔ w = p)
    (hw : w = s.words l ∨ (s.words l = 0 ∧ w = p) ∨ (s.words l = p ∧ w = 0)) :
    LockInvariant ((s.setWord l w).setLoop p l v) where
  no_fault := h.no_fault
  pids := h.pids
  owned_iff q hq m := by
    have hold := h.owned_iff q hq m
    by_cases hm : m = l
    · subst hm
      have hword : (((s.setWord m w).setLoop p m v).words m) = w := by
        simp [Cluster.setLoop, Cluster.setWord]
      rw [hword]
      by_cases hqp : q = p
      · subst hqp
        rw [Cluster.owned_setLoop_self, hv]
      · have hq0 : q ≠ 0 := h.pids.ne_zero q (.inl hq)
        rw [Cluster.owned_setLoop_ne _ _ (fun hh => hqp hh.1)]
        change s.owned q m ↔ w = q
        rw [hold]
        rcases hw with rfl | ⟨h0, rfl⟩ | ⟨hpw, rfl⟩
        · rfl
        · simp [h0, hq0.symm, Ne.symm hqp]
        · simp [hpw, hq0.symm, Ne.symm hqp]
    · rw [Cluster.owned_setLoop_ne _ _ (fun hh => hm hh.2)]
      simpa [Cluster.setLoop, Cluster.setWord, hm, Cluster.owned] using hold
  word m := by
    by_cases hm : m = l
    · subst hm
      simp only [Cluster.setLoop, Cluster.setWord, Function.update_self]
      rcases hw with rfl | ⟨_, rfl⟩ | ⟨_, rfl⟩
      · exact h.word m
      · exact .inr (.inl hp)
      · exact .inl rfl
    · simpa only [Cluster.setLoop, Cluster.setWord, Cluster.pending, Function.update_of_ne hm]
        using h.word m
  storing pid m ls rest hm := by
    have hold := h.storing pid m ls rest hm
    by_cases hml : m = l
    · subst hml
      have hnl := h.storing_not_live hm
      rcases hw with rfl | ⟨h0, _⟩ | ⟨hpw, _⟩
      · simpa [Cluster.setLoop, Cluster.setWord] using hold
      · exact absurd h0 hnl.2
      · exact absurd (hpw ▸ hp) hnl.1
    · simpa only [Cluster.setLoop, Cluster.setWord, Function.update_of_ne hml] using hold

theorem worker_same_word (h : LockInvariant s) (hp : p ∈ s.live) {v : WorkerLoop}
    (hv : v.loop.owned = (s.loops p l).loop.owned) : LockInvariant (s.setLoop p l v) := by
  have hw : s.setWord l (s.words l) = s := by simp [Cluster.setWord]
  have hown : v.loop.owned = true ↔ s.words l = p := hv ▸ h.owned_iff p hp l
  simpa only [hw] using h.worker hp hown (.inl rfl)

theorem goOn (h : LockInvariant s) (hp : p ∈ s.live) {r : SrvReply} (hr : r.ofMutex = false)
    (hs : s.goOn c p l r = some s') : LockInvariant s' := by
  obtain ⟨v, hv, rfl⟩ := Option.map_eq_some_iff.mp hs
  exact h.worker_same_word hp (SrvLoop.next_owned hv hr)

theorem tryLockRead (h : LockInvariant s) (hp : p ∈ s.live) (hs : s.tryLockRead c p l = some s') :
    LockInvariant s' := by
  simp only [Cluster.tryLockRead, Option.ite_none_right_eq_some] at hs
  obtain ⟨_, hs⟩ := hs
  split at hs
  · cases hs
    exact h.worker_same_word hp rfl
  · obtain ⟨v, hv, rfl⟩ := Option.map_eq_some_iff.mp hs
    refine h.worker_same_word hp ?_
    rw [SrvLoop.next_tryLock_owned hv]
    simp

theorem tryLockCas (h : LockInvariant s) (hp : p ∈ s.live) (hs : s.tryLockCas c p l = some s') :
    LockInvariant s' := by
  simp only [Cluster.tryLockCas, Option.ite_none_right_eq_some] at hs
  obtain ⟨v, hv, rfl⟩ := Option.map_eq_some_iff.mp hs.2
  have ho := SrvLoop.next_tryLock_owned hv
  by_cases h0 : s.words l = 0
  · simp only [atomicCompareAndSet, h0, if_true] at ho ⊢
    exact h.worker hp (by simp [ho]) (.inr (.inl ⟨h0, rfl⟩))
  · simp only [atomicCompareAndSet, h0, if_false] at ho ⊢
    refine h.worker hp ?_ (.inl rfl)
    rw [← h.owned_iff p hp l]
    simp [ho, Cluster.owned, Cluster.setWord]

theorem unlock (h : LockInvariant s) (hp : p ∈ s.live) (hs : s.unlock c p l = some s') :
    LockInvariant s' := by
  obtain ⟨v, hv, rfl⟩ := Option.map_eq_some_iff.mp hs
  have ho : v.owned = false := SrvLoop.next_unlock_owned hv
  by_cases hw : s.words l = p
  · have hp0 : 0 ≠ p := (h.pids.ne_zero p (.inl hp)).symm
    simp only [atomicCompareAndSet, hw, if_true]
    exact h.worker hp (by simp [ho, hp0]) (.inr (.inr ⟨hw, rfl⟩))
  · simp only [atomicCompareAndSet, hw, if_false]
    exact h.worker hp (by simp [ho, hw]) (.inl rfl)

theorem die (h : LockInvariant s) (hp : p ∈ s.live) : LockInvariant (s.die p) where
  no_fault := h.no_fault
  pids := h.pids.die hp
  owned_iff q hq := h.owned_iff q (Finset.mem_of_mem_erase hq)
  word l := by
    have hold := h.word l
    by_cases hl : s.words l = p <;>
      simp only [Cluster.die, Cluster.pending, Finset.mem_erase, Finset.mem_insert, hl, ne_eq,
        not_true_eq_false, not_false_eq_true, true_or, or_true, true_and, false_or] at hold ⊢
    exact hold
  storing := h.storing

theorem getWorkerStatus (h : LockInvariant s) (hm : s.master = .sleep) {rs : List WaitResult}
    (hs : s.getWorkerStatus rs = some s') : LockInvariant s' := by
  induction rs with
  | nil => cases hs
  | cons r rs ih =>
    cases r with
    | none => exact Option.some.inj hs ▸ h
    | eintr => exact ih hs
    | error => exact Option.some.inj hs ▸ h
    | exited pid =>
      simp only [Cluster.getWorkerStatus, Option.ite_none_right_eq_some] at hs
      obtain ⟨hz, hs⟩ := hs
      have htable : pid ∈ s.workerProcesses := h.pids.in_table pid (.inr (.inl hz))
      rw [if_pos htable] at hs
      cases hs
      have hu : s.unprocessed = s.restartWorkerPid := by
        simp [Cluster.unprocessed, hm, MasterPoint.unprocessed]
      refine ⟨h.no_fault, ?_, h.owned_iff, fun l => ?_, fun pid l ls rest hst => ?_⟩
      · simpa only [Cluster.unprocessed, hm, MasterPoint.unprocessed] using (hu ▸ h.pids).reap hz
      · have hold := h.word l
        simp only [Cluster.pending, hm, MasterPoint.pending, List.mem_append, List.mem_singleton,
          Finset.mem_erase] at hold ⊢
        tauto
      · exact absurd (hm.symm.trans hst) (by simp)

theorem setMaster (h : LockInvariant s) {x : MasterPoint n} (hx : x ≠ .fault)
    (hu : x.unprocessed s.restartWorkerPid = s.unprocessed)
    (hpend : ∀ l, s.words l ∈ s.pending l → s.words l ∈ x.pending s.restartWorkerPid l)
    (hstore : ∀ pid l ls rest, x = .store pid l ls rest → s.words l = pid) :
    LockInvariant { s with master := x } where
  no_fault := hx
  pids := by
    simpa only [Cluster.unprocessed, hu] using h.pids
  owned_iff := h.owned_iff
  word l := (h.word l).imp_right (Or.imp_right (Or.imp_right (hpend l)))
  storing := hstore

theorem compare (h : LockInvariant s) {pid : Nat} {ls : List (Fin n)} {rest : List Nat}
    (hm : s.master = .compare pid (l :: ls) rest) :
    LockInvariant { s with
      master := if s.words l = pid then .store pid l ls rest else .compare pid ls rest } := by
  by_cases hw : s.words l = pid
  · rw [if_pos hw]
    refine h.setMaster (by simp) (by simp [Cluster.unprocessed, hm, MasterPoint.unprocessed])
      (fun m => ?_) (fun pid' l' ls' rest' hst => ?_)
    · simp only [Cluster.pending, hm, MasterPoint.pending, List.mem_cons, imp_self]
    · cases hst
      exact hw
  · rw [if_neg hw]
    refine h.setMaster (by simp) (by simp [Cluster.unprocessed, hm, MasterPoint.unprocessed])
      (fun m => ?_) (by simp)
    simp only [Cluster.pending, hm, MasterPoint.pending, List.mem_cons]
    by_cases hml : m = l
    · subst hml
      by_cases hmem : m ∈ ls <;> simp [hmem, hw]
    · simp only [hml, false_or, imp_self]

/-- The store of zero hits the word of a worker that is dead. -/
theorem store (h : LockInvariant s) {pid : Nat} {ls : List (Fin n)} {rest : List Nat}
    (hm : s.master = .store pid l ls rest) :
    LockInvariant { s.setWord l 0 with master := .compare pid ls rest } where
  no_fault := by simp
  pids := by
    simpa only [Cluster.unprocessed, Cluster.setWord, hm, MasterPoint.unprocessed] using h.pids
  owned_iff p hp m := by
    have hold := h.owned_iff p hp m
    by_cases hml : m = l
    · subst hml
      have hp0 : 0 ≠ p := (h.pids.ne_zero p (.inl hp)).symm
      have hne : s.words m ≠ p := fun hh => (h.storing_not_live hm).1 (hh ▸ hp)
      simpa [Cluster.owned, Cluster.setWord, hp0, hne] using hold
    · simpa [Cluster.owned, Cluster.setWord, hml] using hold
  word m := by
    have hold := h.word m
    by_cases hml : m = l
    · subst hml
      exact .inl (by simp [Cluster.setWord])
    · simpa only [Cluster.pending, Cluster.setWord, hm, MasterPoint.pending, hml, false_or,
        Function.update_of_ne hml] using hold
  storing := by simp

theorem fork (h : LockInvariant s) {pid : Nat} {rest : List Nat}
    (hm : s.master = .compare pid [] rest) {newPid : Option Nat}
    (hs : s.fork pid rest newPid = some s') : LockInvariant s' := by
  have hpids := h.pids
  simp only [Cluster.unprocessed, hm, MasterPoint.unprocessed] at hpids
  have hword (l : Fin n) := h.word l
  simp only [Cluster.pending, hm, MasterPoint.pending, List.not_mem_nil, if_false] at hword
  cases newPid with
  | none =>
    cases hs
    exact ⟨by simp, hpids.skip, h.owned_iff, hword, by simp⟩
  | some q =>
    simp only [Cluster.fork, Option.ite_none_right_eq_some] at hs
    obtain ⟨hq, hs⟩ := hs
    split at hs
    · next ht =>
      have hpt : pid ∈ s.workerProcesses := hpids.in_table pid (by simp)
      exact absurd hpt (replaceLast_eq_none ht)
    · next table ht =>
      cases hs
      refine ⟨by simp, hpids.fork hq ht, fun p hp l => ?_, fun l => ?_, by simp⟩
      · rcases Finset.mem_insert.mp hp with rfl | hp
        · have hne : s.words l ≠ p := by
            rintro rfl
            rcases hword l with h0 | hl | hz | hr
            · exact hq.1 h0
            · exact hq.2.1 hl
            · exact hq.2.2.1 hz
            · exact hq.2.2.2 (hpids.suffix.subset (List.mem_cons_of_mem pid hr))
          simp [Cluster.owned, hne]
        · have hpq : p ≠ q := fun hpq => hq.2.1 (hpq ▸ hp)
          simpa [Cluster.owned, hpq] using h.owned_iff p hp l
      · exact (hword l).imp_right (Or.imp_left (Finset.mem_insert_of_mem ·))

theorem step {a : ClusterLabel n} (h : LockInvariant s) (hs : s.step c a = some s') :
    LockInvariant s' := by
  cases a with
  | tryLockRead p l =>
    simp only [Cluster.step, Option.ite_none_right_eq_some] at hs
    exact h.tryLockRead hs.1 hs.2
  | tryLockCas p l =>
    simp only [Cluster.step, Option.ite_none_right_eq_some] at hs
    exact h.tryLockCas hs.1 hs.2
  | unlock p l =>
    simp only [Cluster.step, Option.ite_none_right_eq_some] at hs
    exact h.unlock hs.1 hs.2
  | reply p l r =>
    simp only [Cluster.step, Option.ite_none_right_eq_some] at hs
    exact h.goOn hs.1.1 hs.1.2 hs.2
  | die p =>
    simp only [Cluster.step, Option.ite_none_right_eq_some, Option.some.injEq] at hs
    exact hs.2 ▸ h.die hs.1
  | getWorkerStatus rs =>
    simp only [Cluster.step, Option.ite_none_right_eq_some] at hs
    exact h.getWorkerStatus hs.1 hs.2
  | beginPass =>
    simp only [Cluster.step, Option.ite_none_right_eq_some, Option.some.injEq] at hs
    obtain ⟨hm, rfl⟩ := hs
    refine h.setMaster (by simp) ?_ (fun l hl => ?_) (by simp)
    · simp [Cluster.unprocessed, hm, MasterPoint.unprocessed]
    · simpa [Cluster.pending, hm, MasterPoint.pending] using hl
  | pick =>
    simp only [Cluster.step] at hs
    split at hs <;> cases hs
    next pid rest hm =>
      refine h.setMaster (by simp) ?_ (fun l hl => ?_) (by simp)
      · simp [Cluster.unprocessed, hm, MasterPoint.unprocessed]
      · simpa [Cluster.pending, hm, MasterPoint.pending] using hl
  | compare =>
    simp only [Cluster.step] at hs
    split at hs <;> cases hs
    next pid l ls rest hm => exact h.compare hm
  | store =>
    simp only [Cluster.step] at hs
    split at hs <;> cases hs
    next pid l ls rest hm => exact h.store hm
  | fork q =>
    simp only [Cluster.step] at hs
    split at hs
    · next pid rest hm => exact h.fork hm hs
    · cases hs
  | endPass =>
    simp only [Cluster.step] at hs
    split at hs <;> cases hs
    next hm =>
      have hpids := h.pids
      have hword (l : Fin n) := h.word l
      simp only [Cluster.unprocessed, Cluster.pending, hm, MasterPoint.unprocessed,
        MasterPoint.pending] at hpids hword
      exact ⟨by simp, hpids.clear, h.owned_iff, hword, by simp⟩

theorem start {pids : List Nat} (h0 : 0 ∉ pids) : LockInvariant (Cluster.start n pids) where
  no_fault := by simp [Cluster.start]
  pids :=
    { ne_zero := fun p hp hp0 => h0 (by simpa [Cluster.start, hp0] using hp)
      live_running := by simp [Cluster.start]
      restart_gone := by simp [Cluster.start]
      restart_nodup := List.nodup_nil
      suffix := List.suffix_rfl
      in_table := by simp [Cluster.start, Cluster.unprocessed, MasterPoint.unprocessed] }
  owned_iff p hp l := by
    have hp0 : 0 ≠ p := fun hh => h0 (by simpa [Cluster.start, hh] using hp)
    simp [Cluster.start, Cluster.owned, hp0]
  word l := .inl rfl
  storing := by simp [Cluster.start]

end LockInvariant

/-- In every state of every run a listener has at most one live holder, its word is
zero, the pid of that holder or of a dead worker not yet processed, and the master
never clears the word of a live holder. -/
theorem accept_lock_safe (c : Fin n → SrvWork) {pids : List Nat} (h0 : 0 ∉ pids)
    {as : List (ClusterLabel n)} (hv : Visits (Cluster.step c) (Cluster.start n pids) as s) :
    AcceptLockSafe s :=
  (hv.invariant (I := LockInvariant) (.start h0) fun _ _ _ h hs => h.step hs).acceptLockSafe

/-- Worker 7 dies in `accept`, the master clears its word and forks worker 9 in its
place, and worker 8 takes the lock. -/
theorem accept_lock_safe_after_crash :
    ∃ s : Cluster 1, exec (Cluster.step fun _ => ⟨.tcp, true, true⟩) (Cluster.start 1 [7, 8])
        [.reply 7 0 .resume, .tryLockRead 7 0, .tryLockCas 7 0, .die 7,
          .getWorkerStatus [.eintr, .exited 7], .beginPass, .pick, .reply 8 0 .resume, .compare,
          .store, .tryLockRead 8 0, .fork (some 9), .tryLockCas 8 0, .endPass] = some s ∧
      s.words 0 = 8 ∧ s.owned 8 0 ∧ s.live = {8, 9} ∧ AcceptLockSafe s := by
  have he : (exec (Cluster.step fun _ => ⟨.tcp, true, true⟩) (Cluster.start 1 [7, 8])
      [.reply 7 0 .resume, .tryLockRead 7 0, .tryLockCas 7 0, .die 7,
        .getWorkerStatus [.eintr, .exited 7], .beginPass, .pick, .reply 8 0 .resume, .compare,
        .store, .tryLockRead 8 0, .fork (some 9), .tryLockCas 8 0, .endPass]).map
      (fun s => (s.words 0, (s.loops 8 0).loop.owned, s.live)) = some (8, true, {8, 9}) := by
    decide +kernel
  obtain ⟨s, hs, hq⟩ := Option.map_eq_some_iff.mp he
  simp only [Prod.mk.injEq] at hq
  exact ⟨s, hs, hq.1, hq.2.1, hq.2.2, accept_lock_safe _ (by decide) (.of_exec hs)⟩

end Tinyco
