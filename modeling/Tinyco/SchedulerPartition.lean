import Tinyco.SchedulerPlaces

/-! Every thread is in exactly one place, if no two coroutines block on the same descriptor. -/

namespace Tinyco

namespace Frame

def places (s : Frame) : List Tid := s.executing ++ s.parked

/-- No two coroutines are blocked on the same descriptor. -/
def DistinctFds (s : Frame) : Prop := (s.events.map Event.fd).Nodup

instance (s : Frame) : Decidable s.DistinctFds := inferInstanceAs (Decidable (List.Nodup _))

end Frame

structure Consistent (s : Frame) (ex : List Tid) : Prop where
  perm : (ex ++ s.parked).Perm ((List.range s.allocated).filter (fun t => s.mainThread ≠ some t))
  runnable_ne_null : none ∉ s.threadRunnable
  waits : ∀ e ∈ s.events, s.ioWaitMap.find e.fd = some (some e.owner)
  waited : ∀ fd ∈ s.ioWaitMap.keys, fd ∈ s.events.map Event.fd
  resumes : ∀ t ∈ s.threadRunnable.reduceOption ++ s.ioWaitMap.values.reduceOption ++ s.threadPending,
    (s.threads t).Resumes t
  main : ∃ m : Nat, s.mainThread = some m ∧ m < s.allocated ∧ (s.threads m).uc = .start .mainThreadLoop
  heap : IsMinHeap s.wakeupTime s.threadPending

structure Partitioned (s : Frame) : Prop where
  consistent : Consistent s s.executing
  running : ∀ t, s.cpu = .coroutine t → s.runningThread = some t
  cpu_ne_fault : s.cpu ≠ .fault

namespace Consistent

variable {s : Frame} {ex : List Tid} {t : Nat}

theorem mem_iff (h : Consistent s ex) :
    t ∈ ex ++ s.parked ↔ t < s.allocated ∧ s.mainThread ≠ some t := by
  rw [h.perm.mem_iff]
  simp

theorem nodup (h : Consistent s ex) : (ex ++ s.parked).Nodup :=
  h.perm.nodup_iff.mpr (List.nodup_range.filter _)

theorem count_eq_one (h : Consistent s ex) (ht : t < s.allocated) (hm : s.mainThread ≠ some t) :
    (ex ++ s.parked).count t = 1 :=
  List.count_eq_one_of_mem h.nodup (h.mem_iff.mpr ⟨ht, hm⟩)

theorem exclusive (h : Consistent s ex) : Exclusive s ex := by
  refine ⟨fun t => ?_, h.resumes, h.main, h.heap⟩
  split_ifs with ht
  · exact List.nodup_iff_count_le_one.mp h.nodup t
  · exact (List.count_eq_zero.mpr fun hm => ht (h.mem_iff.mp hm)).le

theorem of_count {s' : Frame} {ex' : List Tid} (h : Consistent s ex) (h' : Exclusive s' ex')
    (hcount : ∀ t, (ex' ++ s'.parked).count t = (ex ++ s.parked).count t)
    (halloc : s'.allocated = s.allocated) (hmain : s'.mainThread = s.mainThread)
    (hnull : none ∉ s'.threadRunnable)
    (hwaits : ∀ e ∈ s'.events, s'.ioWaitMap.find e.fd = some (some e.owner))
    (hwaited : ∀ fd ∈ s'.ioWaitMap.keys, fd ∈ s'.events.map Event.fd) : Consistent s' ex' := by
  refine ⟨?_, hnull, hwaits, hwaited, h'.resumes, h'.main, h'.heap⟩
  rw [halloc, hmain]
  exact (List.perm_iff_count.mpr hcount).trans h.perm

end Consistent

theorem Consistent.schedule {s : Frame} (h : Consistent s []) : Partitioned s.schedule := by
  have ho := h.exclusive.schedule
  rcases h.exclusive.schedule_cases with ⟨hr, he⟩ | ⟨rest, hr, he⟩ | ⟨t, rest, hr, he⟩
  · rw [he]
    exact ⟨⟨h.perm, h.runnable_ne_null, h.waits, h.waited, h.resumes, h.main, h.heap⟩, by simp, by simp⟩
  · exact absurd (by simp [hr]) h.runnable_ne_null
  · rw [he] at ho ⊢
    refine ⟨h.of_count ho.exclusive (fun a => ?_) rfl rfl (fun hn => ?_) h.waits h.waited,
      ho.running, by simp⟩
    · simp [Frame.executing, Frame.parked, hr]
    · exact h.runnable_ne_null (by simp [hr, hn])

theorem Consistent.createThread {s : Frame} {ex : List Tid} (h : Consistent s ex) (w : WorkId) :
    Consistent (s.createThread w).2 ex := by
  have h' := h.exclusive.createThread w
  obtain ⟨t, free, n, he, -, hcase⟩ := s.createThread_eq w
  rw [he] at h' ⊢
  refine ⟨?_, by simpa using h.runnable_ne_null, h.waits, h.waited, h'.resumes, h'.main, h'.heap⟩
  rcases hcase with ⟨hf, rfl⟩ | ⟨rfl, rfl, rfl⟩
  · refine List.Perm.trans (List.perm_iff_count.mpr fun a => ?_) h.perm
    simp only [List.count_append, Frame.count_parked, count_some_singleton, hf]
    omega
  · obtain ⟨m, hm, hlt, -⟩ := h.main
    have hnew : s.mainThread ≠ some s.allocated := by
      rw [hm]
      exact fun hh => Nat.ne_of_lt hlt (Option.some.inj hh)
    rw [List.range_succ, List.filter_append]
    refine List.Perm.trans (List.perm_iff_count.mpr fun a => ?_) (h.perm.append_right _)
    simp only [List.count_append, Frame.count_parked, count_some_singleton,
      List.filter_cons_of_pos (p := fun t => decide (s.mainThread ≠ some t)) (by simpa using hnew),
      List.filter_nil]
    omega

theorem Consistent.not_mem_parked {s : Frame} {c : Tid} (h : Consistent s [c]) : c ∉ s.parked :=
  h.exclusive.not_mem_parked

theorem Consistent.blocked {s : Frame} {c : Tid} (h : Consistent s [c]) (call : SockCall) {fd : Fd}
    (hfd : fd ∉ s.events.map Event.fd) : Consistent (s.blocked c call fd) [] := by
  have hvals := AssocMap.values_assign_of_not_mem (some c) fun hk => hfd (h.waited fd hk)
  refine h.of_count (h.exclusive.blocked call fd) (fun t => ?_) rfl rfl h.runnable_ne_null
    (fun e he => ?_) (fun fd' hk => ?_)
  · simp only [List.nil_append, List.count_append, Frame.count_parked, Frame.blocked, hvals,
      count_some_singleton]
    omega
  · rcases List.mem_append.mp he with he | he
    · have hne : fd ≠ e.fd := fun hh => hfd (hh ▸ List.mem_map_of_mem he)
      simpa [Frame.blocked, AssocMap.find_assign_ne _ _ hne] using h.waits e he
    · obtain rfl := List.mem_singleton.mp he
      simp [Frame.blocked]
  · rcases AssocMap.mem_keys_assign.mp hk with rfl | hk
    · simp [Frame.blocked]
    · have hmem := h.waited fd' hk
      simp only [Frame.blocked, List.map_append]
      exact List.mem_append_left _ hmem

theorem Consistent.asleep {s : Frame} {c : Tid} (h : Consistent s [c]) (H : HeapAlgo Tid)
    (ts : Nat) : Consistent (s.asleep H c ts) [] := by
  have hperm := (h.exclusive.pushHeap_spec H ts).1
  refine h.of_count (h.exclusive.asleep H ts) (fun t => ?_) rfl rfl h.runnable_ne_null h.waits h.waited
  have hp := List.perm_iff_count.mp hperm t
  simp only [List.nil_append, Frame.count_parked, List.count_append, Frame.asleep] at hp ⊢
  omega

theorem Consistent.recycled {s : Frame} {c : Tid} (h : Consistent s [c]) :
    Consistent (s.recycled c) [] := by
  refine h.of_count h.exclusive.recycled (fun t => ?_) rfl rfl h.runnable_ne_null h.waits h.waited
  simp only [List.nil_append, Frame.count_parked, List.count_append, Frame.recycled]
  omega

theorem Consistent.socketReadOrWrite {s : Frame} (h : Consistent s []) (hd : s.DistinctFds)
    {e : Event} (he : e ∈ s.events) : Consistent (s.socketReadOrWrite e) [] := by
  have hfind := h.waits e he
  have hne : ∀ e' ∈ s.events.erase e, e'.fd ≠ e.fd := by
    intro e' he' hfd
    have hp : (s.events.map Event.fd).Perm (e.fd :: (s.events.erase e).map Event.fd) :=
      (List.perm_cons_erase he).map Event.fd
    have hn := List.nodup_cons.mp (hp.nodup_iff.mp hd)
    exact hn.1 (hfd ▸ List.mem_map_of_mem he')
  refine h.of_count (h.exclusive.socketReadOrWrite e) (fun t => ?_) rfl rfl ?_ (fun e' he' => ?_)
    (fun fd hfd => ?_)
  · have hv := AssocMap.count_values_erase s.ioWaitMap e.fd t
    simp only [List.nil_append, Frame.count_parked, Frame.socketReadOrWrite, List.count_append]
    omega
  · simpa [Frame.socketReadOrWrite, hfind] using h.runnable_ne_null
  · simp only [Frame.socketReadOrWrite] at he' ⊢
    rw [AssocMap.find_erase, if_neg (Ne.symm (hne e' he'))]
    exact h.waits e' (List.mem_of_mem_erase he')
  · obtain ⟨hfe, hk⟩ := AssocMap.mem_keys_erase.mp hfd
    obtain ⟨e', he', rfl⟩ := List.mem_map.mp (h.waited fd hk)
    have hee : e' ≠ e := fun hh => hfe (congrArg Event.fd hh)
    exact List.mem_map_of_mem ((List.mem_erase_of_ne hee).mpr he')

theorem Consistent.awoken {s : Frame} (h : Consistent s []) {woken rest : List Tid}
    (h' : Exclusive (s.awoken woken rest) []) (hperm : (woken ++ rest).Perm s.threadPending) :
    Consistent (s.awoken woken rest) [] := by
  refine h.of_count h' (fun t => ?_) rfl rfl ?_ h.waits h.waited
  · have hp := List.perm_iff_count.mp hperm t
    simp only [List.nil_append, Frame.count_parked, List.count_append, Frame.awoken,
      count_map_some] at hp ⊢
    omega
  · simpa [Frame.awoken] using h.runnable_ne_null

theorem Consistent.mainLoop {s : Frame} (h : Consistent s []) (p : LoopPhase) :
    Partitioned { s with cpu := .mainLoop p } :=
  ⟨⟨h.perm, h.runnable_ne_null, h.waits, h.waited, h.resumes, h.main, h.heap⟩, by simp, by simp⟩

theorem Partitioned.orderly {s : Frame} (h : Partitioned s) : Orderly s :=
  ⟨h.consistent.exclusive, h.running⟩

theorem Partitioned.of_coroutine {s : Frame} {c : Tid} (h : Partitioned s)
    (hc : s.cpu = .coroutine c) : Consistent s [c] :=
  Frame.executing_of_coroutine hc ▸ h.consistent

theorem Partitioned.of_mainLoop {s : Frame} {p : LoopPhase} (h : Partitioned s)
    (hc : s.cpu = .mainLoop p) : Consistent s [] :=
  Frame.executing_of_mainLoop hc ▸ h.consistent

theorem Partitioned.createThread {s : Frame} (h : Partitioned s) (w : WorkId) :
    Partitioned (s.createThread w).2 := by
  have hc := h.consistent.createThread w
  obtain ⟨t, free, n, he, _⟩ := s.createThread_eq w
  rw [he] at hc ⊢
  exact ⟨hc, h.running, h.cpu_ne_fault⟩

theorem Partitioned.step {H : HeapAlgo Tid} {s s' : Frame} {a : SchedLabel} (h : Partitioned s)
    (hd : s.DistinctFds) (hs : s.step H a = some s') (hd' : s'.DistinctFds) : Partitioned s' := by
  cases Frame.schedMove h.running hs with
  | create w hcpu => exact h.createThread w
  | wait call fd hcpu =>
    refine ((h.of_coroutine hcpu).blocked call fun hfd => ?_).schedule
    obtain ⟨_, _, _, he⟩ := (s.blocked _ call fd).schedule_eq
    rw [he, Frame.DistinctFds, Frame.blocked, List.map_append] at hd'
    exact List.disjoint_left.mp (List.disjoint_of_nodup_append hd') hfd (by simp)
  | sleep mstime ms hcpu => exact ((h.of_coroutine hcpu).asleep H _).schedule
  | finish hcpu => exact (h.of_coroutine hcpu).recycled.schedule
  | update mstime hcpu =>
    have hc := h.of_mainLoop hcpu
    exact ⟨⟨hc.perm, hc.runnable_ne_null, hc.waits, hc.waited, hc.resumes, hc.main, hc.heap⟩,
      by simp, by simp⟩
  | fire e he hcpu =>
    have hc := ((h.of_mainLoop hcpu).socketReadOrWrite hd he).mainLoop .eventLoop
    simpa only [Frame.socketReadOrWrite, hcpu] using hc
  | endEvents hcpu => exact (h.of_mainLoop hcpu).mainLoop .wakeup
  | wakeup hcpu =>
    have hc := h.of_mainLoop hcpu
    obtain ⟨woken, rest, he, h', hperm, -⟩ := hc.exclusive.wakeupPendingThread_spec H
    exact he ▸ (hc.awoken h' hperm).mainLoop .schedule
  | schedule hcpu => exact (h.of_mainLoop hcpu).schedule

theorem Frame.initWith_partitioned (pool : Nat) : Partitioned (Frame.initWith pool {}).2 := by
  have hrange : List.range (2 + pool) = 0 :: 1 :: List.range' 2 pool := by
    rw [List.range_eq_range', Nat.add_comm, List.range'_succ, List.range'_succ]
  have hrest : (List.range' 2 pool).filter (fun t => some 0 ≠ some t) = List.range' 2 pool := by
    apply List.filter_eq_self.mpr
    intro t ht
    have : 2 ≤ t := (List.mem_range'_1.mp ht).1
    simp
    omega
  have hperm : ([1] ++ List.range' 2 pool).Perm
      ((List.range (2 + pool)).filter (fun t => some 0 ≠ some t)) := by
    rw [hrange, List.filter_cons_of_neg (by simp), List.filter_cons_of_pos (by simp), hrest]
    exact List.Perm.refl _
  rw [Frame.initWith_eq]
  exact ⟨⟨hperm, by simp, by simp, by simp, by simp, ⟨0, rfl, Nat.add_pos_left (by omega) _, by simp⟩,
    isMinHeap_nil⟩, by simp, by simp⟩

structure QueuePartition (s : Frame) : Prop where
  once : ∀ t, t < s.allocated → s.mainThread ≠ some t → s.places.count t = 1
  running : ∀ t, s.cpu = .coroutine t → s.runningThread = some t
  runnable_ne_null : none ∉ s.threadRunnable
  create_keeps : ∀ w t, t < s.allocated → t ∉ s.threadFree →
    ((s.createThread w).2.threads t).stack = (s.threads t).stack ∧
    ((s.createThread w).2.threads t).uc = (s.threads t).uc

theorem Partitioned.queuePartition {s : Frame} (h : Partitioned s) : QueuePartition s := by
  refine ⟨fun t ht hm => h.consistent.count_eq_one ht hm, h.running, h.consistent.runnable_ne_null, ?_⟩
  intro w t ht hfree
  obtain ⟨t', free, n, he, -, hcase⟩ := s.createThread_eq w
  have hne : t ≠ t' := by
    rintro rfl
    rcases hcase with ⟨hf, _⟩ | ⟨rfl, _⟩
    · exact hfree (by simp [hf])
    · omega
  simp [he, Function.update_of_ne hne]

theorem partitioned_of_visits {H : HeapAlgo Tid} {as : List SchedLabel} {s : Frame}
    (hd : ∀ t, Visits (Frame.step H) Frame.start as t → t.DistinctFds)
    (h : Visits (Frame.step H) Frame.start as s) : Partitioned s := by
  have hinv : Partitioned s ∧ s.DistinctFds :=
    h.invariant_under (I := fun t => Partitioned t ∧ t.DistinctFds)
      ⟨Frame.initWith_partitioned 1000, hd _ (Visits.refl _ _ _)⟩
      (fun t a u ht hu hdu => ⟨ht.1.step ht.2 hu hdu, hdu⟩) hd
  exact hinv.1

/-- From `Frame::Init` on, in every run in which no two coroutines are blocked on
the same descriptor at the same time. -/
theorem scheduler_queue_partition (H : HeapAlgo Tid) (as : List SchedLabel) (s : Frame)
    (hd : ∀ t, Visits (Frame.step H) Frame.start as t → t.DistinctFds)
    (h : Visits (Frame.step H) Frame.start as s) : QueuePartition s :=
  (partitioned_of_visits hd h).queuePartition

/-- The caller creates a coroutine and sleeps, the coroutine blocks in `recv`. -/
theorem scheduler_queue_partition_wait :
    ∃ s, Visits (Frame.step (sortedHeap Tid)) Frame.start [.create 7, .sleep 0 10, .wait .recv 5] s ∧
      s.cpu = .mainLoop .update ∧ QueuePartition s := by
  have hd : ((trace (Frame.step (sortedHeap Tid)) Frame.start
      [.create 7, .sleep 0 10, .wait .recv 5]).all fun s => decide s.DistinctFds) = true := by
    rw [Frame.start, Frame.init, Frame.initWith_eq]
    decide +kernel
  have hcpu : (exec (Frame.step (sortedHeap Tid)) Frame.start
      [.create 7, .sleep 0 10, .wait .recv 5]).map Frame.cpu = some (.mainLoop .update) := by
    rw [Frame.start, Frame.init, Frame.initWith_eq]
    decide +kernel
  obtain ⟨s, hs, hc⟩ := Option.map_eq_some_iff.mp hcpu
  refine ⟨s, .of_exec hs, hc, scheduler_queue_partition (sortedHeap Tid) _ s (fun t ht => ?_) (.of_exec hs)⟩
  exact of_decide_eq_true (List.all_eq_true.mp hd t (mem_trace.mpr ht))

end Tinyco
