import Tinyco.SchedulerPartition

/-! Several coroutines on one descriptor. The map of waiters has one entry a
descriptor while libevent holds one event a waiter. -/

namespace Tinyco

/-- The callback of each registered event makes runnable the coroutine that
registered it, once, and nothing else. -/
structure CallbacksRight (s : Frame) : Prop where
  runnable_ne_null : none ∉ s.threadRunnable
  runnable_nodup : s.threadRunnable.Nodup
  wakes : ∀ e ∈ s.events, some e.owner ∉ s.threadRunnable ∧
    (s.socketReadOrWrite e).threadRunnable = s.threadRunnable ++ [some e.owner]

theorem nodup_of_reduceOption {α : Type*} {l : List (Option α)} (hn : none ∉ l)
    (h : l.reduceOption.Nodup) : l.Nodup := by
  induction l with
  | nil => exact List.nodup_nil
  | cons o l ih =>
    cases o with
    | none => simp at hn
    | some a =>
      rw [List.reduceOption_cons_of_some, List.nodup_cons, List.reduceOption_mem_iff] at h
      exact List.nodup_cons.mpr ⟨h.1, ih (fun hh => hn (List.mem_cons_of_mem _ hh)) h.2⟩

theorem Consistent.owner_mem_values {s : Frame} {ex : List Tid} (h : Consistent s ex) {e : Event}
    (he : e ∈ s.events) : e.owner ∈ s.ioWaitMap.values.reduceOption := by
  rw [List.reduceOption_mem_iff]
  exact (AssocMap.values_perm_erase (h.waits e he)).mem_iff.mpr (by simp)

theorem Partitioned.callbacksRight {s : Frame} (h : Partitioned s) : CallbacksRight s := by
  have hc := h.consistent
  have hn : s.threadRunnable.reduceOption.Nodup := by
    refine hc.nodup.sublist ?_
    simp only [Frame.parked, List.append_assoc]
    exact (List.sublist_append_left _ _).trans (List.sublist_append_right _ _)
  refine ⟨hc.runnable_ne_null, nodup_of_reduceOption hc.runnable_ne_null hn, fun e he => ⟨?_, ?_⟩⟩
  · intro hr
    have hnd := (List.nodup_append.mp hc.nodup).2.1
    simp only [Frame.parked, List.append_assoc] at hnd
    have hdis := List.disjoint_of_nodup_append hnd
    exact List.disjoint_left.mp hdis (List.reduceOption_mem_iff.mpr hr)
      (List.mem_append_left _ (hc.owner_mem_values he))
  · simp [Frame.socketReadOrWrite, hc.waits e he]

/-- A coroutine that waits where another one waits already replaces it in the map. -/
theorem CallbacksRight.blocked_fd {s : Frame} {c : Tid} (h : Consistent s [c]) {call : SockCall}
    {fd : Fd} (hr : CallbacksRight (s.blocked c call fd).schedule) : fd ∉ s.events.map Event.fd := by
  intro hfd
  obtain ⟨e, he, rfl⟩ := List.mem_map.mp hfd
  obtain ⟨_, _, _, hsched⟩ := (s.blocked c call e.fd).schedule_eq
  rw [hsched] at hr
  have hw := (hr.wakes e (List.mem_append_left _ he)).2
  simp only [Frame.socketReadOrWrite, Frame.blocked, AssocMap.find_assign_self,
    Option.getD_some, List.append_cancel_left_eq, List.cons.injEq, Option.some.injEq, and_true] at hw
  have hpark : c ∈ s.parked := by
    rw [hw]
    simp only [Frame.parked, List.mem_append]
    exact .inl (.inl (.inr (h.owner_mem_values he)))
  exact h.not_mem_parked hpark

theorem Frame.DistinctFds.schedule {s : Frame} (h : s.DistinctFds) : s.schedule.DistinctFds := by
  obtain ⟨_, _, _, he⟩ := s.schedule_eq
  rw [he]
  exact h

theorem Partitioned.distinctFds_step {H : HeapAlgo Tid} {s s' : Frame} {a : SchedLabel}
    (h : Partitioned s) (hd : s.DistinctFds) (hs : s.step H a = some s') (hr : CallbacksRight s') :
    s'.DistinctFds := by
  cases Frame.schedMove h.running hs with
  | create w hcpu =>
    obtain ⟨t, free, n, he, _⟩ := s.createThread_eq w
    rw [he]
    exact hd
  | wait call fd hcpu =>
    have hfd := CallbacksRight.blocked_fd (h.of_coroutine hcpu) hr
    refine Frame.DistinctFds.schedule ?_
    rw [Frame.DistinctFds, Frame.blocked, List.map_append, List.nodup_append]
    refine ⟨hd, by simp, fun x hx y hy hxy => hfd ?_⟩
    obtain rfl : y = fd := by simpa using hy
    exact hxy ▸ hx
  | sleep mstime ms hcpu => exact Frame.DistinctFds.schedule (s := s.asleep H _ _) hd
  | finish hcpu => exact Frame.DistinctFds.schedule (s := s.recycled _) hd
  | update mstime hcpu => exact hd
  | fire e he hcpu => exact hd.sublist (List.erase_sublist.map Event.fd)
  | endEvents hcpu => exact hd
  | wakeup hcpu =>
    obtain ⟨woken, rest, he, -⟩ := (h.orderly.of_mainLoop hcpu).wakeupPendingThread_spec H
    rw [he]
    exact hd
  | schedule hcpu => exact hd.schedule

theorem Frame.initWith_distinctFds (pool : Nat) : (Frame.initWith pool {}).2.DistinctFds := by
  rw [Frame.initWith_eq]
  exact List.nodup_nil

/-- The callbacks wake the right coroutines throughout a run exactly when no two
coroutines are blocked on the same descriptor anywhere in it. -/
theorem callbacks_right_iff_distinct_fds (H : HeapAlgo Tid) (as : List SchedLabel) :
    (∀ s, Visits (Frame.step H) Frame.start as s → CallbacksRight s) ↔
      ∀ s, Visits (Frame.step H) Frame.start as s → s.DistinctFds := by
  constructor
  · intro hr s hv
    have hinv : Partitioned s ∧ s.DistinctFds :=
      hv.invariant_under (I := fun t => Partitioned t ∧ t.DistinctFds)
        ⟨Frame.initWith_partitioned 1000, Frame.initWith_distinctFds 1000⟩
        (fun t a u ht hu hru =>
          have hdu := ht.1.distinctFds_step ht.2 hu hru
          ⟨ht.1.step ht.2 hu hdu, hdu⟩) hr
    exact hinv.2
  · intro hd s hv
    exact (partitioned_of_visits hd hv).callbacksRight

/-- One coroutine sends and one receives on descriptor 5. The event of the sender
wakes the receiver, the event of the receiver then enqueues null. -/
theorem shared_fd_enqueues_null :
    (exec (Frame.step (sortedHeap Tid)) Frame.start
      [.create 1, .create 2, .sleep 0 10, .wait .send 5, .wait .recv 5, .update 1,
        .fire ⟨5, [.write], 1001⟩, .fire ⟨5, [.read, .closed], 1000⟩]).map Frame.threadRunnable =
      some [some 1000, none] ∧
    ¬ ∀ as s, Visits (Frame.step (sortedHeap Tid)) Frame.start as s → CallbacksRight s := by
  have he : (exec (Frame.step (sortedHeap Tid)) Frame.start
      [.create 1, .create 2, .sleep 0 10, .wait .send 5, .wait .recv 5, .update 1,
        .fire ⟨5, [.write], 1001⟩, .fire ⟨5, [.read, .closed], 1000⟩]).map Frame.threadRunnable =
      some [some 1000, none] := by
    rw [Frame.start, Frame.init, Frame.initWith_eq]
    decide +kernel
  refine ⟨he, fun hr => ?_⟩
  obtain ⟨s, hs, hq⟩ := Option.map_eq_some_iff.mp he
  exact (hr _ s (.of_exec hs)).runnable_ne_null (by simp [hq])

end Tinyco
