import Tinyco.SchedulerPartition

/-! A round of the scheduler, from the `Schedule()` of the main loop to its next turn: the runnable
threads are switched in one after the other, then those created in the meantime. -/

namespace Tinyco

/-- The coroutine to which the `Schedule()` called in a step has switched. -/
def SchedLabel.switchedIn (_ : Frame) (a : SchedLabel) (s : Frame) : List Tid :=
  match a with
  | .wait _ _ | .sleep _ _ | .finish | .schedule => s.executing
  | _ => []

def SchedLabel.created (s : Frame) (a : SchedLabel) (_ : Frame) : List Tid :=
  match a with
  | .create w => [(s.createThread w).1]
  | _ => []

def switches (H : HeapAlgo Tid) : Frame → List SchedLabel → List Tid :=
  observe (Frame.step H) SchedLabel.switchedIn

def creations (H : HeapAlgo Tid) : Frame → List SchedLabel → List Tid :=
  observe (Frame.step H) SchedLabel.created

theorem Exclusive.schedule_front {s : Frame} (h : Exclusive s []) (hnull : none ∉ s.threadRunnable) :
    s.threadRunnable = s.schedule.executing.map some ++ s.schedule.threadRunnable := by
  rcases h.schedule_cases with ⟨hr, he⟩ | ⟨rest, hr, he⟩ | ⟨t, rest, hr, he⟩
  · simp [he, Frame.executing]
  · exact absurd (by simp [hr]) hnull
  · simp [he, hr, Frame.executing]

/-- Outside the polling part of the main loop `CreateThread` alone adds to the runnable list, and
`Schedule()` alone takes from it. -/
theorem Partitioned.runnable_step {H : HeapAlgo Tid} {s s' : Frame} {a : SchedLabel}
    (h : Partitioned s) (hp : ¬ s.Polling) (hs : s.step H a = some s') :
    s.threadRunnable ++ (a.created s s').map some = (a.switchedIn s s').map some ++ s'.threadRunnable := by
  have hnull := h.consistent.runnable_ne_null
  cases Frame.schedMove h.running hs with
  | create w hcpu =>
    obtain ⟨t, free, n, he, hfst, -⟩ := s.createThread_eq w
    simp [SchedLabel.created, SchedLabel.switchedIn, hfst, he]
  | wait call fd hcpu =>
    exact (List.append_nil _).trans
      (((h.of_coroutine hcpu).exclusive.blocked call fd).schedule_front hnull)
  | sleep mstime ms hcpu =>
    exact (List.append_nil _).trans
      (((h.of_coroutine hcpu).exclusive.asleep H (mstime + ms)).schedule_front hnull)
  | finish hcpu =>
    exact (List.append_nil _).trans ((h.of_coroutine hcpu).exclusive.recycled.schedule_front hnull)
  | update mstime hcpu => simp [SchedLabel.created, SchedLabel.switchedIn]
  | fire e he hcpu => exact absurd (.inl hcpu) hp
  | endEvents hcpu => exact absurd (.inl hcpu) hp
  | wakeup hcpu => exact absurd (.inr hcpu) hp
  | schedule hcpu =>
    exact (List.append_nil _).trans ((h.of_mainLoop hcpu).exclusive.schedule_front hnull)

theorem Orderly.runnable_of_update {H : HeapAlgo Tid} {s s' : Frame} {a : SchedLabel} (h : Orderly s)
    (hs : s.step H a = some s') (hcpu' : s'.cpu = .mainLoop .update) : s'.threadRunnable = [] := by
  have hsched {x : Frame} (hx : Exclusive x []) (hcpu : x.schedule.cpu = .mainLoop .update) :
      x.schedule.threadRunnable = [] := by
    rcases hx.schedule_cases with ⟨hr, he⟩ | ⟨rest, -, he⟩ | ⟨t, rest, -, he⟩
    · simp [he, hr]
    · simp [he] at hcpu
    · simp [he] at hcpu
  cases Frame.schedMove h.running hs with
  | create w hcpu =>
    obtain ⟨t, free, n, he, -⟩ := s.createThread_eq w
    simp [he, hcpu] at hcpu'
  | wait call fd hcpu => exact hsched ((h.of_coroutine hcpu).1.blocked call fd) hcpu'
  | sleep mstime ms hcpu => exact hsched ((h.of_coroutine hcpu).1.asleep H _) hcpu'
  | finish hcpu => exact hsched (h.of_coroutine hcpu).1.recycled hcpu'
  | update mstime hcpu => simp at hcpu'
  | fire e he hcpu => simp [Frame.socketReadOrWrite, hcpu] at hcpu'
  | endEvents hcpu => simp at hcpu'
  | wakeup hcpu => simp at hcpu'
  | schedule hcpu => exact hsched (h.of_mainLoop hcpu) hcpu'

theorem Frame.cpu_of_step_schedule {H : HeapAlgo Tid} {s s' : Frame}
    (hs : s.step H .schedule = some s') : s.cpu = .mainLoop .schedule := by
  simp only [Frame.step, Option.ite_none_right_eq_some] at hs
  exact hs.1

/-- The round `as` that `s` begins has come to `s'`. -/
structure RoundInOrder (H : HeapAlgo Tid) (s : Frame) (as : List SchedLabel) (s' : Frame) : Prop where
  order : (switches H s as).map some ++ s'.threadRunnable =
    s.threadRunnable ++ (creations H s as).map some
  switched : s'.cpu = .mainLoop .update →
    (switches H s as).map some = s.threadRunnable ++ (creations H s as).map some
  count : s'.cpu = .mainLoop .update →
    (switches H s as).length = s.threadRunnable.length + (creations H s as).length

/-- In every run in which no two coroutines are blocked on the same descriptor at the same time, and
every round of it: from the `Schedule()` of the main loop to the next `UpdateLoopTimestamp`. -/
theorem round_first_come_first_served (H : HeapAlgo Tid) (pre as : List SchedLabel) (s s' : Frame)
    (hd : ∀ t, Visits (Frame.step H) Frame.start (pre ++ .schedule :: as) t → t.DistinctFds)
    (hpre : exec (Frame.step H) Frame.start pre = some s) (hround : ∀ n, .update n ∉ as)
    (h : exec (Frame.step H) s (.schedule :: as) = some s') :
    RoundInOrder H s (.schedule :: as) s' := by
  have hpart {x : Frame} (hx : Visits (Frame.step H) s (.schedule :: as) x) : Partitioned x :=
    partitioned_of_visits hd (.of_exec_append hpre hx)
  obtain ⟨s₁, hs₁, h₁⟩ := Option.bind_eq_some_iff.mp h
  have hcpu := Frame.cpu_of_step_schedule hs₁
  have hpoll {x : Frame} (hx : Visits (Frame.step H) s (.schedule :: as) x) : ¬ x.Polling := by
    refine hx.invariant_takes (I := fun x => ¬ x.Polling) (by simp [Frame.Polling, hcpu]) ?_
    intro x a y hnot hxy hp
    rcases (hpart hxy.visits_source).orderly.polling_step hxy.step_eq hp with rfl | ⟨hx, -⟩
    · exact hround _ (by simpa using hxy.mem)
    · exact hnot hx
  have horder := exec_fifo (q := Frame.threadRunnable)
    (fun x a y hxy => (hpart hxy.visits_source).runnable_step (hpoll hxy.visits_source) hxy.step_eq) h
  rw [observe_map, observe_map] at horder
  have hempty (hu : s'.cpu = .mainLoop .update) : s'.threadRunnable = [] := by
    refine (Visits.of_exec h).invariant_takes
      (I := fun x => x.cpu = .mainLoop .update → x.threadRunnable = []) (by simp [hcpu]) ?_ hu
    intro x a y _ hxy
    exact (hpart hxy.visits_source).orderly.runnable_of_update hxy.step_eq
  have hswitched (hu : s'.cpu = .mainLoop .update) : (switches H s (.schedule :: as)).map some =
      s.threadRunnable ++ (creations H s (.schedule :: as)).map some := by
    rw [hempty hu, List.append_nil] at horder
    exact horder.symm
  refine ⟨horder.symm, hswitched, fun hu => ?_⟩
  simpa using congrArg List.length (hswitched hu)

/-- Two coroutines are runnable, the first creates a third. -/
theorem round_of_three_in_order :
    ∃ s s', RoundInOrder (sortedHeap Tid) s [.schedule, .create 9, .finish, .wait .recv 6, .finish] s' ∧
      s.threadRunnable = [some 1001, some 1000] ∧ s'.cpu = .mainLoop .update ∧
      switches (sortedHeap Tid) s [.schedule, .create 9, .finish, .wait .recv 6, .finish] =
        [1001, 1000, 999] := by
  let pre : List SchedLabel := [.create 7, .create 8, .sleep 0 10, .wait .recv 5, .wait .recv 6,
    .update 0, .fire ⟨5, [.read, .closed], 1001⟩, .fire ⟨6, [.read, .closed], 1000⟩, .endEvents, .wakeup]
  let round : List SchedLabel := [.schedule, .create 9, .finish, .wait .recv 6, .finish]
  have hd : ((trace (Frame.step (sortedHeap Tid)) Frame.start (pre ++ round)).all
      fun s => decide s.DistinctFds) = true := by
    rw [Frame.start, Frame.init, Frame.initWith_eq]
    decide +kernel
  have hrun : ((exec (Frame.step (sortedHeap Tid)) Frame.start pre).bind fun s =>
      (exec (Frame.step (sortedHeap Tid)) s round).map fun s' =>
        (s.threadRunnable, s'.cpu, switches (sortedHeap Tid) s round)) =
      some ([some 1001, some 1000], .mainLoop .update, [1001, 1000, 999]) := by
    rw [Frame.start, Frame.init, Frame.initWith_eq]
    decide +kernel
  obtain ⟨s, hs, hrun⟩ := Option.bind_eq_some_iff.mp hrun
  obtain ⟨s', hs', hvalues⟩ := Option.map_eq_some_iff.mp hrun
  simp only [Prod.mk.injEq] at hvalues
  refine ⟨s, s', round_first_come_first_served (sortedHeap Tid) pre _ s s' (fun t ht => ?_) hs
    (by simp) hs', hvalues⟩
  exact of_decide_eq_true (List.all_eq_true.mp hd t (mem_trace.mpr ht))

end Tinyco
