import Tinyco.SchedulerRefinement
import Tinyco.SchedulerRound

/-! What becomes of the coroutines of a run: each is live in one place or has ended once, and one
that is woken up executes before the main loop looks for events again. -/

namespace Tinyco

/-- The coroutines created by the labels, the first of them with the number `n`. -/
def createdTasks (n : Nat) : List SchedLabel → List (Task WorkId)
  | [] => []
  | .create w :: as => ⟨n, some w⟩ :: createdTasks (n + 1) as
  | _ :: as => createdTasks n as

/-- The coroutine whose `HandleProcess` comes to its end in a step. -/
def SchedLabel.ended (s : Frame) (a : SchedLabel) (_ : Frame) : List (Task WorkId) :=
  match a with
  | .finish => s.executing.map s.task
  | _ => []

def SchedLabel.spawned (s : Frame) (a : SchedLabel) (_ : Frame) : List (Task WorkId) :=
  match a with
  | .create w => [⟨s.stacksMade, some w⟩]
  | _ => []

def endedTasks (H : HeapAlgo Tid) : Frame → List SchedLabel → List (Task WorkId) :=
  observe (Frame.step H) SchedLabel.ended

def Frame.liveTasks (s : Frame) : List (Task WorkId) := (s.executing ++ s.bound).map s.task

section Conservation

variable {H : HeapAlgo Tid} {s s' : Frame} {a : SchedLabel} {x : TaskSystem WorkId Fd}

theorem Frame.control_tasks (hx : s.tasks = some x) : x.control.tasks = s.executing.map s.task := by
  cases hcpu : s.cpu with
  | fault => simp [Frame.tasks, Frame.control, hcpu] at hx
  | coroutine c =>
    obtain rfl := Option.some.inj ((Frame.tasks_of_coroutine hcpu).symm.trans hx)
    simp [Frame.tasksUnder, Control.tasks, Frame.executing, hcpu]
  | mainLoop p =>
    obtain rfl := Option.some.inj ((Frame.tasks_of_mainLoop hcpu).symm.trans hx)
    simp [Frame.tasksUnder, Control.tasks, Frame.executing, hcpu]

theorem Frame.tasks_eq (hx : s.tasks = some x) : x = s.tasksUnder x.control := by
  obtain ⟨c, -, rfl⟩ := Option.map_eq_some_iff.mp hx
  rfl

theorem Frame.live_eq (hx : s.tasks = some x) : x.live = s.liveTasks := by
  have hc := Frame.control_tasks hx
  rw [TaskSystem.live, hc, Frame.tasks_eq hx]
  simp only [Frame.tasksUnder, Frame.liveTasks, Frame.bound, Multiset.map_coe, List.map_map,
    Function.comp_def, List.map_append, ← Multiset.coe_add, add_assoc]

theorem Frame.spawned_eq (hx : s.tasks = some x) : x.spawned a.task = a.spawned s s' := by
  rw [Frame.tasks_eq hx]
  cases a <;> rfl

theorem Frame.ended_eq (hx : s.tasks = some x) : x.ended a.task = a.ended s s' := by
  cases a <;> first | rfl | exact Frame.control_tasks hx

theorem Frame.stacksMade_step (h : Orderly s) (hs : s.step H a = some s') :
    s'.stacksMade = s.stacksMade + (a.spawned s s').length := by
  have hsched (x : Frame) : x.schedule.stacksMade = x.stacksMade := by
    obtain ⟨_, _, _, he⟩ := x.schedule_eq
    rw [he]
  cases Frame.schedMove h.running hs with
  | create w hcpu =>
    obtain ⟨t, free, n, he, -⟩ := s.createThread_eq w
    simp [he, SchedLabel.spawned]
  | wait call fd hcpu => exact hsched _
  | sleep mstime ms hcpu => exact hsched _
  | finish hcpu => exact hsched _
  | update mstime hcpu => rfl
  | fire e he hcpu => rfl
  | endEvents hcpu => rfl
  | wakeup hcpu =>
    obtain ⟨woken, rest, he, -⟩ := (h.of_mainLoop hcpu).wakeupPendingThread_spec H
    simp [he, Frame.awoken, SchedLabel.spawned]
  | schedule hcpu => exact hsched _

theorem observe_spawned {as : List SchedLabel} (h : Orderly s)
    (hs : exec (Frame.step H) s as = some s') :
    observe (Frame.step H) SchedLabel.spawned s as = createdTasks s.stacksMade as := by
  induction as generalizing s with
  | nil => rfl
  | cons a as ih =>
    obtain ⟨t, ht, hs⟩ := Option.bind_eq_some_iff.mp hs
    rw [observe_cons _ ht, ih (h.step ht) hs, Frame.stacksMade_step h ht]
    cases a <;> rfl

end Conservation

theorem createdTasks_numbers (n : Nat) (as : List SchedLabel) :
    (createdTasks n as).map Task.number = List.range' n (createdTasks n as).length := by
  induction as generalizing n with
  | nil => rfl
  | cons a as ih =>
    cases a with
    | create w => simp [createdTasks, ih, List.range'_succ]
    | _ => exact ih n

/-- In every run in which no two coroutines are blocked on the same descriptor at the same time:
the program and the coroutines it has created, each with its work, are those that are live and
those that have ended. None is missing and none is there twice. -/
theorem coroutines_live_or_ended_once (H : HeapAlgo Tid) (as : List SchedLabel) (s : Frame)
    (hd : ∀ t, Visits (Frame.step H) Frame.start as t → t.DistinctFds)
    (h : exec (Frame.step H) Frame.start as = some s) :
    (s.liveTasks ++ endedTasks H Frame.start as).Perm (⟨1, none⟩ :: createdTasks 2 as) ∧
      ((s.liveTasks ++ endedTasks H Frame.start as).map Task.number).Nodup := by
  have hpart {t : Frame} (ht : Visits (Frame.step H) Frame.start as t) : Partitioned t :=
    partitioned_of_visits hd ht
  have htasks {t : Frame} (ht : Visits (Frame.step H) Frame.start as t) : ∃ x, t.tasks = some x := by
    cases hcpu : t.cpu with
    | fault => exact absurd hcpu (hpart ht).cpu_ne_fault
    | coroutine c => exact ⟨_, Frame.tasks_of_coroutine hcpu⟩
    | mainLoop p => exact ⟨_, Frame.tasks_of_mainLoop hcpu⟩
  have hbalance := exec_balance (q := fun s => (s.liveTasks : Multiset (Task WorkId)))
    (f := SchedLabel.spawned) (g := SchedLabel.ended) (fun t a u htu => ?_) h
  · have hfirst : Frame.start.liveTasks = [⟨1, none⟩] ∧ Frame.start.stacksMade = 2 := by
      rw [Frame.start, Frame.init, Frame.initWith_eq]
      exact ⟨rfl, rfl⟩
    rw [observe_spawned (hpart (.refl _ _ _)).orderly h, hfirst.1, hfirst.2,
      Multiset.coe_add, Multiset.coe_add, Multiset.coe_eq_coe] at hbalance
    have hperm : (s.liveTasks ++ endedTasks H Frame.start as).Perm (⟨1, none⟩ :: createdTasks 2 as) :=
      hbalance.symm
    refine ⟨hperm, (hperm.map Task.number).nodup_iff.mpr ?_⟩
    rw [List.map_cons, createdTasks_numbers]
    change (List.range' 1 ((createdTasks 2 as).length + 1)).Nodup
    exact List.nodup_range'
  · obtain ⟨x, hx⟩ := htasks htu.visits_source
    obtain ⟨y, hy, hnext⟩ := (hpart htu.visits_source).tasks_step htu.step_eq (hd u htu.visits) hx
    have hlive := hy.live_add
    rwa [Frame.live_eq hx, Frame.live_eq hnext, Frame.spawned_eq hx, Frame.ended_eq hx] at hlive

/-- Two coroutines are created; one has ended, one waits and the program sleeps. -/
theorem coroutines_live_or_ended_once_two :
    ∃ s, exec (Frame.step (sortedHeap Tid)) Frame.start
        [.create 7, .create 8, .sleep 0 10, .wait .recv 5, .finish] = some s ∧
      (s.liveTasks ++ endedTasks (sortedHeap Tid) Frame.start
        [.create 7, .create 8, .sleep 0 10, .wait .recv 5, .finish]).Perm
          [⟨1, none⟩, ⟨2, some 7⟩, ⟨3, some 8⟩] := by
  let as : List SchedLabel := [.create 7, .create 8, .sleep 0 10, .wait .recv 5, .finish]
  have hd : ((trace (Frame.step (sortedHeap Tid)) Frame.start as).all
      fun s => decide s.DistinctFds) = true := by
    rw [Frame.start, Frame.init, Frame.initWith_eq]
    decide +kernel
  have hrun : (exec (Frame.step (sortedHeap Tid)) Frame.start as).isSome = true := by
    rw [Frame.start, Frame.init, Frame.initWith_eq]
    decide +kernel
  obtain ⟨s, hs⟩ := Option.isSome_iff_exists.mp hrun
  exact ⟨s, hs, (coroutines_live_or_ended_once (sortedHeap Tid) as s
    (fun t ht => of_decide_eq_true (List.all_eq_true.mp hd t (mem_trace.mpr ht))) hs).1⟩

section Wakeups

variable {H : HeapAlgo Tid} {s s' : Frame} {a : SchedLabel} {t : Tid}

/-- A step after which `t` can run: its event occurs, its time is up when the main loop looks at
the sleepers, or it is created. -/
def SchedLabel.Wakes (a : SchedLabel) (s : Frame) (t : Tid) : Prop :=
  match a with
  | .fire e => e.owner = t
  | .wakeup => t ∈ s.threadPending ∧ s.wakeupTime t ≤ s.lastLoopTs
  | .create w => (s.createThread w).1 = t
  | _ => False

theorem Partitioned.runnable_of_wakes (h : Partitioned s) (hs : s.step H a = some s')
    (hw : a.Wakes s t) : some t ∈ s'.threadRunnable := by
  cases Frame.schedMove h.running hs with
  | create w hcpu =>
    obtain ⟨t', free, n, he, hfst, -⟩ := s.createThread_eq w
    rw [he]
    simp [← hfst, show (s.createThread w).1 = t from hw]
  | fire e he hcpu =>
    obtain rfl : e.owner = t := hw
    simp [Frame.socketReadOrWrite, h.consistent.waits e he]
  | wakeup hcpu =>
    obtain ⟨hmem, hdue⟩ := hw
    obtain ⟨woken, rest, he, -, hperm, -, hlate⟩ := (h.of_mainLoop hcpu).exclusive.wakeupPendingThread_spec H
    have hwoken : t ∈ woken := by
      rcases List.mem_append.mp (hperm.mem_iff.mpr hmem) with hh | hh
      · exact hh
      · exact absurd hdue (not_le.mpr (hlate t hh))
    simp [he, Frame.awoken, hwoken]
  | wait => exact hw.elim
  | sleep => exact hw.elim
  | finish => exact hw.elim
  | update => exact hw.elim
  | endEvents => exact hw.elim
  | schedule => exact hw.elim

theorem Exclusive.cpu_of_left (h : Exclusive s []) (hin : some t ∈ s.threadRunnable)
    (hout : some t ∉ s.schedule.threadRunnable) : s.schedule.cpu = .coroutine t := by
  rcases h.schedule_cases with ⟨hr, he⟩ | ⟨rest, hr, he⟩ | ⟨t', rest, hr, he⟩
  · simp [hr] at hin
  · rw [he] at hout
    simp [hr, show some t ∉ rest from hout] at hin
  · rw [he] at hout ⊢
    rw [hr, List.mem_cons] at hin
    rcases hin with hh | hh
    · rw [Option.some.inj hh]
    · exact absurd hh hout

/-- A thread leaves the runnable list only to execute. -/
theorem Orderly.cpu_of_left (h : Orderly s) (hs : s.step H a = some s')
    (hin : some t ∈ s.threadRunnable) (hout : some t ∉ s'.threadRunnable) : s'.cpu = .coroutine t := by
  cases Frame.schedMove h.running hs with
  | create w hcpu =>
    obtain ⟨t', free, n, he, -⟩ := s.createThread_eq w
    simp [he, hin] at hout
  | wait call fd hcpu => exact ((h.of_coroutine hcpu).1.blocked call fd).cpu_of_left hin hout
  | sleep mstime ms hcpu => exact ((h.of_coroutine hcpu).1.asleep H _).cpu_of_left hin hout
  | finish hcpu => exact (h.of_coroutine hcpu).1.recycled.cpu_of_left hin hout
  | update mstime hcpu => exact absurd hin hout
  | fire e he hcpu => simp [Frame.socketReadOrWrite, hin] at hout
  | endEvents hcpu => exact absurd hin hout
  | wakeup hcpu =>
    obtain ⟨woken, rest, he, -⟩ := (h.of_mainLoop hcpu).wakeupPendingThread_spec H
    simp [he, Frame.awoken, hin] at hout
  | schedule hcpu => exact (h.of_mainLoop hcpu).cpu_of_left hin hout

end Wakeups

/-- No wakeup is lost: in a run in which no two coroutines are blocked on the same descriptor at
the same time, a coroutine that a step wakes up executes before the main loop begins another turn. -/
theorem woken_executes_before_next_turn (H : HeapAlgo Tid) (pre as : List SchedLabel)
    (s s₁ s' : Frame) (a : SchedLabel) (t : Tid)
    (hd : ∀ u, Visits (Frame.step H) Frame.start (pre ++ a :: as) u → u.DistinctFds)
    (hpre : exec (Frame.step H) Frame.start pre = some s) (hs : s.step H a = some s₁)
    (hw : a.Wakes s t) (h : exec (Frame.step H) s₁ as = some s') (hu : s'.cpu = .mainLoop .update) :
    ∃ u, Visits (Frame.step H) s₁ as u ∧ u.cpu = .coroutine t := by
  have hpart {x : Frame} (hx : Visits (Frame.step H) s (a :: as) x) : Partitioned x :=
    partitioned_of_visits hd (.of_exec_append hpre hx)
  have hafter {x : Frame} (hx : Visits (Frame.step H) s₁ as x) : Partitioned x :=
    hpart (visits_cons_iff.mpr (.inr ⟨s₁, hs, hx⟩))
  have hin := (hpart (.refl _ _ _)).runnable_of_wakes hs hw
  have hempty : s'.threadRunnable = [] := by
    have hall : exec (Frame.step H) Frame.start (pre ++ a :: as) = some s' := by
      simp [exec_append, hpre, exec_cons, hs, h]
    have hstart : Frame.start.cpu = .coroutine 1 := by
      rw [Frame.start, Frame.init, Frame.initWith_eq]
    refine (Visits.of_exec hall).invariant_takes
      (I := fun x => x.cpu = .mainLoop .update → x.threadRunnable = []) (by simp [hstart]) ?_ hu
    intro x b y _ hxy
    exact (partitioned_of_visits hd hxy.visits_source).orderly.runnable_of_update hxy.step_eq
  obtain ⟨x, b, y, hxy, hx, hy⟩ := exists_takes_of_gained
    (P := fun x : Frame => some t ∉ x.threadRunnable) (not_not.mpr hin) h (by simp [hempty])
  exact ⟨y, hxy.visits, (hafter hxy.visits_source).orderly.cpu_of_left hxy.step_eq (not_not.mp hx) hy⟩

/-- A coroutine blocks in `recv`; its event occurs and it ends before the next turn. -/
theorem woken_executes_before_next_turn_recv :
    ∃ s₁ s' u, exec (Frame.step (sortedHeap Tid)) s₁ [.endEvents, .wakeup, .schedule, .finish] = some s' ∧
      Visits (Frame.step (sortedHeap Tid)) s₁ [.endEvents, .wakeup, .schedule, .finish] u ∧
      u.cpu = .coroutine 1001 := by
  let pre : List SchedLabel := [.create 7, .sleep 0 10, .wait .recv 5, .update 3]
  let fired : SchedLabel := .fire ⟨5, [.read, .closed], 1001⟩
  let as : List SchedLabel := [.endEvents, .wakeup, .schedule, .finish]
  have hd : ((trace (Frame.step (sortedHeap Tid)) Frame.start (pre ++ fired :: as)).all
      fun s => decide s.DistinctFds) = true := by
    rw [Frame.start, Frame.init, Frame.initWith_eq]
    decide +kernel
  have hrun : ((exec (Frame.step (sortedHeap Tid)) Frame.start pre).bind fun s =>
      (s.step (sortedHeap Tid) fired).bind fun s₁ =>
        (exec (Frame.step (sortedHeap Tid)) s₁ as).map Frame.cpu) = some (.mainLoop .update) := by
    rw [Frame.start, Frame.init, Frame.initWith_eq]
    decide +kernel
  obtain ⟨s, hs, hrun⟩ := Option.bind_eq_some_iff.mp hrun
  obtain ⟨s₁, hs₁, hrun⟩ := Option.bind_eq_some_iff.mp hrun
  obtain ⟨s', hs', hcpu⟩ := Option.map_eq_some_iff.mp hrun
  obtain ⟨u, hu, hexec⟩ := woken_executes_before_next_turn (sortedHeap Tid) pre as s s₁ s' fired 1001
    (fun t ht => of_decide_eq_true (List.all_eq_true.mp hd t (mem_trace.mpr ht))) hs hs₁ rfl hs' hcpu
  exact ⟨s₁, s', u, hs', hu, hexec⟩

end Tinyco
