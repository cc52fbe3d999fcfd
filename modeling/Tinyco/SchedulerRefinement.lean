import Tinyco.SharedDescriptor
import Tinyco.TaskSystem

/-! The scheduler as a system of tasks. The pool of threads, the contexts and the map of waiting
threads are not seen there: a coroutine is the task it was created for, whichever `Thread` object
it got, and its number is that of the stack it was given. -/

namespace Tinyco

def Thread.task (th : Thread) : Task WorkId where
  number := th.stack.getD 0
  work :=
    match th.fn with
    | some (.handleProcess w) => some w
    | _ => none

def LoopPhase.part : LoopPhase → TurnPart
  | .update => .clock
  | .eventLoop => .events
  | .wakeup => .timers
  | .schedule => .dispatch

def SchedLabel.task : SchedLabel → TaskLabel WorkId Fd
  | .create w => .spawn w
  | .wait _ fd => .wait fd
  | .sleep mstime ms => .sleep (mstime + ms)
  | .finish => .finish
  | .update mstime => .tick mstime
  | .fire e => .event e.fd
  | .endEvents => .endEvents
  | .wakeup => .wake
  | .schedule => .dispatch

namespace Frame

def task (s : Frame) (t : Tid) : Task WorkId := (s.threads t).task

def control (s : Frame) : Option (Control WorkId) :=
  match s.cpu with
  | .coroutine t => some (.task (s.task t))
  | .mainLoop p => some (.loop p.part)
  | .fault => none

def tasksUnder (s : Frame) (c : Control WorkId) : TaskSystem WorkId Fd where
  control := c
  ready := s.threadRunnable.reduceOption.map s.task
  waiting := (s.events.map fun e => (e.fd, s.task e.owner) : List (Fd × Task WorkId))
  sleeping := (s.threadPending.map fun t => (s.wakeupTime t, s.task t) : List (Nat × Task WorkId))
  made := s.stacksMade
  now := s.lastLoopTs

/-- The tasks of a state; there are none after a fault. -/
def tasks (s : Frame) : Option (TaskSystem WorkId Fd) := s.control.map s.tasksUnder

variable {s : Frame} {c : Tid}

theorem tasks_of_coroutine (h : s.cpu = .coroutine c) :
    s.tasks = some (s.tasksUnder (.task (s.task c))) := by simp [tasks, control, h]

theorem tasks_of_mainLoop {p : LoopPhase} (h : s.cpu = .mainLoop p) :
    s.tasks = some (s.tasksUnder (.loop p.part)) := by simp [tasks, control, h]

/-- The threads that a state needs to know its tasks. -/
def bound (s : Frame) : List Tid :=
  s.threadRunnable.reduceOption ++ s.events.map Event.owner ++ s.threadPending

theorem tasksUnder_threads {threads : Tid → Thread} (x : Control WorkId)
    (htask : ∀ t ∈ s.bound, (threads t).task = s.task t)
    (htime : ∀ t ∈ s.threadPending, (threads t).wakeupTs = s.wakeupTime t) :
    ({ s with threads := threads } : Frame).tasksUnder x = s.tasksUnder x := by
  have hready : s.threadRunnable.reduceOption.map (fun t => (threads t).task) =
      s.threadRunnable.reduceOption.map s.task :=
    List.map_congr_left fun t ht => htask t (by simp [bound, ht])
  have hwaiting : s.events.map (fun e => (e.fd, (threads e.owner).task)) =
      s.events.map fun e => (e.fd, s.task e.owner) := by
    refine List.map_congr_left fun e he => ?_
    rw [htask e.owner (by simp [bound, List.mem_map_of_mem (f := Event.owner) he])]
  have hsleeping : s.threadPending.map (fun t => ((threads t).wakeupTs, (threads t).task)) =
      s.threadPending.map fun t => (s.wakeupTime t, s.task t) := by
    refine List.map_congr_left fun t ht => ?_
    rw [htime t ht, htask t (by simp [bound, ht])]
  simp only [tasksUnder]
  rw [← hready, ← hwaiting, ← hsleeping]
  rfl

theorem tasksUnder_blocked (call : SockCall) (fd : Fd) (x : Control WorkId) :
    (s.blocked c call fd).tasksUnder x =
      { s.tasksUnder x with waiting := (fd, s.task c) ::ₘ (s.tasksUnder x).waiting } := by
  have htask : (s.blocked c call fd).task = s.task := funext (update_field Thread.task rfl)
  have htime : (s.blocked c call fd).wakeupTime = s.wakeupTime :=
    funext (update_field Thread.wakeupTs rfl)
  simp only [tasksUnder, htask, htime]
  simp only [blocked, List.map_append, List.map_cons, List.map_nil, ← Multiset.coe_add,
    Multiset.coe_singleton, add_comm _ ({(fd, s.task c)} : Multiset (Fd × Task WorkId)),
    Multiset.singleton_add]

def enqueue (s : Frame) (t : Tid) : Frame :=
  { s with threadRunnable := s.threadRunnable ++ [some t] }

theorem tasksUnder_enqueue (s : Frame) (t : Tid) (x : Control WorkId) :
    (s.enqueue t).tasksUnder x =
      { s.tasksUnder x with ready := (s.tasksUnder x).ready ++ [s.task t] } := by
  simp only [tasksUnder, enqueue, List.reduceOption_append, List.map_append]
  rfl

theorem tasksUnder_recycled (x : Control WorkId) : (s.recycled c).tasksUnder x = s.tasksUnder x := by
  have htask : (s.recycled c).task = s.task := funext (update_field Thread.task rfl)
  have htime : (s.recycled c).wakeupTime = s.wakeupTime := funext (update_field Thread.wakeupTs rfl)
  exact tasksUnder_threads x (fun t _ => congrFun htask t) (fun t _ => congrFun htime t)

end Frame

theorem Exclusive.tasksUnder_asleep {s : Frame} {c : Tid} (h : Exclusive s [c]) (H : HeapAlgo Tid)
    (ts : Nat) (x : Control WorkId) :
    (s.asleep H c ts).tasksUnder x =
      { s.tasksUnder x with sleeping := (ts, s.task c) ::ₘ (s.tasksUnder x).sleeping } := by
  have htask : (s.asleep H c ts).task = s.task := funext (update_field Thread.task rfl)
  have htime : (s.asleep H c ts).wakeupTime = s.wakeupTimeWith c ts := by
    funext t
    by_cases ht : t = c <;> simp [Frame.wakeupTimeWith, Frame.wakeupTime, Frame.asleep, ht]
  have hperm := ((h.pushHeap_spec H ts).1.map
    fun t => (s.wakeupTimeWith c ts t, s.task t)).trans (List.perm_append_comm.map _)
  have hold : s.threadPending.map (fun t => (s.wakeupTimeWith c ts t, s.task t)) =
      s.threadPending.map fun t => (s.wakeupTime t, s.task t) := by
    refine List.map_congr_left fun t ht => ?_
    rw [wakeupTimeWith_of_ne (ne_of_mem_of_not_mem ht h.not_mem_pending)]
  have hself : s.wakeupTimeWith c ts c = ts := by simp [Frame.wakeupTimeWith]
  simp only [Frame.tasksUnder, htask, htime, Multiset.coe_eq_coe.mpr hperm, List.singleton_append,
    List.map_cons, hold, hself, Multiset.cons_coe]
  rfl

/-- `Schedule()` of a state in which nobody executes. -/
theorem Consistent.tasks_schedule {s : Frame} (h : Consistent s []) (x : Control WorkId) :
    s.schedule.tasks = some (s.tasksUnder x).next := by
  rcases h.exclusive.schedule_cases with ⟨hr, he⟩ | ⟨rest, hr, he⟩ | ⟨t, rest, hr, he⟩
  · rw [Frame.tasks_of_mainLoop (p := .update) (by rw [he])]
    simp [he, TaskSystem.next, Frame.tasksUnder, hr, LoopPhase.part, Frame.task, Frame.wakeupTime]
  · exact absurd (by simp [hr]) h.runnable_ne_null
  · rw [Frame.tasks_of_coroutine (c := t) (by rw [he])]
    simp [he, TaskSystem.next, Frame.tasksUnder, hr, Frame.task, Frame.wakeupTime]

theorem Consistent.mem_of_mem_bound {s : Frame} {ex : List Tid} (h : Consistent s ex) {t : Tid}
    (ht : t ∈ s.bound) : t ∈ s.threadRunnable.reduceOption ++ s.ioWaitMap.values.reduceOption ++
      s.threadPending := by
  simp only [Frame.bound, List.mem_append, List.mem_map] at ht ⊢
  rcases ht with (ht | ⟨e, he, rfl⟩) | ht
  · exact .inl (.inl ht)
  · exact .inl (.inr (h.owner_mem_values he))
  · exact .inr ht

/-- `CreateThread` takes a thread that stands for no task. -/
theorem Consistent.tasks_createThread {s : Frame} {c : Tid} (h : Consistent s [c])
    (hcpu : s.cpu = .coroutine c) (w : WorkId) :
    (s.createThread w).2.tasks = some { s.tasksUnder (.task (s.task c)) with
      ready := s.threadRunnable.reduceOption.map s.task ++ [⟨s.stacksMade, some w⟩]
      made := s.stacksMade + 1 } := by
  obtain ⟨t, free, n, he, -, hcase⟩ := s.createThread_eq w
  have hnew {t' : Tid} (ht' : t' ∈ c :: s.bound) : t' ≠ t := by
    have hmem : t' ∈ [c] ++ (s.threadRunnable.reduceOption ++ s.ioWaitMap.values.reduceOption ++
        s.threadPending) := by
      rcases List.mem_cons.mp ht' with rfl | ht'
      · simp
      · exact List.mem_append_right _ (h.mem_of_mem_bound ht')
    rintro rfl
    rcases hcase with ⟨hf, -⟩ | ⟨rfl, -⟩
    · have hle := List.nodup_iff_count_le_one.mp h.nodup t'
      have hpos := List.count_pos_iff.mpr hmem
      simp only [List.count_append, Frame.parked, hf, List.count_singleton_self] at hle hpos
      omega
    · exact lt_irrefl s.allocated (h.mem_iff.mp (by
        simp only [Frame.parked, List.mem_append] at hmem ⊢
        tauto)).1
  let s₁ : Frame :=
    { s with threads := Function.update s.threads t ((s.threads t).created s.stacksMade w) }
  have hsame {t' : Tid} (ht' : t' ∈ c :: s.bound) : s₁.threads t' = s.threads t' :=
    Function.update_of_ne (hnew ht') _ _
  have hold : s₁.tasksUnder (.task (s.task c)) = s.tasksUnder (.task (s.task c)) := by
    refine Frame.tasksUnder_threads _ (fun t' ht' => ?_) fun t' ht' => ?_
    · exact congrArg Thread.task (hsame (List.mem_cons_of_mem c ht'))
    · exact congrArg Thread.wakeupTs (hsame (List.mem_cons_of_mem c (by simp [Frame.bound, ht'])))
  have hcreated : s₁.task t = ⟨s.stacksMade, some w⟩ := by
    simp [s₁, Frame.task, Thread.created, Thread.task]
  have hnext : (s.createThread w).2.tasks =
      some { (s₁.enqueue t).tasksUnder (.task (s₁.task c)) with made := s.stacksMade + 1 } := by
    rw [Frame.tasks_of_coroutine (c := c) (by rw [he]; exact hcpu), he]
    rfl
  have hself : s₁.task c = s.task c := congrArg Thread.task (hsame List.mem_cons_self)
  rw [hnext, hself, Frame.tasksUnder_enqueue, hold, hcreated]
  rfl

theorem Frame.tasksUnder_awoken {s : Frame} {woken rest : List Tid} (x : Control WorkId)
    (hnot : ∀ t ∈ rest, t ∉ woken) :
    (s.awoken woken rest).tasksUnder x =
      { s.tasksUnder x with
        ready := (s.tasksUnder x).ready ++ woken.map s.task
        sleeping := (rest.map fun t => (s.wakeupTime t, s.task t) : List (Nat × Task WorkId)) } := by
  have htask : (s.awoken woken rest).task = s.task := by
    funext t
    by_cases ht : t ∈ woken <;> simp [Frame.task, Frame.awoken, ht, Thread.task]
  have hsleeping : rest.map (fun t => ((s.awoken woken rest).wakeupTime t, s.task t)) =
      rest.map fun t => (s.wakeupTime t, s.task t) := by
    refine List.map_congr_left fun t ht => ?_
    simp [Frame.wakeupTime, Frame.awoken, hnot t ht]
  simp only [Frame.tasksUnder, htask]
  simp only [Frame.awoken, List.reduceOption_append, List.map_append]
  rw [← hsleeping]
  simp [List.reduceOption, Frame.awoken]

theorem Consistent.tasksUnder_fire {s : Frame} {ex : List Tid} (h : Consistent s ex) {e : Event}
    (he : e ∈ s.events) (x : Control WorkId) :
    ∃ rest, (s.tasksUnder x).waiting = (e.fd, s.task e.owner) ::ₘ rest ∧
      (s.socketReadOrWrite e).tasksUnder x = { s.tasksUnder x with
        waiting := rest, ready := (s.tasksUnder x).ready ++ [s.task e.owner] } := by
  refine ⟨((s.events.erase e).map fun e => (e.fd, s.task e.owner) : List _), ?_, ?_⟩
  · exact Multiset.coe_eq_coe.mpr ((List.perm_cons_erase he).map _)
  · have henq : (s.socketReadOrWrite e).tasksUnder x =
        { (s.enqueue e.owner).tasksUnder x with
          waiting := ((s.events.erase e).map fun e => (e.fd, s.task e.owner) : List _) } := by
      simp only [Frame.socketReadOrWrite, h.waits e he, Option.getD_some]
      rfl
    rw [henq, Frame.tasksUnder_enqueue]

theorem Frame.work_of_finish {H : HeapAlgo Tid} {s s' : Frame} {c : Tid} (hcpu : s.cpu = .coroutine c)
    (hs : s.step H .finish = some s') : (s.task c).work.isSome := by
  simp only [Frame.step, hcpu] at hs
  split at hs
  · next w hfn => simp [Frame.task, Thread.task, hfn]
  · cases hs

theorem Frame.not_mem_of_blocked {s : Frame} {c : Tid} {call : SockCall} {fd : Fd}
    (hd : (s.blocked c call fd).schedule.DistinctFds) : fd ∉ s.events.map Event.fd := by
  intro hfd
  obtain ⟨_, _, _, he⟩ := (s.blocked c call fd).schedule_eq
  rw [he, Frame.DistinctFds, Frame.blocked, List.map_append] at hd
  exact List.disjoint_left.mp (List.disjoint_of_nodup_append hd) hfd (by simp)

/-- A step of the scheduler is the step of the tasks with the same meaning. -/
theorem Partitioned.tasks_step {H : HeapAlgo Tid} {s s' : Frame} {a : SchedLabel}
    {x : TaskSystem WorkId Fd} (h : Partitioned s) (hs : s.step H a = some s')
    (hd : s'.DistinctFds) (hx : s.tasks = some x) :
    ∃ y, TaskSystem.Step x a.task y ∧ s'.tasks = some y := by
  cases Frame.schedMove h.running hs with
  | create w hcpu =>
    obtain rfl := Option.some.inj ((Frame.tasks_of_coroutine hcpu).symm.trans hx)
    exact ⟨_, .spawn w rfl, (h.of_coroutine hcpu).tasks_createThread hcpu w⟩
  | @wait c call fd hcpu =>
    obtain rfl := Option.some.inj ((Frame.tasks_of_coroutine hcpu).symm.trans hx)
    have hfd := Frame.not_mem_of_blocked hd
    refine ⟨_, .wait fd rfl ?_,
      (((h.of_coroutine hcpu).blocked call hfd).tasks_schedule (.task (s.task c))).trans ?_⟩
    · simpa [Frame.tasksUnder] using hfd
    · rw [Frame.tasksUnder_blocked]
  | @sleep c mstime ms hcpu =>
    obtain rfl := Option.some.inj ((Frame.tasks_of_coroutine hcpu).symm.trans hx)
    have hc := h.of_coroutine hcpu
    refine ⟨_, .sleep (mstime + ms) rfl,
      ((hc.asleep H (mstime + ms)).tasks_schedule (.task (s.task c))).trans ?_⟩
    rw [hc.exclusive.tasksUnder_asleep]
  | @finish c hcpu =>
    obtain rfl := Option.some.inj ((Frame.tasks_of_coroutine hcpu).symm.trans hx)
    refine ⟨_, .finish rfl (Frame.work_of_finish hcpu hs),
      ((h.of_coroutine hcpu).recycled.tasks_schedule (.task (s.task c))).trans ?_⟩
    rw [Frame.tasksUnder_recycled]
  | update mstime hcpu =>
    obtain rfl := Option.some.inj ((Frame.tasks_of_mainLoop hcpu).symm.trans hx)
    exact ⟨_, .tick mstime rfl, rfl⟩
  | fire e he hcpu =>
    obtain rfl := Option.some.inj ((Frame.tasks_of_mainLoop hcpu).symm.trans hx)
    obtain ⟨rest, hwaiting, hnext⟩ :=
      (h.of_mainLoop hcpu).tasksUnder_fire he (.loop LoopPhase.eventLoop.part)
    exact ⟨_, .event rfl hwaiting,
      (Frame.tasks_of_mainLoop (s := s.socketReadOrWrite e) hcpu).trans (congrArg some hnext)⟩
  | endEvents hcpu =>
    obtain rfl := Option.some.inj ((Frame.tasks_of_mainLoop hcpu).symm.trans hx)
    exact ⟨_, .endEvents rfl, rfl⟩
  | wakeup hcpu =>
    obtain rfl := Option.some.inj ((Frame.tasks_of_mainLoop hcpu).symm.trans hx)
    have hc := (h.of_mainLoop hcpu).exclusive
    obtain ⟨woken, rest, he, hperm, -, hdue, hsorted, hlate⟩ :=
      Frame.wakeupLoop_spec H s.threadPending.length hc.heap hc.nodup_pending
    have hnodup : (woken ++ rest).Nodup := hperm.nodup_iff.mpr hc.nodup_pending
    have hnot (t : Tid) (ht : t ∈ rest) : t ∉ woken := fun hw =>
      List.disjoint_of_nodup_append hnodup hw ht
    let due : List (Nat × Task WorkId) := woken.map fun t => (s.wakeupTime t, s.task t)
    have hsplit : (s.tasksUnder (.loop LoopPhase.wakeup.part)).sleeping =
        due + (rest.map fun t => (s.wakeupTime t, s.task t) : List (Nat × Task WorkId)) := by
      rw [Multiset.coe_add, ← List.map_append]
      exact Multiset.coe_eq_coe.mpr (hperm.symm.map _)
    refine ⟨_, .wake rfl hsplit ?_ ?_ ?_, ?_⟩
    · exact List.pairwise_map.mpr hsorted
    · simpa [due, Frame.tasksUnder] using hdue
    · simpa [Frame.tasksUnder] using hlate le_rfl
    · rw [Frame.tasks_of_mainLoop (p := .schedule) rfl, Frame.wakeupPendingThread, he]
      have hawoken := Frame.tasksUnder_awoken (s := s) (.loop LoopPhase.schedule.part) hnot
      rw [List.map_map]
      exact congrArg some hawoken
  | schedule hcpu =>
    obtain rfl := Option.some.inj ((Frame.tasks_of_mainLoop hcpu).symm.trans hx)
    exact ⟨_, .dispatch rfl, (h.of_mainLoop hcpu).tasks_schedule _⟩

theorem Frame.tasks_initWith (pool : Nat) :
    (Frame.initWith pool {}).2.tasks = some (TaskSystem.start 1) := by
  rw [Frame.initWith_eq]
  rfl

/-- Every run in which no two coroutines are blocked on the same descriptor at the same time is a
run of the tasks that the coroutines were created for. -/
theorem scheduler_refines_tasks (H : HeapAlgo Tid) (as : List SchedLabel) (s : Frame)
    (hd : ∀ t, Visits (Frame.step H) Frame.start as t → t.DistinctFds)
    (h : exec (Frame.step H) Frame.start as = some s) :
    ∃ x, Reaches TaskSystem.Step (TaskSystem.start 1) (as.map SchedLabel.task) x ∧
      s.tasks = some x := by
  refine exec_simulated (R := fun s x => s.tasks = some x) (Frame.tasks_initWith 1000) ?_ h
  intro t a u x htu hx
  exact (partitioned_of_visits hd htu.visits_source).tasks_step htu.step_eq (hd u htu.visits) hx

/-- The caller creates a coroutine and sleeps; the coroutine blocks, is resumed and ends. -/
theorem scheduler_refines_tasks_wait :
    ∃ s x, exec (Frame.step (sortedHeap Tid)) Frame.start [.create 7, .sleep 0 10, .wait .recv 5,
        .update 3, .fire ⟨5, [.read, .closed], 1001⟩, .endEvents, .wakeup, .schedule, .finish] = some s ∧
      Reaches TaskSystem.Step (TaskSystem.start 1) [.spawn 7, .sleep 10, .wait 5, .tick 3, .event 5,
        .endEvents, .wake, .dispatch, .finish] x ∧ s.tasks = some x := by
  let as : List SchedLabel := [.create 7, .sleep 0 10, .wait .recv 5, .update 3,
    .fire ⟨5, [.read, .closed], 1001⟩, .endEvents, .wakeup, .schedule, .finish]
  have hd : ((trace (Frame.step (sortedHeap Tid)) Frame.start as).all
      fun s => decide s.DistinctFds) = true := by
    rw [Frame.start, Frame.init, Frame.initWith_eq]
    decide +kernel
  have hrun : (exec (Frame.step (sortedHeap Tid)) Frame.start as).isSome = true := by
    rw [Frame.start, Frame.init, Frame.initWith_eq]
    decide +kernel
  obtain ⟨s, hs⟩ := Option.isSome_iff_exists.mp hrun
  obtain ⟨x, hx, htasks⟩ := scheduler_refines_tasks (sortedHeap Tid) as s
    (fun t ht => of_decide_eq_true (List.all_eq_true.mp hd t (mem_trace.mpr ht))) hs
  exact ⟨s, x, hs, hx, htasks⟩

end Tinyco
