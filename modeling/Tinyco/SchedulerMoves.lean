import Tinyco.Scheduler

/-! What the steps of the scheduler do, said once: the states in which a coroutine has given up
control and is about to call `Schedule()`, and the effect of the wakeup loop. -/

namespace Tinyco

theorem Frame.fillFree_eq (n : Nat) (s : Frame) :
    Frame.fillFree n s = { s with threadFree := s.threadFree ++ List.range' s.allocated n,
                                  allocated := s.allocated + n } := by
  induction n generalizing s with
  | zero => simp [Frame.fillFree]
  | succ n ih =>
    simp only [Frame.fillFree, Frame.newThread, ih, List.append_assoc, List.range'_succ,
      List.singleton_append]
    rw [Nat.add_right_comm, Nat.add_assoc]

theorem Frame.initWith_eq (pool : Nat) : (Frame.initWith pool {}).2 =
    { threadFree := List.range' 2 pool, mainThread := some 0, runningThread := some 1
      threads := Function.update (Function.update (fun _ => {}) 0
          ⟨some .mainThreadLoop, some 0, some .stop, .start .mainThreadLoop, 0⟩) 1
        ⟨none, some 1, some .stop, .saved 1, 0⟩
      allocated := 2 + pool, stacksMade := 2, cpu := .coroutine 1 } := by
  simp [Frame.initWith, Frame.fillFree_eq, Frame.newThread, Frame.initThread,
    Frame.setContext, Frame.setThread, Frame.saveContext]

namespace Frame

/-- A state in which `c` has parked on `fd` and is about to call `Schedule()`. -/
def blocked (s : Frame) (c : Tid) (call : SockCall) (fd : Fd) : Frame :=
  { s with
    base := s.getEventBase.base
    basesMade := s.getEventBase.basesMade
    events := s.events ++ [⟨fd, call.events, c⟩]
    ioWaitMap := s.ioWaitMap.assign fd (some c)
    threads := Function.update s.threads c
      { s.threads c with uc := .saved c, state := some .stop } }

/-- The keys of the pending heap with `c` due at `ts`. -/
def wakeupTimeWith (s : Frame) (c : Tid) (ts : Nat) (t : Tid) : Nat :=
  if t = c then ts else s.wakeupTime t

def asleep (H : HeapAlgo Tid) (s : Frame) (c : Tid) (ts : Nat) : Frame :=
  { s with
    runningThread := none
    threadPending := H.pushHeap (s.wakeupTimeWith c ts) (s.threadPending ++ [c])
    threads := Function.update s.threads c
      { s.threads c with wakeupTs := ts, state := some .stop, uc := .saved c } }

def recycled (s : Frame) (c : Tid) : Frame :=
  { s with
    runningThread := none
    threadFree := s.threadFree ++ [c]
    threads := Function.update s.threads c { s.threads c with state := some .dead } }

/-- A state in which `woken` have become runnable and `rest` are still pending. -/
def awoken (s : Frame) (woken rest : List Tid) : Frame :=
  { s with
    threadPending := rest
    threadRunnable := s.threadRunnable ++ woken.map some
    threads := fun t => if t ∈ woken then
      { s.threads t with wakeupTs := 0, state := some .runnable } else s.threads t }

variable {s : Frame} {c : Tid}

theorem getEventBase_eq (s : Frame) : s.getEventBase =
    { s with base := s.getEventBase.base, basesMade := s.getEventBase.basesMade } := by
  simp only [getEventBase]
  split <;> rfl

theorem waitEvent_eq (hcpu : s.cpu = .coroutine c) (hrun : s.runningThread = some c)
    (call : SockCall) (fd : Fd) : s.waitEvent c call fd = (s.blocked c call fd).schedule := by
  rw [waitEvent, s.getEventBase_eq]
  simp [hrun, saveContext, hcpu, setThread, blocked]

theorem sleep_eq (H : HeapAlgo Tid) (hcpu : s.cpu = .coroutine c) (hrun : s.runningThread = some c)
    (mstime ms : Nat) : s.sleep H mstime ms = (s.asleep H c (mstime + ms)).schedule := by
  have hkey : (s.setThread c fun th =>
      { th with wakeupTs := mstime + ms, state := some .stop }).wakeupTime =
      s.wakeupTimeWith c (mstime + ms) := by
    funext t
    by_cases ht : t = c <;> simp [wakeupTimeWith, wakeupTime, setThread, ht]
  simp only [sleep, hrun, pendThread, hkey]
  simp [saveContext, hcpu, setThread, asleep]

theorem handleProcess_eq (hrun : s.runningThread = some c) :
    s.handleProcess = (s.recycled c).schedule := by
  simp [handleProcess, recycleRunningThread, hrun, setThread, recycled]

end Frame

theorem Frame.restoreContext_eq (s : Frame) (o : Option Tid) :
    ∃ cpu, s.restoreContext o = { s with cpu := cpu } := by
  cases o with
  | none => exact ⟨.fault, rfl⟩
  | some t =>
    simp only [Frame.restoreContext]
    split <;> exact ⟨_, rfl⟩

theorem Frame.schedule_eq (s : Frame) : ∃ running runnable cpu, s.schedule =
    { s with runningThread := running, threadRunnable := runnable, cpu := cpu } := by
  simp only [Frame.schedule]
  split
  · obtain ⟨cpu, he⟩ := s.restoreContext_eq s.mainThread
    exact ⟨_, _, cpu, he⟩
  · next t rest hr =>
    obtain ⟨cpu, he⟩ :=
      ({ s with runningThread := t, threadRunnable := rest } : Frame).restoreContext_eq t
    exact ⟨_, _, cpu, he⟩

theorem update_field {β : Type} (g : Thread → β) {threads : Tid → Thread} {t : Tid} {th : Thread}
    (h : g th = g (threads t)) (t' : Tid) : g (Function.update threads t th t') = g (threads t') := by
  by_cases ht : t' = t
  · subst ht
    simpa using h
  · simp [ht]

theorem IsMinHeap.update {threads : Tid → Thread} {l : List Tid}
    (h : IsMinHeap (fun t => (threads t).wakeupTs) l) {t : Tid} {th : Thread}
    (he : th.wakeupTs = (threads t).wakeupTs) :
    IsMinHeap (fun t' => (Function.update threads t th t').wakeupTs) l :=
  h.congr fun a _ => (update_field Thread.wakeupTs he a).symm

def Thread.created (th : Thread) (stack : Nat) (w : WorkId) : Thread :=
  ⟨some (.handleProcess w), some stack, some .stop, .start (.handleProcess w), th.wakeupTs⟩

theorem Frame.createThread_eq (s : Frame) (w : WorkId) :
    ∃ t free n, (s.createThread w).2 =
        { s with threadFree := free, allocated := n, stacksMade := s.stacksMade + 1,
                 threads := Function.update s.threads t ((s.threads t).created s.stacksMade w),
                 threadRunnable := s.threadRunnable ++ [some t] } ∧ (s.createThread w).1 = t ∧
      ((s.threadFree = free ++ [t] ∧ n = s.allocated) ∨
        (t = s.allocated ∧ free = s.threadFree ∧ n = s.allocated + 1)) := by
  cases hl : s.threadFree.getLast? with
  | none =>
    refine ⟨s.allocated, s.threadFree, s.allocated + 1, ?_, ?_, .inr ⟨rfl, rfl, rfl⟩⟩
    all_goals simp [Frame.createThread, Frame.allocNewThread, hl, Frame.newThread, Frame.initThread,
      Frame.setContext, Frame.setThread, Thread.created]
  | some t =>
    obtain ⟨free, hf⟩ := List.getLast?_eq_some_iff.mp hl
    refine ⟨t, free, s.allocated, ?_, ?_, .inl ⟨hf, rfl⟩⟩
    all_goals simp [Frame.createThread, Frame.allocNewThread, hf, Frame.initThread, Frame.setContext,
      Frame.setThread, Thread.created]

theorem Frame.makeRunnable_awoken {s : Frame} {x : Tid} {r woken rest : List Tid} (hx : x ∉ woken) :
    (({ s with threadPending := r }).makeRunnable x).awoken woken rest =
      s.awoken (x :: woken) rest := by
  have hthreads : (fun t => if t ∈ woken then
        { Function.update s.threads x { s.threads x with wakeupTs := 0, state := some .runnable } t with
          wakeupTs := 0, state := some .runnable }
      else Function.update s.threads x { s.threads x with wakeupTs := 0, state := some .runnable } t) =
      fun t => if t ∈ x :: woken then { s.threads t with wakeupTs := 0, state := some .runnable }
        else s.threads t := by
    funext t
    by_cases ht : t = x
    · subst ht
      simp [hx]
    · simp [ht]
  simp [Frame.awoken, Frame.makeRunnable, Frame.setThread, hthreads]

theorem Frame.wakeupTime_makeRunnable {s : Frame} {x t : Tid} (ht : t ≠ x) :
    (s.makeRunnable x).wakeupTime t = s.wakeupTime t := by
  simp [Frame.wakeupTime, Frame.makeRunnable, Frame.setThread, ht]

theorem Frame.popPendingTop_eq (H : HeapAlgo Tid) {s : Frame} {x : Tid} {l : List Tid}
    (hp : s.threadPending = x :: l) (hheap : IsMinHeap s.wakeupTime (x :: l)) (hnodup : (x :: l).Nodup) :
    ∃ r, s.popPendingTop H = (some x, { s with threadPending := r }) ∧ r.Perm l ∧ x ∉ r ∧
      IsMinHeap (({ s with threadPending := r }).makeRunnable x).wakeupTime r := by
  obtain ⟨r, hpop, hperm, hr⟩ := H.popHeap_spec hheap
  have hx : x ∉ r := fun hx => (List.nodup_cons.mp hnodup).1 (hperm.mem_iff.mp hx)
  refine ⟨r, ?_, hperm, hx, hr.congr fun t ht => ?_⟩
  · simp [Frame.popPendingTop, hp, hpop]
  · rw [Frame.wakeupTime_makeRunnable (ne_of_mem_of_not_mem ht hx)]
    rfl

/-- The loop takes the threads that are due out of the heap, the earliest first, and leaves the
others as they are; a count as large as the heap does not stop it. -/
theorem Frame.wakeupLoop_spec (H : HeapAlgo Tid) (sz : Nat) {s : Frame}
    (hheap : IsMinHeap s.wakeupTime s.threadPending) (hnodup : s.threadPending.Nodup) :
    ∃ woken rest, Frame.wakeupLoop H sz s.threadPending.head? s = s.awoken woken rest ∧
      (woken ++ rest).Perm s.threadPending ∧ IsMinHeap s.wakeupTime rest ∧
      (∀ t ∈ woken, s.wakeupTime t ≤ s.lastLoopTs) ∧
      woken.Pairwise (fun a b => s.wakeupTime a ≤ s.wakeupTime b) ∧
      (s.threadPending.length ≤ sz → ∀ t ∈ rest, s.lastLoopTs < s.wakeupTime t) := by
  have hself (s : Frame) : s = s.awoken [] s.threadPending := by simp [Frame.awoken]
  induction sz generalizing s with
  | zero =>
    refine ⟨[], s.threadPending, hself s, .refl _, hheap, by simp, .nil, fun hlen t ht => ?_⟩
    rw [List.length_eq_zero_iff.mp (Nat.le_zero.mp hlen)] at ht
    cases ht
  | succ sz ih =>
    cases hp : s.threadPending with
    | nil =>
      refine ⟨[], [], ?_, .refl _, isMinHeap_nil, by simp, .nil, fun _ t ht => by cases ht⟩
      exact (hself s).trans (by rw [hp])
    | cons x l =>
      rw [hp] at hheap hnodup
      by_cases hle : s.wakeupTime x ≤ s.lastLoopTs
      · obtain ⟨r, hpop, hperm, hx, hr₁⟩ := Frame.popPendingTop_eq H hp hheap hnodup
        let s₁ := ({ s with threadPending := r }).makeRunnable x
        have he : Frame.wakeupLoop H (sz + 1) (some x) s = Frame.wakeupLoop H sz r.head? s₁ := by
          simp [Frame.wakeupLoop, hle, hpop, Frame.makeRunnable, Frame.setThread, s₁]
        have hkey {t : Tid} (ht : t ≠ x) : s₁.wakeupTime t = s.wakeupTime t :=
          Frame.wakeupTime_makeRunnable ht
        obtain ⟨woken, rest, hres, hperm', hheap', hdue, hpair, hlate⟩ :=
          ih (s := s₁) hr₁ (hperm.nodup_iff.mpr (List.nodup_cons.mp hnodup).2)
        have hin {t : Tid} (ht : t ∈ woken ++ rest) : t ≠ x :=
          ne_of_mem_of_not_mem (hperm'.mem_iff.mp ht) hx
        have hmin {t : Tid} (ht : t ∈ woken ++ rest) : s.wakeupTime x ≤ s.wakeupTime t :=
          hheap.head_le (List.mem_cons_of_mem x (hperm.mem_iff.mp (hperm'.mem_iff.mp ht)))
        refine ⟨x :: woken, rest, ?_, ?_, ?_, ?_, ?_, fun hlen t ht => ?_⟩
        · rw [List.head?_cons, he]
          exact hres.trans (Frame.makeRunnable_awoken fun hw => hin (List.mem_append_left _ hw) rfl)
        · exact (hperm'.trans hperm).cons x
        · exact hheap'.congr fun t ht => hkey (hin (List.mem_append_right _ ht))
        · intro t ht
          rcases List.mem_cons.mp ht with rfl | ht
          · exact hle
          · exact hkey (hin (List.mem_append_left _ ht)) ▸ hdue t ht
        · refine List.pairwise_cons.mpr ⟨fun t ht => hmin (List.mem_append_left _ ht), ?_⟩
          refine hpair.imp_of_mem fun {a b} ha hb hab => ?_
          rwa [hkey (hin (List.mem_append_left _ ha)), hkey (hin (List.mem_append_left _ hb))] at hab
        · have hlen' : s₁.threadPending.length ≤ sz := by
            have := hperm.length_eq
            simp only [List.length_cons] at hlen
            simp only [s₁, Frame.makeRunnable, Frame.setThread]
            omega
          exact hkey (hin (List.mem_append_right _ ht)) ▸ hlate hlen' t ht
      · refine ⟨[], x :: l, ?_, .refl _, hheap, by simp, .nil, fun _ t ht => ?_⟩
        · rw [List.head?_cons, Frame.wakeupLoop, if_neg hle]
          exact (hself s).trans (by rw [hp])
        · exact lt_of_lt_of_le (by omega) (hheap.head_le ht)

/-- What a step does: a coroutine creates another, or gives up control by way of one of the
states that call `Schedule()`, or the main loop goes on to its next phase. -/
inductive SchedMove (H : HeapAlgo Tid) (s : Frame) : SchedLabel → Frame → Prop where
  | create {c : Tid} (w : WorkId) (hcpu : s.cpu = .coroutine c) :
    SchedMove H s (.create w) (s.createThread w).2
  | wait {c : Tid} (call : SockCall) (fd : Fd) (hcpu : s.cpu = .coroutine c) :
    SchedMove H s (.wait call fd) (s.blocked c call fd).schedule
  | sleep {c : Tid} (mstime ms : Nat) (hcpu : s.cpu = .coroutine c) :
    SchedMove H s (.sleep mstime ms) (s.asleep H c (mstime + ms)).schedule
  | finish {c : Tid} (hcpu : s.cpu = .coroutine c) : SchedMove H s .finish (s.recycled c).schedule
  | update (mstime : Nat) (hcpu : s.cpu = .mainLoop .update) :
    SchedMove H s (.update mstime) { s with
      base := s.getEventBase.base, basesMade := s.getEventBase.basesMade
      lastLoopTs := mstime, cpu := .mainLoop .eventLoop }
  | fire (e : Event) (he : e ∈ s.events) (hcpu : s.cpu = .mainLoop .eventLoop) :
    SchedMove H s (.fire e) (s.socketReadOrWrite e)
  | endEvents (hcpu : s.cpu = .mainLoop .eventLoop) :
    SchedMove H s .endEvents { s with cpu := .mainLoop .wakeup }
  | wakeup (hcpu : s.cpu = .mainLoop .wakeup) :
    SchedMove H s .wakeup { s.wakeupPendingThread H with cpu := .mainLoop .schedule }
  | schedule (hcpu : s.cpu = .mainLoop .schedule) : SchedMove H s .schedule s.schedule

theorem Frame.schedMove {H : HeapAlgo Tid} {s s' : Frame} {a : SchedLabel}
    (hrun : ∀ t, s.cpu = .coroutine t → s.runningThread = some t) (hs : s.step H a = some s') :
    SchedMove H s a s' := by
  cases a with
  | create w =>
    cases hcpu : s.cpu <;> simp only [Frame.step, hcpu, Option.some.injEq, reduceCtorEq] at hs
    exact hs ▸ .create w hcpu
  | wait call fd =>
    cases hcpu : s.cpu <;> simp only [Frame.step, hcpu, Option.some.injEq, reduceCtorEq] at hs
    case coroutine c =>
      rw [Frame.waitEvent_eq hcpu (hrun c hcpu)] at hs
      exact hs ▸ .wait call fd hcpu
  | sleep mstime ms =>
    cases hcpu : s.cpu <;> simp only [Frame.step, hcpu, Option.some.injEq, reduceCtorEq] at hs
    case coroutine c =>
      rw [Frame.sleep_eq H hcpu (hrun c hcpu)] at hs
      exact hs ▸ .sleep mstime ms hcpu
  | finish =>
    cases hcpu : s.cpu <;> simp only [Frame.step, hcpu, reduceCtorEq] at hs
    case coroutine c =>
      split at hs
      · rw [Frame.handleProcess_eq (hrun c hcpu)] at hs
        exact Option.some.inj hs ▸ .finish hcpu
      · cases hs
  | update mstime =>
    simp only [Frame.step, Option.ite_none_right_eq_some, Option.some.injEq] at hs
    obtain ⟨hcpu, rfl⟩ := hs
    rw [s.getEventBase_eq]
    exact .update mstime hcpu
  | fire e =>
    simp only [Frame.step, Option.ite_none_right_eq_some, Option.some.injEq] at hs
    obtain ⟨⟨hcpu, he⟩, rfl⟩ := hs
    exact .fire e he hcpu
  | endEvents =>
    simp only [Frame.step, Option.ite_none_right_eq_some, Option.some.injEq] at hs
    obtain ⟨hcpu, rfl⟩ := hs
    exact .endEvents hcpu
  | wakeup =>
    simp only [Frame.step, Option.ite_none_right_eq_some, Option.some.injEq] at hs
    obtain ⟨hcpu, rfl⟩ := hs
    exact .wakeup hcpu
  | schedule =>
    simp only [Frame.step, Option.ite_none_right_eq_some, Option.some.injEq] at hs
    obtain ⟨hcpu, rfl⟩ := hs
    exact .schedule hcpu

end Tinyco
