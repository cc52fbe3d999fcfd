import Tinyco.SchedulerPartition

/-! `Frame::Fini`, and `Frame::Init` after it. -/

namespace Tinyco

structure FiniResult where
  ret : Bool
  deleted : List Tid
  frame : Frame

namespace Frame

/-- The threads of `thread_pending_` are not deleted, no container is cleared, and `base_` keeps
pointing at the base that was freed with its events. -/
def fini (s : Frame) : FiniResult where
  ret := true
  deleted := s.runningThread.toList ++ s.mainThread.toList ++ s.threadRunnable.reduceOption ++
    s.threadFree ++ s.ioWaitMap.values.reduceOption
  frame :=
    { s with
      runningThread := none
      mainThread := none
      events := if s.base.isSome then [] else s.events }

def held (s : Frame) : List Tid := s.runningThread.toList ++ s.mainThread.toList ++ s.parked

def QueuesEmpty (s : Frame) : Prop :=
  s.ioWaitMap = .empty ∧ s.threadRunnable = [] ∧ s.threadFree = [] ∧ s.threadPending = []

end Frame

def Context.moved (a : Nat) : Context → Context
  | .saved c => .saved (c + a)
  | uc => uc

def Cpu.moved (a : Nat) : Cpu → Cpu
  | .coroutine t => .coroutine (t + a)
  | cpu => cpu

/-- The state after a first `Frame::Init`, with the threads at the addresses from `a` on. -/
structure Frame.Renewed (a : Nat) (s : Frame) : Prop where
  ioWaitMap : s.ioWaitMap = Frame.start.ioWaitMap
  threadRunnable : s.threadRunnable = Frame.start.threadRunnable.map (Option.map (· + a))
  threadFree : s.threadFree = Frame.start.threadFree.map (· + a)
  threadPending : s.threadPending = Frame.start.threadPending.map (· + a)
  mainThread : s.mainThread = Frame.start.mainThread.map (· + a)
  runningThread : s.runningThread = Frame.start.runningThread.map (· + a)
  base : s.base = Frame.start.base
  events : s.events = Frame.start.events
  cpu : s.cpu = Frame.start.cpu.moved a
  threads : ∀ t, (s.threads (t + a)).fn = (Frame.start.threads t).fn ∧
    (s.threads (t + a)).state = (Frame.start.threads t).state ∧
    (s.threads (t + a)).uc = (Frame.start.threads t).uc.moved a

/-- Everything is released once and forgotten, and `Frame::Init` begins a new life. -/
structure FiniRight (s : Frame) : Prop where
  deleted : ∀ t ∈ s.held, s.fini.deleted.count t = 1
  queues : s.fini.frame.QueuesEmpty
  mainThread : s.fini.frame.mainThread = none
  runningThread : s.fini.frame.runningThread = none
  base : s.fini.frame.base = none
  init : s.fini.frame.init.1 = true
  renewed : s.fini.frame.init.2.Renewed s.allocated

namespace Frame

variable {H : HeapAlgo Tid} {s s' : Frame} {a : SchedLabel}

theorem count_deleted (s : Frame) (t : Tid) :
    s.fini.deleted.count t + s.threadPending.count t = s.held.count t := by
  simp only [fini, held, parked, List.count_append]
  omega

theorem initWith_fini_iff (pool : Nat) : (s.fini.frame.initWith pool).1 = true ↔ s.base = none := by
  cases hb : s.base with
  | none => simp [fini, initWith, hb]
  | some b => simp [fini, initWith, hb]

theorem threadFree_fini (s : Frame) : s.fini.frame.threadFree = s.threadFree := rfl

theorem mem_threadFree_initWith (pool : Nat) {t : Tid} (h : t ∈ s.threadFree) :
    t ∈ (s.initWith pool).2.threadFree := by
  unfold initWith
  split
  · exact h
  · simp [fillFree_eq, newThread, initThread, setContext, setThread, saveContext, h]

theorem nodup_held {c : Tid} (h : Orderly s) (hc : s.cpu = .coroutine c) : s.held.Nodup := by
  obtain ⟨hx, hrun⟩ := h.of_coroutine hc
  obtain ⟨m, hm, -, -⟩ := hx.main
  rw [List.nodup_iff_count_le_one]
  intro t
  have hle := hx.count_le t
  simp only [held, hrun, hm, Option.toList_some, List.count_append] at hle ⊢
  by_cases ht : t = m
  · subst ht
    simp only [ne_eq, not_true_eq_false, and_false, if_false] at hle
    simp only [List.count_singleton_self]
    omega
  · have h0 : [m].count t = 0 := by simp [Ne.symm ht]
    split_ifs at hle <;> omega

/-- Called by a coroutine, `Fini` deletes every thread once exactly when none is pending. -/
theorem fini_deletes_once_iff {c : Tid} (h : Orderly s) (hc : s.cpu = .coroutine c) :
    (∀ t ∈ s.held, s.fini.deleted.count t = 1) ↔ s.threadPending = [] := by
  have hnd := nodup_held h hc
  constructor
  · intro honce
    apply List.eq_nil_iff_forall_not_mem.mpr
    intro t ht
    have hheld : t ∈ s.held := by simp [held, parked, ht]
    have hsum := s.count_deleted t
    have hpos := List.count_pos_iff.mpr ht
    have hone := honce t hheld
    have hle := List.nodup_iff_count_le_one.mp hnd t
    omega
  · intro hp t ht
    have hsum := s.count_deleted t
    have hone := List.count_eq_one_of_mem hnd ht
    rw [hp, List.count_nil] at hsum
    omega

/-- No event base has been made, so no coroutine has blocked on a descriptor yet. -/
structure Unpolled (s : Frame) : Prop where
  partitioned : Partitioned s
  events : s.events = []
  allocated : 3 ≤ s.allocated

theorem getEventBase_ne_none (s : Frame) : s.getEventBase.base ≠ none := by
  unfold getEventBase
  split
  · next h => simp [h]
  · simp

theorem base_eq_none_of_step (h : Orderly s) (hs : s.step H a = some s') (hb : s'.base = none) :
    s.base = none ∧ (s.events = [] → s'.events = []) ∧ s.allocated ≤ s'.allocated := by
  cases schedMove h.running hs with
  | create w hcpu =>
    obtain ⟨t, free, n, he, -, hcase⟩ := s.createThread_eq w
    have hn : s.allocated ≤ n := by
      rcases hcase with ⟨-, rfl⟩ | ⟨-, -, rfl⟩ <;> omega
    rw [he] at hb ⊢
    exact ⟨hb, id, hn⟩
  | wait call fd hcpu =>
    obtain ⟨_, _, _, he⟩ := (s.blocked _ call fd).schedule_eq
    rw [he] at hb
    exact absurd hb s.getEventBase_ne_none
  | sleep mstime ms hcpu =>
    obtain ⟨_, _, _, he⟩ := (s.asleep H _ (mstime + ms)).schedule_eq
    rw [he] at hb ⊢
    exact ⟨hb, id, le_rfl⟩
  | finish hcpu =>
    obtain ⟨_, _, _, he⟩ := (s.recycled _).schedule_eq
    rw [he] at hb ⊢
    exact ⟨hb, id, le_rfl⟩
  | update mstime hcpu => exact absurd hb s.getEventBase_ne_none
  | fire e he hcpu =>
    have hev : s.events = [] → s.events.erase e = [] := fun h0 => by simp [h0]
    exact ⟨hb, hev, le_rfl⟩
  | endEvents hcpu => exact ⟨hb, id, le_rfl⟩
  | wakeup hcpu =>
    obtain ⟨woken, rest, he, -⟩ := (h.of_mainLoop hcpu).wakeupPendingThread_spec H
    rw [he] at hb ⊢
    exact ⟨hb, id, le_rfl⟩
  | schedule hcpu =>
    obtain ⟨_, _, _, he⟩ := s.schedule_eq
    rw [he] at hb ⊢
    exact ⟨hb, id, le_rfl⟩

theorem Unpolled.step (h : Unpolled s) (hs : s.step H a = some s') (hb : s'.base = none) :
    Unpolled s' := by
  obtain ⟨-, hev, halloc⟩ := base_eq_none_of_step h.partitioned.orderly hs hb
  have hev' := hev h.events
  have hd : s.DistinctFds := by simp [DistinctFds, h.events]
  have hd' : s'.DistinctFds := by simp [DistinctFds, hev']
  exact ⟨h.partitioned.step hd hs hd', hev', le_trans h.allocated halloc⟩

theorem unpolled_start : Unpolled start := by
  refine ⟨initWith_partitioned 1000, ?_, ?_⟩
  · rw [start, init, initWith_eq]
  · rw [start, init, initWith_eq]
    decide

theorem unpolled_of_visits {as : List SchedLabel} (h : Visits (Frame.step H) start as s) :
    Orderly s ∧ (s.base = none → Unpolled s) := by
  apply h.invariant (I := fun s => Orderly s ∧ (s.base = none → Unpolled s))
  · exact ⟨(initWith_partitioned 1000).orderly, fun _ => unpolled_start⟩
  · rintro t b u ⟨ho, ht⟩ hu
    refine ⟨ho.step hu, fun hb => ?_⟩
    exact (ht (base_eq_none_of_step ho hu hb).1).step hu hb

/-- Of three threads one is neither the main thread nor executing. -/
theorem Unpolled.parked_ne_nil (h : Unpolled s) : s.parked ≠ [] := by
  intro hnil
  obtain ⟨m, hm, -, -⟩ := h.partitioned.consistent.main
  have hexec : ∃ c : Nat, ∀ t ∈ s.executing, t = c := by
    unfold executing
    split
    · next c _ => exact ⟨c, by simp⟩
    · exact ⟨0, by simp⟩
  obtain ⟨c, hc⟩ := hexec
  have honly (t : Nat) (ht : t < 3) (hne : t ≠ m) : t = c := by
    have hmain : s.mainThread ≠ some t := by
      rw [hm]
      exact fun he => hne (Option.some.inj he).symm
    have hmem := h.partitioned.consistent.mem_iff.mpr ⟨lt_of_lt_of_le ht h.allocated, hmain⟩
    rw [hnil, List.append_nil] at hmem
    exact hc t hmem
  have h0 := honly 0
  have h1 := honly 1
  have h2 := honly 2
  omega

theorem QueuesEmpty.parked_eq_nil (h : s.QueuesEmpty) : s.parked = [] := by
  obtain ⟨hio, hrun, hfree, hpend⟩ := h
  simp [parked, hio, hrun, hfree, hpend]

end Frame

theorem Context.moved_zero (uc : Context) : uc.moved 0 = uc := by
  cases uc <;> rfl

theorem Cpu.moved_zero (cpu : Cpu) : cpu.moved 0 = cpu := by
  cases cpu <;> rfl

theorem Frame.renewed_start : Frame.start.Renewed 0 := by
  refine ⟨rfl, ?_, ?_, ?_, ?_, ?_, rfl, rfl, (Cpu.moved_zero _).symm, fun t => ?_⟩
  · simp
  · simp
  · simp
  · simp
  · simp
  · exact ⟨rfl, rfl, (Context.moved_zero _).symm⟩

theorem finiRight_empty : FiniRight {} := by
  have hframe : ({} : Frame).fini.frame = {} := rfl
  refine ⟨?_, ⟨rfl, rfl, rfl, rfl⟩, rfl, rfl, rfl, (Frame.initWith_fini_iff 1000).mpr rfl, ?_⟩
  · simp [Frame.held, Frame.parked]
  · rw [hframe]
    exact Frame.renewed_start

/-- Before the first `Frame::Init` there is nothing to release; at no moment after it does
`Frame::Fini` leave the scheduler as it should. -/
theorem fini_right_iff_before_init (H : HeapAlgo Tid) (as : List SchedLabel) {s : Frame}
    (h : s = {} ∨ Visits (Frame.step H) Frame.start as s) : FiniRight s ↔ s.mainThread = none := by
  rcases h with rfl | h
  · exact iff_of_true finiRight_empty rfl
  · obtain ⟨ho, hunpolled⟩ := Frame.unpolled_of_visits h
    obtain ⟨m, hm, -, -⟩ := ho.exclusive.main
    refine iff_of_false (fun hr => ?_) (by simp [hm])
    have hparked := Frame.QueuesEmpty.parked_eq_nil hr.queues
    exact (hunpolled hr.base).parked_ne_nil hparked

theorem fini_right_only_before_init : FiniRight {} ∧ ¬ FiniRight Frame.start := by
  have hmain : Frame.start.mainThread ≠ none := by
    rw [Frame.start, Frame.init, Frame.initWith_eq]
    simp
  constructor
  · exact (fini_right_iff_before_init (sortedHeap Tid) [] (.inl rfl)).mpr rfl
  · intro hr
    exact hmain ((fini_right_iff_before_init (sortedHeap Tid) [] (.inr (Visits.refl _ _ _))).mp hr)

/-- `Init`, `Fini`, `Init`: the free list still holds the threads of the first life, which have
been deleted. -/
theorem fini_keeps_deleted_threads :
    Frame.start.fini.frame.init.1 = true ∧ 2 ∈ Frame.start.fini.deleted ∧
    2 ∈ Frame.start.fini.frame.threadFree ∧ 2 ∈ Frame.start.fini.frame.init.2.threadFree ∧
    ¬ ∀ (H : HeapAlgo Tid) (as : List SchedLabel) (s : Frame),
      Visits (Frame.step H) Frame.start as s → FiniRight s := by
  have hmem : 2 ∈ Frame.start.threadFree := by
    rw [Frame.start, Frame.init, Frame.initWith_eq]
    exact List.mem_range'_1.mpr (by omega)
  have hbase : Frame.start.base = none := by
    rw [Frame.start, Frame.init, Frame.initWith_eq]
  have hkept : 2 ∈ Frame.start.fini.frame.threadFree := by
    rw [Frame.threadFree_fini]
    exact hmem
  refine ⟨(Frame.initWith_fini_iff 1000).mpr hbase, ?_, hkept,
    Frame.mem_threadFree_initWith 1000 hkept, fun h => ?_⟩
  · simp [Frame.fini, hmem]
  · have hr := h (sortedHeap Tid) [] Frame.start (Visits.refl _ _ _)
    rw [hr.queues.2.2.1] at hkept
    cases hkept

end Tinyco
