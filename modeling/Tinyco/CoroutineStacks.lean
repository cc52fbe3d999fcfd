import Tinyco.CoroutineLives

/-! The stacks of the coroutines: `Stack::Init` frees the stack that a `Thread` had before and
allocates another. Over a run of the scheduler every allocation is accounted for. -/

namespace Tinyco

/-- The stack that `Stack::Init` deletes in a step. -/
def SchedLabel.freed (s : Frame) (a : SchedLabel) (_ : Frame) : List Nat :=
  match a with
  | .create w => (s.threads (s.createThread w).1).stack.toList
  | _ => []

def freedStacks (H : HeapAlgo Tid) : Frame → List SchedLabel → List Nat :=
  observe (Frame.step H) SchedLabel.freed

/-- The stacks that belong to a `Thread` object. -/
def Frame.stacks (s : Frame) : List Nat :=
  (List.range s.allocated).filterMap fun t => (s.threads t).stack

/-- The main thread, the executing coroutine and those of the containers other than the free list. -/
def Frame.placed (s : Frame) : List Tid :=
  s.mainThread.toList ++ s.executing ++ s.threadRunnable.reduceOption ++
    s.ioWaitMap.values.reduceOption ++ s.threadPending

/-- The threads that have not ended. One that another has displaced from `io_wait_map_` is in no
container. -/
def Frame.alive (s : Frame) : List Tid :=
  (List.range s.allocated).filter fun t => decide (t ∉ s.threadFree)

theorem filterMap_update_perm {f : Nat → Option Nat} {l : List Nat} {t : Nat} (hl : l.Nodup)
    (ht : t ∈ l) (v : Option Nat) :
    (l.filterMap (Function.update f t v) ++ (f t).toList).Perm (l.filterMap f ++ v.toList) := by
  have hcons (g : Nat → Option Nat) : (l.filterMap g).Perm ((g t).toList ++ (l.erase t).filterMap g) := by
    have hp := (List.perm_cons_erase ht).filterMap g
    cases hg : g t <;> simpa [List.filterMap_cons, hg] using hp
  have hrest : (l.erase t).filterMap (Function.update f t v) = (l.erase t).filterMap f := by
    refine List.filterMap_congr fun a ha => Function.update_of_ne ?_ _ _
    rintro rfl
    exact hl.not_mem_erase ha
  have hu := hcons (Function.update f t v)
  rw [hrest, Function.update_self] at hu
  refine (hu.append_right _).trans (List.Perm.trans ?_ (((hcons f).symm.append_right _)))
  simp only [List.append_assoc]
  refine List.perm_iff_count.mpr fun a => ?_
  simp only [List.count_append]
  omega

section Step

variable {H : HeapAlgo Tid} {s s' : Frame} {a : SchedLabel} {t : Tid}

theorem Orderly.stack_step (h : Orderly s) (hs : s.step H a = some s') (ha : ∀ w, a ≠ .create w) :
    s'.allocated = s.allocated ∧ ∀ t, (s'.threads t).stack = (s.threads t).stack := by
  have hsched (x : Frame) (hx : x.allocated = s.allocated)
      (hst : ∀ t, (x.threads t).stack = (s.threads t).stack) :
      x.schedule.allocated = s.allocated ∧
        ∀ t, (x.schedule.threads t).stack = (s.threads t).stack := by
    obtain ⟨_, _, _, he⟩ := x.schedule_eq
    rw [he]
    exact ⟨hx, hst⟩
  cases Frame.schedMove h.running hs with
  | create w hcpu => exact absurd rfl (ha w)
  | wait call fd hcpu => exact hsched _ rfl (update_field Thread.stack rfl)
  | sleep mstime ms hcpu => exact hsched _ rfl (update_field Thread.stack rfl)
  | finish hcpu => exact hsched _ rfl (update_field Thread.stack rfl)
  | update mstime hcpu => exact ⟨rfl, fun _ => rfl⟩
  | fire e he hcpu => exact ⟨rfl, fun _ => rfl⟩
  | endEvents hcpu => exact ⟨rfl, fun _ => rfl⟩
  | wakeup hcpu =>
    obtain ⟨woken, rest, he, -⟩ := (h.of_mainLoop hcpu).wakeupPendingThread_spec H
    refine ⟨by simp [he, Frame.awoken], fun t => ?_⟩
    by_cases ht : t ∈ woken <;> simp [he, Frame.awoken, ht]
  | schedule hcpu => exact hsched _ rfl fun _ => rfl

/-- A `Thread` object that has not been made yet has no stack. -/
def Frame.NewUnset (s : Frame) : Prop := ∀ t, s.allocated ≤ t → (s.threads t).stack = none

theorem Frame.NewUnset.step (hn : s.NewUnset) (h : Orderly s) (hs : s.step H a = some s') :
    s'.NewUnset := by
  by_cases hc : ∃ w, a = .create w
  · obtain ⟨w, rfl⟩ := hc
    cases Frame.schedMove h.running hs with
    | create _ hcpu =>
      obtain ⟨t, free, n, he, -, hcase⟩ := s.createThread_eq w
      rw [he]
      intro t' ht'
      change n ≤ t' at ht'
      have hle : s.allocated ≤ n ∧ t < n := by
        rcases hcase with ⟨hf, rfl⟩ | ⟨rfl, -, rfl⟩
        · exact ⟨le_rfl, (h.exclusive.of_mem (t := t) (by simp [Frame.parked, hf])).1⟩
        · exact ⟨Nat.le_succ _, Nat.lt_succ_self _⟩
      have hne : t' ≠ t := by
        rintro rfl
        exact absurd ht' (not_le.mpr hle.2)
      change (Function.update s.threads t _ t').stack = none
      rw [Function.update_of_ne hne]
      exact hn t' (hle.1.trans ht')
  · obtain ⟨halloc, hst⟩ := h.stack_step hs fun w hw => hc ⟨w, hw⟩
    intro t' ht'
    rw [hst t']
    exact hn t' (halloc ▸ ht')

/-- What a step allocates and what it frees. -/
theorem Frame.stacks_step (hn : s.NewUnset) (h : Orderly s) (hs : s.step H a = some s') :
    (s.stacks ++ (a.spawned s s').map Task.number).Perm (s'.stacks ++ a.freed s s') := by
  by_cases hc : ∃ w, a = .create w
  · obtain ⟨w, rfl⟩ := hc
    cases Frame.schedMove h.running hs with
    | create _ hcpu =>
      obtain ⟨t, free, n, he, hfst, hcase⟩ := s.createThread_eq w
      have hupd : (fun t' => (Function.update s.threads t ((s.threads t).created s.stacksMade w) t').stack) =
          Function.update (fun t' => (s.threads t').stack) t (some s.stacksMade) := by
        funext t'
        by_cases ht' : t' = t <;> simp [ht', Thread.created]
      simp only [Frame.stacks, he, SchedLabel.freed, SchedLabel.spawned, hfst, List.map_cons,
        List.map_nil, hupd]
      rcases hcase with ⟨hf, rfl⟩ | ⟨rfl, -, rfl⟩
      · have hlt := (h.exclusive.of_mem (t := t) (by simp [Frame.parked, hf])).1
        exact (filterMap_update_perm List.nodup_range (List.mem_range.mpr hlt) (some s.stacksMade)).symm
      · have hold : (List.range (s.allocated + 1)).filterMap (fun t' => (s.threads t').stack) =
            s.stacks := by
          rw [List.range_succ, List.filterMap_append]
          simp [hn _ le_rfl, Frame.stacks]
        have hp := filterMap_update_perm (f := fun t' => (s.threads t').stack) List.nodup_range
          (List.mem_range.mpr (Nat.lt_succ_self s.allocated)) (some s.stacksMade)
        rw [hold] at hp
        exact hp.symm
  · obtain ⟨halloc, hst⟩ := h.stack_step hs fun w hw => hc ⟨w, hw⟩
    have hnone : a.spawned s s' = [] ∧ a.freed s s' = [] := by
      cases a with
      | create w => exact absurd ⟨w, rfl⟩ hc
      | _ => exact ⟨rfl, rfl⟩
    simp [Frame.stacks, halloc, hst, hnone]

/-- A `Thread` that is not free has been given a stack. -/
def Frame.BusySet (s : Frame) : Prop :=
  ∀ t, t < s.allocated → t ∉ s.threadFree → (s.threads t).stack.isSome

theorem Frame.createThread_keeps (w : WorkId) (ht : t < s.allocated) (hfree : t ∉ s.threadFree) :
    ((s.createThread w).2.threads t).stack = (s.threads t).stack := by
  obtain ⟨t', free, n, he, -, hcase⟩ := s.createThread_eq w
  have hne : t ≠ t' := by
    rintro rfl
    rcases hcase with ⟨hf, -⟩ | ⟨rfl, -⟩
    · exact hfree (by simp [hf])
    · exact lt_irrefl _ ht
  simp [he, Function.update_of_ne hne]

theorem Orderly.keeps_stack (h : Orderly s) (hs : s.step H a = some s') (ht : t < s.allocated)
    (hfree : t ∉ s.threadFree) : (s'.threads t).stack = (s.threads t).stack := by
  by_cases hc : ∃ w, a = .create w
  · obtain ⟨w, rfl⟩ := hc
    cases Frame.schedMove h.running hs with
    | create _ hcpu => exact Frame.createThread_keeps w ht hfree
  · exact (h.stack_step hs fun w hw => hc ⟨w, hw⟩).2 t

/-- `RecycleRunningThread` alone puts a thread into the free list. -/
theorem Orderly.threadFree_step (h : Orderly s) (hs : s.step H a = some s') (ha : ∀ w, a ≠ .create w) :
    s.threadFree ⊆ s'.threadFree := by
  have hsched (x : Frame) (hx : s.threadFree ⊆ x.threadFree) : s.threadFree ⊆ x.schedule.threadFree := by
    obtain ⟨_, _, _, he⟩ := x.schedule_eq
    rw [he]
    exact hx
  cases Frame.schedMove h.running hs with
  | create w hcpu => exact absurd rfl (ha w)
  | wait call fd hcpu => exact hsched _ (List.Subset.refl _)
  | sleep mstime ms hcpu => exact hsched _ (List.Subset.refl _)
  | finish hcpu => exact hsched _ (List.subset_append_left _ _)
  | update mstime hcpu => exact List.Subset.refl _
  | fire e he hcpu => exact List.Subset.refl _
  | endEvents hcpu => exact List.Subset.refl _
  | wakeup hcpu =>
    obtain ⟨woken, rest, he, -⟩ := (h.of_mainLoop hcpu).wakeupPendingThread_spec H
    simp [he, Frame.awoken]
  | schedule hcpu => exact hsched _ (List.Subset.refl _)

theorem Frame.BusySet.step (hb : s.BusySet) (h : Orderly s) (hs : s.step H a = some s') :
    s'.BusySet := by
  by_cases hc : ∃ w, a = .create w
  · obtain ⟨w, rfl⟩ := hc
    cases Frame.schedMove h.running hs with
    | create _ hcpu =>
      obtain ⟨t, free, n, he, -, hcase⟩ := s.createThread_eq w
      rw [he]
      intro t' ht' hfree'
      change t' < n at ht'
      change t' ∉ free at hfree'
      change (Function.update s.threads t _ t').stack.isSome
      by_cases hne : t' = t
      · subst hne
        simp [Thread.created]
      · rw [Function.update_of_ne hne]
        refine hb t' ?_ fun hmem => hfree' ?_
        · rcases hcase with ⟨-, rfl⟩ | ⟨rfl, -, rfl⟩
          · exact ht'
          · exact lt_of_le_of_ne (Nat.lt_succ_iff.mp ht') hne
        · rcases hcase with ⟨hf, -⟩ | ⟨-, rfl, -⟩
          · simpa [hf, hne] using hmem
          · exact hmem
  · have ha : ∀ w, a ≠ .create w := fun w hw => hc ⟨w, hw⟩
    obtain ⟨halloc, hst⟩ := h.stack_step hs ha
    intro t ht hfree
    rw [hst t]
    exact hb t (halloc ▸ ht) fun hmem => hfree (h.threadFree_step hs ha hmem)

theorem Frame.mem_alive : t ∈ s.alive ↔ t < s.allocated ∧ t ∉ s.threadFree := by
  simp [Frame.alive]

theorem Exclusive.alive_of_placed (h : Exclusive s s.executing) (ht : t ∈ s.placed) : t ∈ s.alive := by
  rw [Frame.mem_alive]
  obtain ⟨m, hm, hlt, -⟩ := h.main
  by_cases hmain : t = m
  · subst hmain
    refine ⟨hlt, fun hfree => (h.of_mem (t := t) ?_).2 hm⟩
    simp [Frame.parked, hfree]
  · have hmem : t ∈ s.executing ++ (s.threadRunnable.reduceOption ++
        s.ioWaitMap.values.reduceOption ++ s.threadPending) := by
      simpa [Frame.placed, hm, hmain, or_assoc] using ht
    refine ⟨(h.of_mem (t := t) ?_).1, fun hfree => ?_⟩
    · simp only [Frame.parked, List.mem_append] at hmem ⊢
      tauto
    · have hle := h.count_le_one t
      have hpos := List.count_pos_iff.mpr hmem
      have hpos' := List.count_pos_iff.mpr hfree
      simp only [Frame.parked, List.count_append] at hle hpos
      omega

end Step

theorem exec_stacksMade {H : HeapAlgo Tid} {s s' : Frame} {as : List SchedLabel} (h : Orderly s)
    (hs : exec (Frame.step H) s as = some s') :
    s'.stacksMade = s.stacksMade + (createdTasks s.stacksMade as).length := by
  rw [← observe_spawned h hs]
  induction as generalizing s with
  | nil => simp [observe, Option.some.inj hs]
  | cons a as ih =>
    obtain ⟨t, ht, hs⟩ := Option.bind_eq_some_iff.mp hs
    rw [observe_cons _ ht, ih (h.step ht) hs, Frame.stacksMade_step h ht, List.length_append,
      Nat.add_assoc]

/-- What is known of every state of a run about the stacks. -/
structure Frame.StacksRight (s : Frame) : Prop where
  orderly : Orderly s
  newUnset : s.NewUnset
  busySet : s.BusySet

theorem Frame.StacksRight.step {H : HeapAlgo Tid} {s s' : Frame} {a : SchedLabel}
    (h : s.StacksRight) (hs : s.step H a = some s') : s'.StacksRight :=
  ⟨h.orderly.step hs, h.newUnset.step h.orderly hs, h.busySet.step h.orderly hs⟩

theorem Frame.stacksRight_initWith (pool : Nat) : (Frame.initWith pool {}).2.StacksRight := by
  refine ⟨(Frame.initWith_partitioned pool).orderly, ?_, ?_⟩
  · rw [Frame.initWith_eq]
    intro (t : Nat) ht
    change 2 + pool ≤ t at ht
    have h0 : t ≠ 0 := by omega
    have h1 : t ≠ 1 := by omega
    simp [h0, h1]
  · rw [Frame.initWith_eq]
    intro (t : Nat) ht hfree
    change t < 2 + pool at ht
    have hcases : t = 0 ∨ t = 1 := by
      by_contra hn
      refine hfree (List.mem_range'_1.mpr ?_)
      omega
    rcases hcases with rfl | rfl <;> simp

theorem Frame.stacks_initWith (pool : Nat) :
    (Frame.initWith pool {}).2.stacks = [0, 1] ∧ (Frame.initWith pool {}).2.stacksMade = 2 := by
  have hrange : List.range (2 + pool) = 0 :: 1 :: List.range' 2 pool := by
    rw [List.range_eq_range', Nat.add_comm, List.range'_succ, List.range'_succ]
  have hrest : (List.range' 2 pool).filterMap (fun t =>
      ((Frame.initWith pool {}).2.threads t).stack) = [] := by
    refine List.filterMap_eq_nil_iff.mpr fun (t : Nat) ht => ?_
    have hle := (List.mem_range'_1.mp ht).1
    have h0 : t ≠ 0 := by omega
    have h1 : t ≠ 1 := by omega
    simp [Frame.initWith_eq, h0, h1]
  rw [Frame.initWith_eq] at hrest ⊢
  refine ⟨?_, rfl⟩
  simp only [Frame.stacks, hrange, List.filterMap_cons, hrest]
  simp

/-- In every run, whatever the coroutines wait for: every stack that was allocated has been freed
once or belongs to one `Thread`, and every thread that has not ended, the main thread and those of the
containers among them, keeps its stack in every step. -/
theorem stacks_accounted_for (H : HeapAlgo Tid) (as : List SchedLabel) (s : Frame)
    (h : exec (Frame.step H) Frame.start as = some s) :
    (s.stacks ++ freedStacks H Frame.start as).Perm (List.range s.stacksMade) ∧
      ∀ x a y, Takes (Frame.step H) Frame.start as x a y → x.placed ⊆ x.alive ∧ ∀ t ∈ x.alive,
        ∃ k, (x.threads t).stack = some k ∧ (y.threads t).stack = some k := by
  have hright {x : Frame} (hx : Visits (Frame.step H) Frame.start as x) : x.StacksRight :=
    hx.invariant (Frame.stacksRight_initWith 1000) fun _ _ _ hx hs => hx.step hs
  constructor
  · have hbalance := exec_balance (q := fun s => (s.stacks : Multiset Nat))
      (f := fun s a s' => (a.spawned s s').map Task.number) (g := SchedLabel.freed)
      (fun x a y hxy => ?_) h
    · have hstart : Frame.start.stacks = [0, 1] ∧ Frame.start.stacksMade = 2 :=
        Frame.stacks_initWith 1000
      have ho := (hright (.refl _ _ _)).orderly
      rw [observe_map, observe_spawned ho h, createdTasks_numbers, hstart.1, hstart.2,
        Multiset.coe_add, Multiset.coe_add, Multiset.coe_eq_coe] at hbalance
      rw [exec_stacksMade ho h, hstart.2, List.range_eq_range', Nat.add_comm]
      exact hbalance.symm
    · rw [Multiset.coe_add, Multiset.coe_add, Multiset.coe_eq_coe]
      have hx := hright hxy.visits_source
      exact Frame.stacks_step hx.newUnset hx.orderly hxy.step_eq
  · intro x a y hxy
    have hx := hright hxy.visits_source
    refine ⟨fun t ht => hx.orderly.exclusive.alive_of_placed ht, fun t ht => ?_⟩
    obtain ⟨hlt, hfree⟩ := Frame.mem_alive.mp ht
    obtain ⟨k, hk⟩ := Option.isSome_iff_exists.mp (hx.busySet t hlt hfree)
    exact ⟨k, hk, (hx.orderly.keeps_stack hxy.step_eq hlt hfree).trans hk⟩

/-- A coroutine ends and its thread is taken for the next one, with a new stack. -/
theorem stacks_accounted_for_reuse :
    ∃ s, exec (Frame.step (sortedHeap Tid)) Frame.start [.create 7, .sleep 0 10, .create 8, .finish,
        .finish, .update 10, .endEvents, .wakeup, .schedule, .create 9] = some s ∧
      (s.stacks ++ freedStacks (sortedHeap Tid) Frame.start [.create 7, .sleep 0 10, .create 8, .finish,
        .finish, .update 10, .endEvents, .wakeup, .schedule, .create 9]).Perm [0, 1, 2, 3, 4] := by
  let as : List SchedLabel := [.create 7, .sleep 0 10, .create 8, .finish, .finish, .update 10,
    .endEvents, .wakeup, .schedule, .create 9]
  have hrun : (exec (Frame.step (sortedHeap Tid)) Frame.start as).map Frame.stacksMade = some 5 := by
    rw [Frame.start, Frame.init, Frame.initWith_eq]
    decide +kernel
  obtain ⟨s, hs, hmade⟩ := Option.map_eq_some_iff.mp hrun
  have hperm := (stacks_accounted_for (sortedHeap Tid) as s hs).1
  rw [hmade] at hperm
  exact ⟨s, hs, hperm⟩

end Tinyco
