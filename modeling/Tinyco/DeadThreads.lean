import Tinyco.SleepDeadline

/-! `ThreadWrapper::IsDead` as a test whether a coroutine has finished. The wrapper holds a
`Thread` of the pool, and the pool gives the same `Thread` to a later coroutine. -/

namespace Tinyco

structure ThreadWrapper where
  t : Tid
  deriving DecidableEq, Repr

def ThreadWrapper.isDead (s : Frame) (w : ThreadWrapper) : Bool :=
  decide ((s.threads w.t).state = some .dead)

/-- The run of `as` from `s` has a step in which the coroutine of `t` ends. -/
def Finished (H : HeapAlgo Tid) (s : Frame) (as : List SchedLabel) (t : Tid) : Prop :=
  ∃ x y, Takes (Frame.step H) s as x .finish y ∧ x.cpu = .coroutine t

structure Frame.Unfinished (s : Frame) (t : Tid) : Prop where
  allocated : t < s.allocated
  not_free : t ∉ s.threadFree
  not_dead : (s.threads t).state ≠ some .dead

structure Frame.Pooled (s : Frame) (t : Tid) : Prop where
  free : t ∈ s.threadFree
  dead : (s.threads t).state = some .dead

variable {H : HeapAlgo Tid} {s s' s₁ x : Frame} {a : SchedLabel} {as : List SchedLabel} {t c : Tid}

namespace Frame

theorem Unfinished.isDead (h : s.Unfinished t) : (ThreadWrapper.mk t).isDead s = false := by
  simp [ThreadWrapper.isDead, h.not_dead]

theorem Pooled.isDead (h : s.Pooled t) : (ThreadWrapper.mk t).isDead s = true := by
  simp [ThreadWrapper.isDead, h.dead]

theorem Unfinished.schedule (h : s.Unfinished t) : s.schedule.Unfinished t := by
  obtain ⟨_, _, _, he⟩ := s.schedule_eq
  rw [he]
  exact ⟨h.allocated, h.not_free, h.not_dead⟩

theorem Pooled.schedule (h : s.Pooled t) : s.schedule.Pooled t := by
  obtain ⟨_, _, _, he⟩ := s.schedule_eq
  rw [he]
  exact ⟨h.free, h.dead⟩

theorem state_update_ne_dead {th : Thread} (hth : th.state ≠ some .dead)
    (h : (s.threads t).state ≠ some .dead) :
    (Function.update s.threads c th t).state ≠ some .dead := by
  by_cases htc : t = c
  · subst htc
    simpa using hth
  · rwa [Function.update_of_ne htc]

theorem createThread_of_free {w : WorkId} (h : s.threadFree.getLast? = some t) :
    (s.createThread w).1 = t := by
  simp [createThread, allocNewThread, h]

end Frame

namespace Orderly

theorem free_lt_allocated (h : Orderly s) (ht : t ∈ s.threadFree) : t < s.allocated :=
  (h.exclusive.of_mem (List.mem_append_right _ (by simp [Frame.parked, ht]))).1

theorem free_elsewhere (h : Orderly s) (ht : t ∈ s.threadFree) :
    s.cpu ≠ .coroutine t ∧ t ∉ s.threadPending := by
  have hle := h.exclusive.count_le_one t
  have hpos := List.count_pos_iff.mpr ht
  rw [List.count_append, Frame.count_parked] at hle
  constructor
  · intro hcpu
    rw [Frame.executing_of_coroutine hcpu, List.count_singleton_self] at hle
    omega
  · intro hp
    have := List.count_pos_iff.mpr hp
    omega

theorem nodup_free (h : Orderly s) : s.threadFree.Nodup := by
  refine List.nodup_iff_count_le_one.mpr fun t => ?_
  have hle := h.exclusive.count_le_one t
  rw [List.count_append, Frame.count_parked] at hle
  omega

theorem createThread_unfinished (h : Orderly s) (w : WorkId) :
    (s.createThread w).2.Unfinished (s.createThread w).1 := by
  obtain ⟨t, free, n, he, ht, hcase⟩ := s.createThread_eq w
  have hnodup := h.nodup_free
  rw [he, ht]
  refine ⟨?_, ?_, by simp [Thread.created]⟩
  · change t < n
    rcases hcase with ⟨hf, rfl⟩ | ⟨rfl, -, rfl⟩
    · exact h.free_lt_allocated (by simp [hf])
    · exact Nat.lt_succ_self _
  · change t ∉ free
    rcases hcase with ⟨hf, -⟩ | ⟨rfl, rfl, -⟩
    · rw [hf] at hnodup
      exact fun hmem => List.disjoint_of_nodup_append hnodup hmem (by simp)
    · exact fun hmem => Nat.lt_irrefl _ (h.free_lt_allocated hmem)

/-- A coroutine goes on, or this step is its last and its thread goes into the pool. -/
theorem unfinished_step (h : Orderly s) (hu : s.Unfinished t) (hs : s.step H a = some s') :
    (s'.Unfinished t ∧ (a = .finish → s.cpu ≠ .coroutine t)) ∨
      (a = .finish ∧ s.cpu = .coroutine t ∧ s'.Pooled t) := by
  obtain ⟨halloc, hfree, hdead⟩ := hu
  cases Frame.schedMove h.running hs with
  | create w hcpu =>
    obtain ⟨t', free, n, he, -, hcase⟩ := s.createThread_eq w
    rw [he]
    refine .inl ⟨⟨?_, ?_, Frame.state_update_ne_dead (by simp [Thread.created]) hdead⟩, by simp⟩
    · change t < n
      rcases hcase with ⟨-, rfl⟩ | ⟨-, -, rfl⟩
      · exact halloc
      · exact Nat.lt_succ_of_lt halloc
    · rcases hcase with ⟨hf, -⟩ | ⟨-, rfl, -⟩
      · exact fun hmem => hfree (by simp [hf, show t ∈ free from hmem])
      · exact hfree
  | @wait c call fd hcpu =>
    have hb : (s.blocked c call fd).Unfinished t :=
      ⟨halloc, hfree, Frame.state_update_ne_dead (by simp) hdead⟩
    exact .inl ⟨hb.schedule, by simp⟩
  | @sleep c mstime ms hcpu =>
    have hb : (s.asleep H c (mstime + ms)).Unfinished t :=
      ⟨halloc, hfree, Frame.state_update_ne_dead (by simp) hdead⟩
    exact .inl ⟨hb.schedule, by simp⟩
  | @finish c hcpu =>
    by_cases htc : t = c
    · subst htc
      have hp : (s.recycled t).Pooled t := ⟨by simp [Frame.recycled], by simp [Frame.recycled]⟩
      exact .inr ⟨rfl, hcpu, hp.schedule⟩
    · have hb : (s.recycled c).Unfinished t :=
        ⟨halloc, by simp [Frame.recycled, hfree, htc], by simpa [Frame.recycled, htc] using hdead⟩
      refine .inl ⟨hb.schedule, fun _ hct => htc ?_⟩
      exact Cpu.coroutine.inj (hct.symm.trans hcpu)
  | update mstime hcpu => exact .inl ⟨⟨halloc, hfree, hdead⟩, by simp⟩
  | fire e he hcpu => exact .inl ⟨⟨halloc, hfree, hdead⟩, by simp⟩
  | endEvents hcpu => exact .inl ⟨⟨halloc, hfree, hdead⟩, by simp⟩
  | wakeup hcpu =>
    obtain ⟨woken, rest, he, -⟩ := (h.of_mainLoop hcpu).wakeupPendingThread_spec H
    rw [he]
    refine .inl ⟨⟨halloc, hfree, ?_⟩, by simp⟩
    by_cases ht : t ∈ woken
    · simp [Frame.awoken, ht]
    · simpa [Frame.awoken, ht] using hdead
  | schedule hcpu => exact .inl ⟨(Frame.Unfinished.mk halloc hfree hdead).schedule, by simp⟩

/-- A thread in the pool stays there as a dead one until it is the last and a coroutine is
created. -/
theorem pooled_step (h : Orderly s) (hp : s.Pooled t) (hs : s.step H a = some s')
    (hnew : ∀ w, a = .create w → s.threadFree.getLast? ≠ some t) : s'.Pooled t := by
  obtain ⟨hfree, hdead⟩ := hp
  obtain ⟨hcpu', hpending⟩ := h.free_elsewhere hfree
  have hne {c : Tid} (hcpu : s.cpu = .coroutine c) : t ≠ c := fun htc => hcpu' (htc ▸ hcpu)
  cases Frame.schedMove h.running hs with
  | create w hcpu =>
    obtain ⟨t', free, n, he, -, hcase⟩ := s.createThread_eq w
    have hlast := hnew w rfl
    have halloc := h.free_lt_allocated hfree
    have hother : t ≠ t' := by
      rcases hcase with ⟨hf, -⟩ | ⟨rfl, -⟩
      · rintro rfl
        simp [hf] at hlast
      · exact Nat.ne_of_lt halloc
    rw [he]
    refine ⟨?_, by simpa [Function.update_of_ne hother] using hdead⟩
    change t ∈ free
    rcases hcase with ⟨hf, -⟩ | ⟨-, rfl, -⟩
    · simpa [hf, hother] using hfree
    · exact hfree
  | @wait c call fd hcpu =>
    have hb : (s.blocked c call fd).Pooled t :=
      ⟨hfree, by simpa [Frame.blocked, Function.update_of_ne (hne hcpu)] using hdead⟩
    exact hb.schedule
  | @sleep c mstime ms hcpu =>
    have hb : (s.asleep H c (mstime + ms)).Pooled t :=
      ⟨hfree, by simpa [Frame.asleep, Function.update_of_ne (hne hcpu)] using hdead⟩
    exact hb.schedule
  | @finish c hcpu =>
    have hb : (s.recycled c).Pooled t :=
      ⟨by simp [Frame.recycled, hfree],
        by simpa [Frame.recycled, Function.update_of_ne (hne hcpu)] using hdead⟩
    exact hb.schedule
  | update mstime hcpu => exact ⟨hfree, hdead⟩
  | fire e he hcpu => exact ⟨hfree, hdead⟩
  | endEvents hcpu => exact ⟨hfree, hdead⟩
  | wakeup hcpu =>
    obtain ⟨woken, rest, he, -, hperm, -⟩ := (h.of_mainLoop hcpu).wakeupPendingThread_spec H
    rw [he]
    have hnot : t ∉ woken := fun hw => hpending (hperm.mem_iff.mp (List.mem_append_left _ hw))
    exact ⟨hfree, by simpa [Frame.awoken, hnot] using hdead⟩
  | schedule hcpu => exact (Frame.Pooled.mk hfree hdead).schedule

theorem finished_of_free (h : Orderly s) (hu : s.Unfinished t)
    (hx : exec (Frame.step H) s as = some x) (ht : t ∈ x.threadFree) : Finished H s as t := by
  have huntil := exec_until (P := fun x => Orderly x ∧ x.Unfinished t)
    (Q := fun v a w => a = .finish ∧ v.cpu = .coroutine t) ⟨h, hu⟩ ?_ hx
  · rcases huntil with hall | ⟨before, a, after, v, w, rfl, hv, -, hw, ⟨rfl, hcpu⟩, -⟩
    · exact absurd ht (hall x (.of_exec hx)).2.not_free
    · exact ⟨v, w, ⟨before, by simp, hv, hw⟩, hcpu⟩
  · rintro v a w ⟨hv, huv⟩ hw
    rcases hv.unfinished_step huv hw with ⟨huw, -⟩ | ⟨ha, hcpu, -⟩
    · exact .inl ⟨hv.step hw, huw⟩
    · exact .inr ⟨ha, hcpu⟩

theorem isDead_iff_finished (h : Orderly s) (hu : s.Unfinished t)
    (hnew : ∀ y w z, Takes (Frame.step H) s as y (.create w) z → y.threadFree.getLast? ≠ some t)
    (hx : exec (Frame.step H) s as = some x) :
    (ThreadWrapper.mk t).isDead x = true ↔ Finished H s as t := by
  have huntil := exec_until (P := fun x => Orderly x ∧ x.Unfinished t)
    (Q := fun v a w => a = .finish ∧ v.cpu = .coroutine t ∧ Orderly w ∧ w.Pooled t) ⟨h, hu⟩ ?_ hx
  · rcases huntil with hall | ⟨before, a, after, v, w, rfl, hv, -, hw, ⟨rfl, hcpu, ho, hp⟩, hrun⟩
    · have halive := (hall x (.of_exec hx)).2.isDead
      refine iff_of_false (by simp [halive]) ?_
      rintro ⟨y, z, hyz, hcpu⟩
      obtain ⟨hy, huy⟩ := hall y hyz.visits_source
      rcases hy.unfinished_step huy hyz.step_eq with ⟨-, hne⟩ | ⟨-, -, hpz⟩
      · exact hne rfl hcpu
      · exact (hall z hyz.visits).2.not_free hpz.free
    · have hw' : exec (Frame.step H) s (before ++ [.finish]) = some w := by
        simp [exec_append, hv, exec_cons, hw]
      have hafter : Orderly x ∧ x.Pooled t := by
        refine (Visits.of_exec hrun).invariant_takes
          (I := fun y => Orderly y ∧ y.Pooled t) ⟨ho, hp⟩ ?_
        rintro y b z ⟨hy, hpy⟩ hyz
        refine ⟨hy.step hyz.step_eq, hy.pooled_step hpy hyz.step_eq ?_⟩
        rintro w' rfl
        have htakes := Takes.of_exec_append hw' hyz
        rw [List.append_assoc, List.singleton_append] at htakes
        exact hnew y w' z htakes
      exact iff_of_true hafter.2.isDead ⟨v, w, ⟨before, by simp, hv, hw⟩, hcpu⟩
  · rintro v a w ⟨hv, huv⟩ hw
    rcases hv.unfinished_step huv hw with ⟨huw, -⟩ | ⟨ha, hcpu, hp⟩
    · exact .inl ⟨hv.step hw, huw⟩
    · exact .inr ⟨ha, hcpu, hv.step hw, hp⟩

end Orderly

/-- A wrapper tells at every later point of a run whether its work has finished exactly if
no coroutine is created while the thread it holds is the next of the pool. -/
theorem wrapper_right_iff_not_reused (H : HeapAlgo Tid) (pre as : List SchedLabel) (s s₁ : Frame)
    (w : WorkId) (hpre : exec (Frame.step H) Frame.start pre = some s)
    (hcreate : s.step H (.create w) = some s₁) :
    (∀ mid x, mid <+: as → exec (Frame.step H) s₁ mid = some x →
      ((ThreadWrapper.mk (s.createThread w).1).isDead x = true ↔
        Finished H s₁ mid (s.createThread w).1)) ↔
    ∀ y w' z, Takes (Frame.step H) s₁ as y (.create w') z →
      y.threadFree.getLast? ≠ some (s.createThread w).1 := by
  have ho := orderly_of_visits (.of_exec hpre)
  have ho₁ := ho.step hcreate
  have hs₁ : s₁ = (s.createThread w).2 := by
    cases Frame.schedMove ho.running hcreate
    rfl
  have hu : s₁.Unfinished (s.createThread w).1 :=
    hs₁ ▸ ho.createThread_unfinished w
  generalize (s.createThread w).1 = t at hu ⊢
  constructor
  · rintro hright y w' z ⟨mid, hmid, hy, hz⟩ hlast
    have hoy : Orderly y := (Visits.of_exec hy).invariant ho₁ fun _ _ _ ht hu => ht.step hu
    have hfree : t ∈ y.threadFree := List.mem_of_getLast? hlast
    obtain ⟨v, v', hv, hcpu⟩ := ho₁.finished_of_free hu hy hfree
    have hz' : exec (Frame.step H) s₁ (mid ++ [.create w']) = some z := by
      simp [exec_append, hy, exec_cons, hz]
    have hdead := (hright _ z hmid hz').mpr ⟨v, v', hv.mono (List.prefix_append _ _), hcpu⟩
    cases Frame.schedMove hoy.running hz
    have hnew := hoy.createThread_unfinished w'
    rw [Frame.createThread_of_free hlast] at hnew
    simp [hnew.isDead] at hdead
  · intro hnew mid x hmid hx
    exact ho₁.isDead_iff_finished hu (fun y w' z hyz => hnew y w' z (hyz.mono hmid)) hx

theorem first_created : (Frame.start.createThread 7).1 = 1001 := by
  rw [Frame.start, Frame.init, Frame.initWith_eq]
  decide +kernel

theorem wrapper_right_of_one_work :
    ∃ s₁, Frame.start.step (sortedHeap Tid) (.create 7) = some s₁ ∧
      ∀ mid x, mid <+: [.sleep 0 5, .finish] → exec (Frame.step (sortedHeap Tid)) s₁ mid = some x →
        ((ThreadWrapper.mk 1001).isDead x = true ↔ Finished (sortedHeap Tid) s₁ mid 1001) := by
  have hcpu : Frame.start.cpu = .coroutine 1 := by rw [Frame.start, Frame.init, Frame.initWith_eq]
  have hs₁ : Frame.start.step (sortedHeap Tid) (.create 7) = some (Frame.start.createThread 7).2 := by
    simp [Frame.step, hcpu]
  refine ⟨_, hs₁, ?_⟩
  have hright := wrapper_right_iff_not_reused (sortedHeap Tid) [] [.sleep 0 5, .finish] Frame.start
    _ 7 rfl hs₁
  rw [first_created] at hright
  refine hright.mpr fun y w' z hyz => ?_
  simpa using hyz.mem

/-- Once the coroutine has ended and another one is created, the wrapper of the first one says
that it is not dead. -/
theorem wrapper_of_reused_thread_wrong :
    ¬ ∀ (pre as : List SchedLabel) (s s₁ x : Frame) (w : WorkId),
      exec (Frame.step (sortedHeap Tid)) Frame.start pre = some s →
      s.step (sortedHeap Tid) (.create w) = some s₁ →
      exec (Frame.step (sortedHeap Tid)) s₁ as = some x →
      ((ThreadWrapper.mk (s.createThread w).1).isDead x = true ↔
        Finished (sortedHeap Tid) s₁ as (s.createThread w).1) := by
  intro hall
  have hrun : ((Frame.start.step (sortedHeap Tid) (.create 7)).bind fun s₁ =>
      (exec (Frame.step (sortedHeap Tid)) s₁ [.sleep 0 5]).bind fun y =>
        (y.step (sortedHeap Tid) .finish).bind fun z =>
          (exec (Frame.step (sortedHeap Tid)) z
            [.update 5, .endEvents, .wakeup, .schedule, .create 8]).map
              fun x => (y.cpu, (ThreadWrapper.mk 1001).isDead x)) =
      some (.coroutine 1001, false) := by
    rw [Frame.start, Frame.init, Frame.initWith_eq]
    decide +kernel
  obtain ⟨s₁, hs₁, hrun⟩ := Option.bind_eq_some_iff.mp hrun
  obtain ⟨y, hy, hrun⟩ := Option.bind_eq_some_iff.mp hrun
  obtain ⟨z, hz, hrun⟩ := Option.bind_eq_some_iff.mp hrun
  obtain ⟨x, hx, hrun⟩ := Option.map_eq_some_iff.mp hrun
  obtain ⟨hcpu, halive⟩ := Prod.mk.inj hrun
  have hx' : exec (Frame.step (sortedHeap Tid)) s₁
      [.sleep 0 5, .finish, .update 5, .endEvents, .wakeup, .schedule, .create 8] = some x := by
    rw [← List.singleton_append, exec_append, hy, Option.bind_some, exec_cons, hz]
    exact hx
  have hdead := (hall [] _ _ s₁ x 7 rfl hs₁ hx').mpr
  rw [first_created, halive] at hdead
  exact absurd (hdead ⟨y, z, ⟨[.sleep 0 5], by simp, hy, hz⟩, hcpu⟩) (by decide)

end Tinyco
