import Tinyco.SchedulerPartition

/-! A coroutine in `Frame::Sleep`: it stays in the pending heap until the main loop has taken a
timestamp that reaches its deadline, and the next pass over the heap makes it runnable. -/

namespace Tinyco

/-- `c` is pending until `d` and nothing else. -/
structure Asleep (s : Frame) (c : Tid) (d : Nat) : Prop where
  pending : c ∈ s.threadPending
  due : s.wakeupTime c = d
  not_runnable : some c ∉ s.threadRunnable
  not_waiting : some c ∉ s.ioWaitMap.values
  not_executing : s.cpu ≠ .coroutine c

/-- `c` sleeps all through the run, and no timestamp by which threads were woken has reached `d`. -/
structure SleepsThrough (H : HeapAlgo Tid) (s : Frame) (as : List SchedLabel) (c : Tid) (d : Nat) :
    Prop where
  asleep : ∀ x, Visits (Frame.step H) s as x → Asleep x c d
  early : ∀ x y, Takes (Frame.step H) s as x .wakeup y → x.lastLoopTs < d

/-- After the steps `before` the pass of `WakeupPendingThread` from `v` to `w` makes `c` runnable,
and in the steps `after` `c` is not pending unless it calls `Sleep` again. -/
structure WokenOnce (H : HeapAlgo Tid) (s v w : Frame) (before after : List SchedLabel) (c : Tid)
    (d : Nat) : Prop where
  reached : exec (Frame.step H) s before = some v
  sleeps : SleepsThrough H s before c d
  taken : .update v.lastLoopTs ∈ before
  due : d ≤ v.lastLoopTs
  wakes : v.step H .wakeup = some w
  runnable : w.threadRunnable.count (some c) = 1
  awake : c ∉ w.threadPending
  again : ∀ mid x, mid <+: after → exec (Frame.step H) w mid = some x → c ∈ x.threadPending →
    ∃ y mstime ms z, Takes (Frame.step H) w mid y (.sleep mstime ms) z ∧ y.cpu = .coroutine c

theorem Orderly.asleep {s : Frame} {c : Tid} (h : Orderly s) (hc : c ∈ s.threadPending) :
    Asleep s c (s.wakeupTime c) := by
  have hle := h.exclusive.count_le_one c
  have hpos := List.count_pos_iff.mpr hc
  rw [List.count_append, Frame.count_parked] at hle
  refine ⟨hc, rfl, fun hr => ?_, fun hw => ?_, fun hcpu => ?_⟩
  · have := List.count_pos_iff.mpr hr
    omega
  · have := List.count_pos_iff.mpr hw
    omega
  · rw [Frame.executing_of_coroutine hcpu, List.count_singleton_self] at hle
    omega

section Step

variable {H : HeapAlgo Tid} {s s' : Frame} {a : SchedLabel} {c : Tid} {d : Nat}

/-- What a step does to the pending heap: `Sleep` adds its caller, `WakeupPendingThread` takes out
those that are due, and no other step touches the heap or its deadlines. -/
theorem Orderly.pending_cases (h : Orderly s) (hs : s.step H a = some s') :
    (s'.threadPending = s.threadPending ∧ s'.wakeupTime = s.wakeupTime ∧ a ≠ .wakeup ∧
      ∀ mstime ms, a ≠ .sleep mstime ms) ∨
    (∃ t mstime ms, a = .sleep mstime ms ∧ s.cpu = .coroutine t ∧ t ∉ s.threadPending ∧
      s'.threadPending.Perm (s.threadPending ++ [t]) ∧
      s'.wakeupTime = s.wakeupTimeWith t (mstime + ms)) ∨
    (a = .wakeup ∧ ∃ woken rest, (woken ++ rest).Perm s.threadPending ∧ s'.threadPending = rest ∧
      s'.threadRunnable = s.threadRunnable ++ woken.map some ∧
      (∀ t ∈ woken, s.wakeupTime t ≤ s.lastLoopTs) ∧
      (∀ t ∈ rest, s.lastLoopTs < s.wakeupTime t ∧ s'.wakeupTime t = s.wakeupTime t)) := by
  have hsched (x : Frame) : x.schedule.threadPending = x.threadPending ∧
      x.schedule.wakeupTime = x.wakeupTime := by
    obtain ⟨_, _, _, he⟩ := x.schedule_eq
    rw [he]
    exact ⟨rfl, rfl⟩
  have hupdate {t : Tid} {th : Thread} (hth : th.wakeupTs = (s.threads t).wakeupTs) :
      (fun t' => (Function.update s.threads t th t').wakeupTs) = s.wakeupTime :=
    funext (update_field Thread.wakeupTs hth)
  cases Frame.schedMove h.running hs with
  | create w hcpu =>
    obtain ⟨t, free, n, he, -⟩ := s.createThread_eq w
    rw [he]
    exact .inl ⟨rfl, hupdate rfl, by simp⟩
  | wait call fd hcpu => exact .inl ⟨(hsched _).1, (hsched _).2.trans (hupdate rfl), by simp⟩
  | @sleep t mstime ms hcpu =>
    have hx := (h.of_coroutine hcpu).1
    refine .inr (.inl ⟨t, mstime, ms, rfl, hcpu, hx.not_mem_pending, ?_, ?_⟩)
    · rw [(hsched _).1]
      exact (hx.pushHeap_spec H _).1
    · rw [(hsched _).2]
      funext t'
      by_cases ht : t' = t <;> simp [Frame.wakeupTimeWith, Frame.wakeupTime, Frame.asleep, ht]
  | finish hcpu => exact .inl ⟨(hsched _).1, (hsched _).2.trans (hupdate rfl), by simp⟩
  | update mstime hcpu => exact .inl ⟨rfl, rfl, by simp⟩
  | fire e he hcpu => exact .inl ⟨rfl, rfl, by simp⟩
  | endEvents hcpu => exact .inl ⟨rfl, rfl, by simp⟩
  | wakeup hcpu =>
    have hx := h.of_mainLoop hcpu
    obtain ⟨woken, rest, he, -, hperm, hdue, hlate⟩ := hx.wakeupPendingThread_spec H
    rw [he]
    refine .inr (.inr ⟨rfl, woken, rest, hperm, rfl, rfl, hdue, fun t ht => ⟨hlate t ht, ?_⟩⟩)
    have hnodup : (woken ++ rest).Nodup := hperm.nodup_iff.mpr hx.nodup_pending
    have hnot : t ∉ woken := fun hw => List.disjoint_of_nodup_append hnodup hw ht
    simp [Frame.wakeupTime, Frame.awoken, hnot]
  | schedule hcpu => exact .inl ⟨(hsched _).1, (hsched _).2, by simp⟩

theorem Orderly.pending_gained (h : Orderly s) (hs : s.step H a = some s') (hc : c ∉ s.threadPending)
    (hc' : c ∈ s'.threadPending) : ∃ mstime ms, a = .sleep mstime ms ∧ s.cpu = .coroutine c := by
  rcases h.pending_cases hs with ⟨he, -⟩ | ⟨t, mstime, ms, ha, hcpu, -, hperm, -⟩ |
    ⟨-, woken, rest, hperm, he, -⟩
  · exact absurd (he ▸ hc') hc
  · have ht : c = t := by simpa [hc] using hperm.mem_iff.mp hc'
    exact ⟨mstime, ms, ha, ht ▸ hcpu⟩
  · exact absurd (hperm.mem_iff.mp (List.mem_append_right _ (he ▸ hc'))) hc

/-- A sleeping thread sleeps on, or the main loop finds it due and makes it runnable. -/
theorem Orderly.sleeper_step (h : Orderly s) (hs : s.step H a = some s') (hc : c ∈ s.threadPending)
    (hd : s.wakeupTime c = d) :
    (c ∈ s'.threadPending ∧ s'.wakeupTime c = d ∧ (a = .wakeup → s.lastLoopTs < d)) ∨
      (a = .wakeup ∧ d ≤ s.lastLoopTs ∧ s'.threadRunnable.count (some c) = 1 ∧ c ∉ s'.threadPending) := by
  rcases h.pending_cases hs with ⟨he, htime, ha, -⟩ | ⟨t, mstime, ms, rfl, -, ht, hperm, htime⟩ |
    ⟨rfl, woken, rest, hperm, he, hrun, hdue, hlate⟩
  · exact .inl ⟨he ▸ hc, htime ▸ hd, fun hh => absurd hh ha⟩
  · have hct : c ≠ t := ne_of_mem_of_not_mem hc ht
    refine .inl ⟨hperm.mem_iff.mpr (List.mem_append_left _ hc), ?_, by simp⟩
    rw [htime, Exclusive.wakeupTimeWith_of_ne hct, hd]
  · rcases List.mem_append.mp (hperm.mem_iff.mpr hc) with hw | hr
    · right
      have hle := (h.step hs).exclusive.count_le_one c
      have hpos : 0 < s'.threadRunnable.count (some c) :=
        List.count_pos_iff.mpr (by simp [hrun, hw])
      rw [List.count_append, Frame.count_parked] at hle
      refine ⟨rfl, hd ▸ hdue c hw, by omega, fun hc' => ?_⟩
      have := List.count_pos_iff.mpr hc'
      omega
    · exact .inl ⟨he ▸ hr, (hlate c hr).2.trans hd, fun _ => hd ▸ (hlate c hr).1⟩

theorem Orderly.sleep_spec {mstime ms : Nat} (h : Orderly s) (hcpu : s.cpu = .coroutine c)
    (hs : s.step H (.sleep mstime ms) = some s') :
    c ∈ s'.threadPending ∧ s'.wakeupTime c = mstime + ms ∧ ¬ s'.Polling := by
  have hpoll : ¬ s'.Polling := by
    intro hp
    rcases h.polling_step hs hp with ha | ⟨hp, -⟩
    · cases ha
    · simp [Frame.Polling, hcpu] at hp
  rcases h.pending_cases hs with ⟨-, -, -, hne⟩ | ⟨t, _, _, ha, ht, -, hperm, htime⟩ | ⟨ha, -⟩
  · exact absurd rfl (hne mstime ms)
  · obtain ⟨rfl, rfl⟩ := SchedLabel.sleep.inj ha
    obtain rfl : c = t := Cpu.coroutine.inj (hcpu.symm.trans ht)
    exact ⟨hperm.mem_iff.mpr (by simp), by simp [htime, Frame.wakeupTimeWith], hpoll⟩
  · cases ha

end Step

section Run

variable {H : HeapAlgo Tid} {s u : Frame} {as : List SchedLabel} {c : Tid} {d : Nat}

theorem orderly_of_visits (h : Visits (Frame.step H) Frame.start as s) : Orderly s :=
  h.invariant (Frame.initWith_partitioned 1000).orderly fun _ _ _ ht hu => ht.step hu

theorem Orderly.timestamp_taken (h : Orderly s) (hu : exec (Frame.step H) s as = some u)
    (hp : u.Polling) : .update u.lastLoopTs ∈ as ∨ (s.Polling ∧ u.lastLoopTs = s.lastLoopTs) := by
  induction as generalizing s with
  | nil => exact Option.some.inj hu ▸ .inr ⟨Option.some.inj hu ▸ hp, rfl⟩
  | cons a as ih =>
    obtain ⟨t, ht, hu⟩ := Option.bind_eq_some_iff.mp hu
    rcases ih (h.step ht) hu with hmem | ⟨htp, he⟩
    · exact .inl (List.mem_cons_of_mem _ hmem)
    · rcases h.polling_step ht htp with ha | ⟨hsp, he'⟩
      · exact .inl (by simp [he, ha])
      · exact .inr ⟨hsp, he.trans he'⟩

theorem SleepsThrough.of_visits (h : ∀ x, Visits (Frame.step H) s as x →
    Orderly x ∧ c ∈ x.threadPending ∧ x.wakeupTime c = d) : SleepsThrough H s as c d := by
  refine ⟨fun x hx => ?_, fun x y hxy => ?_⟩
  · obtain ⟨ho, hc, hd⟩ := h x hx
    exact hd ▸ ho.asleep hc
  · obtain ⟨ho, hc, hd⟩ := h x hxy.visits_source
    rcases ho.sleeper_step hxy.step_eq hc hd with ⟨-, -, hlt⟩ | ⟨-, -, -, hc'⟩
    · exact hlt rfl
    · exact absurd (h y hxy.visits).2.1 hc'

theorem Orderly.sleeps_again {mid : List SchedLabel} {x : Frame} (h : Orderly s)
    (hc : c ∉ s.threadPending) (hx : exec (Frame.step H) s mid = some x) (hc' : c ∈ x.threadPending) :
    ∃ y mstime ms z, Takes (Frame.step H) s mid y (.sleep mstime ms) z ∧ y.cpu = .coroutine c := by
  obtain ⟨y, a, z, hyz, hy, hz⟩ :=
    exists_takes_of_gained (P := fun x => c ∈ x.threadPending) hc hx hc'
  have ho : Orderly y := hyz.visits_source.invariant h fun _ _ _ ht hu => ht.step hu
  obtain ⟨mstime, ms, rfl, hcpu⟩ := ho.pending_gained hyz.step_eq hy hz
  exact ⟨y, mstime, ms, z, hyz, hcpu⟩

end Run

/-- In every run, for every call of `Sleep` and all that follows it: the caller sleeps on, no
timestamp having reached its deadline, or it is woken once, by the first pass after one has. -/
theorem sleeper_woken_once_at_deadline (H : HeapAlgo Tid) (pre as : List SchedLabel)
    (s s₁ u : Frame) (c : Tid) (mstime ms : Nat)
    (hpre : exec (Frame.step H) Frame.start pre = some s) (hcpu : s.cpu = .coroutine c)
    (hsleep : s.step H (.sleep mstime ms) = some s₁) (hrun : exec (Frame.step H) s₁ as = some u) :
    SleepsThrough H s₁ as c (mstime + ms) ∨
      ∃ before after v w, as = before ++ .wakeup :: after ∧
        WokenOnce H s₁ v w before after c (mstime + ms) := by
  have ho := orderly_of_visits (.of_exec hpre)
  have ho₁ := ho.step hsleep
  obtain ⟨hc, hd, hpoll⟩ := ho.sleep_spec hcpu hsleep
  have huntil := exec_until
    (P := fun x => Orderly x ∧ c ∈ x.threadPending ∧ x.wakeupTime c = mstime + ms)
    (Q := fun v a w => a = .wakeup ∧ mstime + ms ≤ v.lastLoopTs ∧
      w.threadRunnable.count (some c) = 1 ∧ c ∉ w.threadPending) ⟨ho₁, hc, hd⟩ ?_ hrun
  · rcases huntil with hall | ⟨before, a, after, v, w, rfl, hv, hall, hw, ⟨rfl, hdue, hcount, hnot⟩, -⟩
    · exact .inl (.of_visits hall)
    · have hvo := (hall v (.of_exec hv)).1
      have hvp : v.Polling := by
        simp only [Frame.step, Option.ite_none_right_eq_some] at hw
        exact .inr hw.1
      refine .inr ⟨before, after, v, w, rfl, hv, .of_visits hall, ?_, hdue, hw, hcount, hnot, ?_⟩
      · exact (ho₁.timestamp_taken hv hvp).resolve_right fun hp => hpoll hp.1
      · exact fun mid x _ hx hx' => (hvo.step hw).sleeps_again hnot hx hx'
  · rintro x a y ⟨hx, hcx, hdx⟩ hxy
    rcases hx.sleeper_step hxy hcx hdx with ⟨hcy, hdy, -⟩ | hwoken
    · exact .inl ⟨hx.step hxy, hcy, hdy⟩
    · exact .inr hwoken

/-- The caller of `Init` sleeps for 10 ms from 5 on: the turn of the main loop at 12 leaves it
asleep, the one at 15 wakes it. -/
theorem sleeper_woken_at_fifteen :
    ∃ s₁ before after v w, Frame.start.step (sortedHeap Tid) (.sleep 5 10) = some s₁ ∧
      [SchedLabel.update 12, .endEvents, .wakeup, .schedule, .update 15, .endEvents, .wakeup,
        .schedule] = before ++ .wakeup :: after ∧
      WokenOnce (sortedHeap Tid) s₁ v w before after 1 15 := by
  have hcpu : Frame.start.cpu = .coroutine 1 := by rw [Frame.start, Frame.init, Frame.initWith_eq]
  have hrun : ((Frame.start.step (sortedHeap Tid) (.sleep 5 10)).bind fun s₁ =>
      (exec (Frame.step (sortedHeap Tid)) s₁ [.update 12, .endEvents, .wakeup, .schedule, .update 15,
        .endEvents, .wakeup, .schedule]).map Frame.cpu) = some (.coroutine 1) := by
    rw [Frame.start, Frame.init, Frame.initWith_eq]
    decide +kernel
  obtain ⟨s₁, hs₁, hrun⟩ := Option.bind_eq_some_iff.mp hrun
  obtain ⟨u, hu, hcpu'⟩ := Option.map_eq_some_iff.mp hrun
  rcases sleeper_woken_once_at_deadline (sortedHeap Tid) [] _ Frame.start s₁ u 1 5 10 rfl hcpu hs₁ hu
    with hsleeps | ⟨before, after, v, w, hsplit, hwoken⟩
  · exact absurd hcpu' (hsleeps.asleep u (.of_exec hu)).not_executing
  · exact ⟨s₁, before, after, v, w, hs₁, hsplit, hwoken⟩

end Tinyco
