import Mathlib.Data.List.ReduceOption
import Tinyco.Runs
import Tinyco.SchedulerMoves

/-! No thread is in two places, whatever the coroutines do. The invariant is kept for a state
about to call `Schedule()`, where nobody executes, and carried over to the others. -/

namespace Tinyco

namespace Frame

/-- The four containers, a null pointer counting for nothing. -/
def parked (s : Frame) : List Tid :=
  s.threadRunnable.reduceOption ++ s.ioWaitMap.values.reduceOption ++ s.threadPending ++ s.threadFree

def executing (s : Frame) : List Tid :=
  match s.cpu with
  | .coroutine t => [t]
  | _ => []

/-- The main loop is in the part of its turn that follows `UpdateLoopTimestamp`. -/
def Polling (s : Frame) : Prop := s.cpu = .mainLoop .eventLoop ∨ s.cpu = .mainLoop .wakeup

theorem executing_of_coroutine {s : Frame} {t : Tid} (h : s.cpu = .coroutine t) :
    s.executing = [t] := by simp [executing, h]

theorem executing_of_mainLoop {s : Frame} {p : LoopPhase} (h : s.cpu = .mainLoop p) :
    s.executing = [] := by simp [executing, h]

end Frame

/-- The context that `t` gives control with is one of `t` itself. -/
def Thread.Resumes (th : Thread) (t : Tid) : Prop :=
  th.uc = .saved t ∨ ∃ w, th.uc = .start (.handleProcess w)

/-- The threads `ex` are executing, the others at most once in the containers. -/
structure Exclusive (s : Frame) (ex : List Tid) : Prop where
  count_le : ∀ t, (ex ++ s.parked).count t ≤
    if t < s.allocated ∧ s.mainThread ≠ some t then 1 else 0
  resumes : ∀ t ∈ s.threadRunnable.reduceOption ++ s.ioWaitMap.values.reduceOption ++ s.threadPending,
    (s.threads t).Resumes t
  main : ∃ m : Nat, s.mainThread = some m ∧ m < s.allocated ∧ (s.threads m).uc = .start .mainThreadLoop
  heap : IsMinHeap s.wakeupTime s.threadPending

structure Orderly (s : Frame) : Prop where
  exclusive : Exclusive s s.executing
  running : ∀ t, s.cpu = .coroutine t → s.runningThread = some t

section Counts

theorem count_reduceOption (l : List (Option Tid)) (t : Tid) :
    l.reduceOption.count t = l.count (some t) := by
  induction l with
  | nil => rfl
  | cons o l ih =>
    cases o with
    | none => simpa using ih
    | some a => by_cases ha : a = t <;> simp [ha, ih]

theorem count_some_singleton (c t : Tid) : [some c].count (some t) = [c].count t := by
  rw [← count_reduceOption]
  rfl

theorem count_map_some (l : List Tid) (t : Tid) : (l.map some).count (some t) = l.count t := by
  rw [← count_reduceOption]
  simp [List.reduceOption]

theorem Frame.count_parked (s : Frame) (t : Tid) :
    s.parked.count t = s.threadRunnable.count (some t) + s.ioWaitMap.values.count (some t) +
      s.threadPending.count t + s.threadFree.count t := by
  simp only [Frame.parked, List.count_append, count_reduceOption]

variable {κ ν : Type*} [DecidableEq κ] [BEq ν]

theorem AssocMap.count_values_assign_le (m : AssocMap κ ν) (k : κ) (v x : ν) :
    (m.assign k v).values.count x ≤ m.values.count x + [v].count x := by
  obtain ⟨es, hnd⟩ := m
  simp only [AssocMap.values, AssocMap.assign]
  clear hnd
  induction es with
  | nil => simp [AssocMap.assignEntries]
  | cons e es ih =>
    by_cases he : e.1 = k
    · simp only [AssocMap.assignEntries, he, if_true, List.map_cons, List.count_cons]
      simp only [List.count_nil]
      omega
    · simp only [AssocMap.assignEntries, he, if_false, List.map_cons, List.count_cons] at ih ⊢
      omega

theorem AssocMap.count_values_erase (m : AssocMap κ (Option Tid)) (k : κ) (x : Tid) :
    m.values.count (some x) = [(m.find k).getD none].count (some x) +
      (m.erase k).values.count (some x) := by
  cases hf : m.find k with
  | none =>
    have hk : k ∉ m.keys := AssocMap.find_eq_none_iff.mp hf
    have he : (m.erase k).values = m.values := by
      simp only [AssocMap.values, AssocMap.erase]
      rw [List.filter_eq_self.mpr]
      intro e hmem
      have hne : e.1 ≠ k := fun hh => hk (hh ▸ List.mem_map_of_mem hmem)
      simpa using hne
    simp [he]
  | some v =>
    have hp := List.perm_iff_count.mp (AssocMap.values_perm_erase hf) (some x)
    rw [hp, List.count_cons, Option.getD_some, List.count_singleton]
    omega

end Counts

namespace Exclusive

variable {s : Frame} {ex : List Tid} {c t : Tid}

theorem count_le_one (h : Exclusive s ex) (t : Tid) : (ex ++ s.parked).count t ≤ 1 :=
  (h.count_le t).trans (by split_ifs <;> omega)

theorem of_mem (h : Exclusive s ex) (ht : t ∈ ex ++ s.parked) :
    t < s.allocated ∧ s.mainThread ≠ some t := by
  have hpos := List.count_pos_iff.mpr ht
  have hle := h.count_le t
  by_contra hn
  rw [if_neg hn] at hle
  omega

theorem not_mem_parked (h : Exclusive s [c]) : c ∉ s.parked := by
  intro hc
  have hpos := List.count_pos_iff.mpr hc
  have hle := h.count_le_one c
  simp only [List.count_append, List.count_singleton_self] at hle
  omega

theorem of_count {s' : Frame} {ex' : List Tid} (h : Exclusive s ex)
    (hcount : ∀ t, (ex' ++ s'.parked).count t ≤ (ex ++ s.parked).count t)
    (halloc : s'.allocated = s.allocated) (hmain : s'.mainThread = s.mainThread)
    (huc : ∀ m, s.mainThread = some m → (s'.threads m).uc = (s.threads m).uc)
    (hresumes : ∀ t ∈ s'.threadRunnable.reduceOption ++ s'.ioWaitMap.values.reduceOption ++
      s'.threadPending, (s'.threads t).Resumes t)
    (hheap : IsMinHeap s'.wakeupTime s'.threadPending) : Exclusive s' ex' := by
  obtain ⟨m, hm, hlt, hstart⟩ := h.main
  refine ⟨fun t => ?_, hresumes, ⟨m, hmain.trans hm, halloc ▸ hlt, (huc m hm).trans hstart⟩, hheap⟩
  rw [halloc, hmain]
  exact (hcount t).trans (h.count_le t)

/-- `Schedule()` hands control to the main loop or to the first runnable thread, and fails if
this is null. -/
theorem schedule_cases (h : Exclusive s []) :
    (s.threadRunnable = [] ∧ s.schedule = { s with cpu := .mainLoop .update }) ∨
    (∃ rest, s.threadRunnable = none :: rest ∧
      s.schedule = { s with runningThread := none, threadRunnable := rest, cpu := .fault }) ∨
    ∃ t rest, s.threadRunnable = some t :: rest ∧ s.schedule =
      { s with runningThread := some t, threadRunnable := rest, cpu := .coroutine t } := by
  obtain ⟨m, hm, -, huc⟩ := h.main
  cases hr : s.threadRunnable with
  | nil => exact .inl ⟨rfl, by simp [Frame.schedule, hr, hm, Frame.restoreContext, huc]⟩
  | cons o rest =>
    cases o with
    | none => exact .inr (.inl ⟨rest, rfl, by simp [Frame.schedule, hr, Frame.restoreContext]⟩)
    | some t =>
      have ht : (s.threads t).Resumes t := h.resumes t (by simp [hr])
      refine .inr (.inr ⟨t, rest, rfl, ?_⟩)
      rcases ht with hu | ⟨w, hu⟩ <;> simp [Frame.schedule, hr, Frame.restoreContext, hu]

theorem schedule (h : Exclusive s []) : Orderly s.schedule := by
  rcases h.schedule_cases with ⟨hr, he⟩ | ⟨rest, hr, he⟩ | ⟨t, rest, hr, he⟩ <;> rw [he]
  · exact ⟨⟨h.count_le, h.resumes, h.main, h.heap⟩, by simp⟩
  · refine ⟨h.of_count (fun t => ?_) rfl rfl (fun _ _ => rfl) (fun t ht => ?_) h.heap, by simp⟩
    · simp [Frame.executing, Frame.parked, hr]
    · exact h.resumes t (by simpa [hr] using ht)
  · refine ⟨h.of_count (fun t => ?_) rfl rfl (fun _ _ => rfl) (fun t' ht => ?_) h.heap, by simp⟩
    · simp [Frame.executing, Frame.parked, hr]
    · refine h.resumes t' ?_
      rw [hr, List.reduceOption_cons_of_some]
      exact List.mem_cons_of_mem _ ht

theorem schedule_not_polling (h : Exclusive s []) : ¬ s.schedule.Polling := by
  rcases h.schedule_cases with ⟨-, he⟩ | ⟨rest, -, he⟩ | ⟨t, rest, -, he⟩ <;> simp [he, Frame.Polling]

theorem ne_main (h : Exclusive s ex) (ht : t ∈ ex ++ s.parked) {m : Tid}
    (hm : s.mainThread = some m) : m ≠ t :=
  fun hmt => (h.of_mem ht).2 (hmt ▸ hm)

theorem resumes_update (h : Exclusive s ex) {th : Thread} (hth : th.uc = .saved c)
    {l : List Tid} (hl : ∀ t ∈ l, t ≠ c → t ∈ s.threadRunnable.reduceOption ++
      s.ioWaitMap.values.reduceOption ++ s.threadPending) :
    ∀ t ∈ l, (Function.update s.threads c th t).Resumes t := by
  intro t ht
  by_cases htc : t = c
  · subst htc
    exact .inl (by simpa using hth)
  · rw [Function.update_of_ne htc]
    exact h.resumes t (hl t ht htc)

theorem blocked (h : Exclusive s [c]) (call : SockCall) (fd : Fd) :
    Exclusive (s.blocked c call fd) [] := by
  have hassign (t : Tid) := AssocMap.count_values_assign_le s.ioWaitMap fd (some c) (some t)
  have hne {m : Tid} (hm : s.mainThread = some m) : m ≠ c := h.ne_main (t := c) (by simp) hm
  refine h.of_count (fun t => ?_) rfl rfl (fun m hm => ?_) (h.resumes_update rfl fun t ht htc => ?_)
    (h.heap.update rfl)
  · have ha := hassign t
    rw [count_some_singleton] at ha
    simp only [List.nil_append, List.count_append, Frame.count_parked, Frame.blocked]
    omega
  · simp [Frame.blocked, Function.update_of_ne (hne hm)]
  · have ha := hassign t
    simp only [Frame.blocked, List.mem_append, List.reduceOption_mem_iff] at ht ⊢
    rcases ht with (ht | ht) | ht
    · exact .inl (.inl ht)
    · refine .inl (.inr (List.count_pos_iff.mp ?_))
      have hpos := List.count_pos_iff.mpr ht
      simp [Ne.symm htc] at ha
      omega
    · exact .inr ht

theorem wakeupTimeWith_of_ne {ts : Nat} (htc : t ≠ c) : s.wakeupTimeWith c ts t = s.wakeupTime t := by
  simp [Frame.wakeupTimeWith, htc]

theorem not_mem_pending (h : Exclusive s [c]) : c ∉ s.threadPending :=
  fun hc => h.not_mem_parked (by simp [Frame.parked, hc])

theorem pushHeap_spec (h : Exclusive s [c]) (H : HeapAlgo Tid) (ts : Nat) :
    (s.asleep H c ts).threadPending.Perm (s.threadPending ++ [c]) ∧
      IsMinHeap (s.asleep H c ts).wakeupTime (s.asleep H c ts).threadPending := by
  have hheap : IsMinHeap (s.wakeupTimeWith c ts) s.threadPending := h.heap.congr fun a ha =>
    (wakeupTimeWith_of_ne (ne_of_mem_of_not_mem ha h.not_mem_pending)).symm
  obtain ⟨hperm, hpush⟩ := H.pushHeap_spec (x := c) hheap
  refine ⟨hperm, hpush.congr fun a _ => ?_⟩
  by_cases hac : a = c <;> simp [Frame.wakeupTimeWith, Frame.wakeupTime, Frame.asleep, hac]

theorem asleep (h : Exclusive s [c]) (H : HeapAlgo Tid) (ts : Nat) :
    Exclusive (s.asleep H c ts) [] := by
  obtain ⟨hperm, hheap⟩ := h.pushHeap_spec H ts
  have hne {m : Tid} (hm : s.mainThread = some m) : m ≠ c := h.ne_main (t := c) (by simp) hm
  refine h.of_count (fun t => ?_) rfl rfl (fun m hm => ?_) (h.resumes_update rfl fun t ht htc => ?_)
    hheap
  · have hp := List.perm_iff_count.mp hperm t
    simp only [List.nil_append, Frame.count_parked, List.count_append, Frame.asleep] at hp ⊢
    omega
  · simp [Frame.asleep, Function.update_of_ne (hne hm)]
  · rw [List.mem_append, hperm.mem_iff] at ht
    simpa [htc, Frame.asleep, or_assoc] using ht

theorem recycled (h : Exclusive s [c]) : Exclusive (s.recycled c) [] := by
  have hth := update_field Thread.uc
    (show ({ s.threads c with state := some .dead } : Thread).uc = (s.threads c).uc from rfl)
  refine h.of_count (fun t => ?_) rfl rfl (fun m _ => hth m) (fun t ht => ?_) (h.heap.update rfl)
  · simp only [List.nil_append, Frame.count_parked, List.count_append, Frame.recycled]
    omega
  · have hr := h.resumes t ht
    simpa only [Thread.Resumes, Frame.recycled, hth] using hr

theorem createThread (h : Exclusive s ex) (w : WorkId) : Exclusive (s.createThread w).2 ex := by
  obtain ⟨t, free, n, he, -, hcase⟩ := s.createThread_eq w
  obtain ⟨m, hm, hlt, huc⟩ := h.main
  have htm : m ≠ t := by
    rcases hcase with ⟨hf, _⟩ | ⟨rfl, _⟩
    · exact h.ne_main (t := t) (by simp [Frame.parked, hf]) hm
    · exact Nat.ne_of_lt hlt
  rw [he]
  refine ⟨fun (a : Nat) => ?_, fun a ha => ?_, ⟨m, hm, ?_, ?_⟩, h.heap.update rfl⟩
  · have hle := h.count_le a
    rcases hcase with ⟨hf, rfl⟩ | ⟨rfl, rfl, rfl⟩
    · simp only [List.count_append, Frame.count_parked, count_some_singleton, hf] at hle ⊢
      omega
    · have hnew : (ex ++ s.parked).count s.allocated = 0 := by
        simpa using h.count_le s.allocated
      simp only [List.count_append, Frame.count_parked, count_some_singleton] at hle hnew ⊢
      by_cases ha : a = s.allocated
      · have hmain : s.mainThread ≠ some a := fun hh => htm (Option.some.inj (hm.symm.trans (ha ▸ hh)))
        rw [if_pos ⟨show a < s.allocated + 1 by omega, hmain⟩, ha, List.count_singleton_self]
        omega
      · have h0 : [s.allocated].count a = 0 := by simp [Ne.symm ha]
        have hiff : a < s.allocated + 1 ↔ a < s.allocated := by omega
        simp only [hiff, h0]
        omega
  · by_cases hat : a = t
    · subst hat
      exact .inr ⟨w, by simp [Thread.created]⟩
    · simp only [Function.update_of_ne hat]
      apply h.resumes a
      simpa [List.reduceOption_append, hat] using ha
  · change m < n
    rcases hcase with ⟨_, rfl⟩ | ⟨_, _, rfl⟩ <;> omega
  · simpa [Function.update_of_ne htm] using huc

theorem socketReadOrWrite (h : Exclusive s []) (e : Event) : Exclusive (s.socketReadOrWrite e) [] := by
  have hvals (t : Tid) := AssocMap.count_values_erase s.ioWaitMap e.fd t
  refine h.of_count (fun t => ?_) rfl rfl (fun _ _ => rfl) (fun t ht => h.resumes t ?_) h.heap
  · have hv := hvals t
    simp only [List.nil_append, Frame.count_parked, Frame.socketReadOrWrite, List.count_append]
    omega
  · have hv := hvals t
    simp only [Frame.socketReadOrWrite, List.mem_append, List.reduceOption_mem_iff] at ht ⊢
    rcases ht with ((ht | ht) | ht) | ht
    · exact .inl (.inl ht)
    · have hpos := List.count_pos_iff.mpr ht
      exact .inl (.inr (List.count_pos_iff.mp (by omega)))
    · have hpos := List.count_pos_iff.mpr ht
      exact .inl (.inr (List.count_pos_iff.mp (by omega)))
    · exact .inr ht

theorem nodup_pending (h : Exclusive s ex) : s.threadPending.Nodup := by
  refine List.nodup_iff_count_le_one.mpr fun t => ?_
  have hle := h.count_le_one t
  simp only [List.count_append, Frame.count_parked] at hle
  omega

theorem awoken (h : Exclusive s []) {woken rest : List Tid}
    (hperm : (woken ++ rest).Perm s.threadPending) (hheap : IsMinHeap s.wakeupTime rest) :
    Exclusive (s.awoken woken rest) [] := by
  have huc (t : Tid) : ((s.awoken woken rest).threads t).uc = (s.threads t).uc := by
    by_cases ht : t ∈ woken <;> simp [Frame.awoken, ht]
  have hnodup : (woken ++ rest).Nodup := hperm.nodup_iff.mpr h.nodup_pending
  refine h.of_count (fun t => ?_) rfl rfl (fun m _ => huc m) (fun t ht => ?_)
    (hheap.congr fun t ht => ?_)
  · have hp := List.perm_iff_count.mp hperm t
    simp only [List.nil_append, Frame.count_parked, List.count_append, Frame.awoken,
      count_map_some] at hp ⊢
    omega
  · simp only [Thread.Resumes, huc]
    refine h.resumes t ?_
    simp only [Frame.awoken, List.mem_append, List.reduceOption_mem_iff, List.mem_map,
      ← hperm.mem_iff] at ht ⊢
    rcases ht with ((ht | ⟨x, hx, he⟩) | ht) | ht
    · exact .inl (.inl ht)
    · exact .inr (.inl (Option.some.inj he ▸ hx))
    · exact .inl (.inr ht)
    · exact .inr (.inr ht)
  · have hnot : t ∉ woken := fun hw => List.disjoint_of_nodup_append hnodup hw ht
    simp [Frame.wakeupTime, Frame.awoken, hnot]

end Exclusive

theorem Exclusive.wakeupPendingThread_spec {s : Frame} (h : Exclusive s []) (H : HeapAlgo Tid) :
    ∃ woken rest, s.wakeupPendingThread H = s.awoken woken rest ∧
      Exclusive (s.awoken woken rest) [] ∧ (woken ++ rest).Perm s.threadPending ∧
      (∀ t ∈ woken, s.wakeupTime t ≤ s.lastLoopTs) ∧
      (∀ t ∈ rest, s.lastLoopTs < s.wakeupTime t) := by
  obtain ⟨woken, rest, he, hperm, hheap, hdue, -, hlate⟩ :=
    Frame.wakeupLoop_spec H s.threadPending.length h.heap h.nodup_pending
  exact ⟨woken, rest, he, h.awoken hperm hheap, hperm, hdue, hlate le_rfl⟩

theorem Exclusive.mainLoop {s : Frame} (h : Exclusive s []) (p : LoopPhase) :
    Orderly { s with cpu := .mainLoop p } :=
  ⟨⟨h.count_le, h.resumes, h.main, h.heap⟩, by simp⟩

namespace Orderly

variable {H : HeapAlgo Tid} {s s' : Frame} {a : SchedLabel}

theorem of_coroutine {c : Tid} (h : Orderly s) (hc : s.cpu = .coroutine c) :
    Exclusive s [c] ∧ s.runningThread = some c :=
  ⟨Frame.executing_of_coroutine hc ▸ h.exclusive, h.running c hc⟩

theorem of_mainLoop {p : LoopPhase} (h : Orderly s) (hc : s.cpu = .mainLoop p) : Exclusive s [] :=
  Frame.executing_of_mainLoop hc ▸ h.exclusive

theorem createThread (h : Orderly s) (w : WorkId) : Orderly (s.createThread w).2 := by
  have hc := h.exclusive.createThread w
  obtain ⟨t, free, n, he, _⟩ := s.createThread_eq w
  rw [he] at hc ⊢
  exact ⟨hc, h.running⟩

theorem step (h : Orderly s) (hs : s.step H a = some s') : Orderly s' := by
  cases Frame.schedMove h.running hs with
  | create w hcpu => exact h.createThread w
  | wait call fd hcpu => exact ((h.of_coroutine hcpu).1.blocked call fd).schedule
  | sleep mstime ms hcpu => exact ((h.of_coroutine hcpu).1.asleep H _).schedule
  | finish hcpu => exact (h.of_coroutine hcpu).1.recycled.schedule
  | update mstime hcpu =>
    have hc := h.of_mainLoop hcpu
    exact ⟨⟨hc.count_le, hc.resumes, hc.main, hc.heap⟩, by simp⟩
  | fire e he hcpu =>
    have hc := ((h.of_mainLoop hcpu).socketReadOrWrite e).mainLoop .eventLoop
    simpa only [Frame.socketReadOrWrite, hcpu] using hc
  | endEvents hcpu => exact (h.of_mainLoop hcpu).mainLoop .wakeup
  | wakeup hcpu =>
    obtain ⟨woken, rest, he, hc, -⟩ := (h.of_mainLoop hcpu).wakeupPendingThread_spec H
    exact he ▸ hc.mainLoop .schedule
  | schedule hcpu => exact (h.of_mainLoop hcpu).schedule

theorem polling_step (h : Orderly s) (hs : s.step H a = some s') (hp : s'.Polling) :
    (a = .update s'.lastLoopTs) ∨ (s.Polling ∧ s'.lastLoopTs = s.lastLoopTs) := by
  cases Frame.schedMove h.running hs with
  | create w hcpu =>
    obtain ⟨t, free, n, he, _⟩ := s.createThread_eq w
    simp [he, Frame.Polling, hcpu] at hp
  | wait call fd hcpu =>
    exact absurd hp ((h.of_coroutine hcpu).1.blocked call fd).schedule_not_polling
  | sleep mstime ms hcpu => exact absurd hp ((h.of_coroutine hcpu).1.asleep H _).schedule_not_polling
  | finish hcpu => exact absurd hp (h.of_coroutine hcpu).1.recycled.schedule_not_polling
  | update mstime hcpu => exact .inl rfl
  | fire e he hcpu => exact .inr ⟨.inl hcpu, rfl⟩
  | endEvents hcpu => exact .inr ⟨.inl hcpu, rfl⟩
  | wakeup hcpu => simp [Frame.Polling] at hp
  | schedule hcpu => exact absurd hp (h.of_mainLoop hcpu).schedule_not_polling

end Orderly

end Tinyco
