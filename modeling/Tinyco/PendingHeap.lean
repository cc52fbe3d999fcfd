import Mathlib.Order.Bounds.Defs
import Tinyco.Bytes
import Tinyco.SleepDeadline

/-! The pending heap in a turn of the main loop: which threads `WakeupPendingThread` takes out
of it, and the time `GetEventLoopTimeout` allows the event loop before. -/

namespace Tinyco

/-- `s'` is `s` with the threads `woken` out of the heap and behind the runnable ones. -/
structure WakesDue (s s' : Frame) (woken : List Tid) : Prop where
  mem_iff : ∀ t, t ∈ woken ↔ t ∈ s.threadPending ∧ s.wakeupTime t ≤ s.lastLoopTs
  nodup : woken.Nodup
  sorted : woken.Pairwise fun a b => s.wakeupTime a ≤ s.wakeupTime b
  runnable : s'.threadRunnable = s.threadRunnable ++ woken.map some
  pending : (woken ++ s'.threadPending).Perm s.threadPending
  heap : IsMinHeap s'.wakeupTime s'.threadPending
  marked : ∀ t ∈ woken, s'.threads t = { s.threads t with wakeupTs := 0, state := some .runnable }
  unchanged : ∀ t, t ∉ woken → s'.threads t = s.threads t
  others : s' = { s with
    threadRunnable := s'.threadRunnable, threadPending := s'.threadPending, threads := s'.threads }

theorem Frame.wakesDue (H : HeapAlgo Tid) {s : Frame}
    (hheap : IsMinHeap s.wakeupTime s.threadPending) (hnodup : s.threadPending.Nodup) :
    ∃ woken, WakesDue s (s.wakeupPendingThread H) woken := by
  obtain ⟨woken, rest, he, hperm, hrest, hdue, hpair, hlate⟩ :=
    Frame.wakeupLoop_spec H s.threadPending.length hheap hnodup
  have hnd : (woken ++ rest).Nodup := hperm.nodup_iff.mpr hnodup
  have hlater (t : Tid) (ht : t ∈ rest) : s.lastLoopTs < s.wakeupTime t := hlate le_rfl t ht
  have hsame (t : Tid) (ht : t ∉ woken) : (s.awoken woken rest).threads t = s.threads t := by
    simp [Frame.awoken, ht]
  have hmem (t : Tid) : t ∈ woken ↔ t ∈ s.threadPending ∧ s.wakeupTime t ≤ s.lastLoopTs := by
    constructor
    · intro ht
      exact ⟨hperm.mem_iff.mp (List.mem_append_left _ ht), hdue t ht⟩
    · rintro ⟨ht, hle⟩
      rcases List.mem_append.mp (hperm.mem_iff.mpr ht) with hw | hr
      · exact hw
      · have := hlater t hr
        omega
  refine ⟨woken, ?_⟩
  rw [Frame.wakeupPendingThread, he]
  refine ⟨hmem, (List.nodup_append.mp hnd).1, hpair, rfl, hperm, ?_, fun t ht => ?_, hsame, rfl⟩
  · apply hrest.congr
    intro t ht
    have hnot : t ∉ woken := fun hw => List.disjoint_of_nodup_append hnd hw ht
    rw [Frame.wakeupTime, Frame.wakeupTime, hsame t hnot]
  · simp [Frame.awoken, ht]

theorem Orderly.wakeupTime_kept {H : HeapAlgo Tid} {s s' : Frame} {a : SchedLabel} {t : Tid}
    (h : Orderly s) (hs : s.step H a = some s') (ht : t ∈ s.threadPending)
    (ht' : t ∈ s'.threadPending) : s'.wakeupTime t = s.wakeupTime t := by
  rcases h.sleeper_step hs ht rfl with ⟨-, hkept, -⟩ | ⟨-, -, -, hnot⟩
  · exact hkept
  · exact absurd ht' hnot

/-- In every run the pending threads form a heap without repetitions whose keys stay as they
are, and from every such heap, whatever the time, those that are due are woken in order. -/
theorem pending_heap_woken_in_order (H : HeapAlgo Tid) (as : List SchedLabel) :
    (∀ s, Visits (Frame.step H) Frame.start as s →
      IsMinHeap s.wakeupTime s.threadPending ∧ s.threadPending.Nodup) ∧
    (∀ s a s', Takes (Frame.step H) Frame.start as s a s' → ∀ t ∈ s.threadPending,
      t ∈ s'.threadPending → s'.wakeupTime t = s.wakeupTime t) ∧
    ∀ s : Frame, IsMinHeap s.wakeupTime s.threadPending → s.threadPending.Nodup →
      ∃ woken, WakesDue s (s.wakeupPendingThread H) woken := by
  refine ⟨fun s hs => ?_, fun s a s' hs t ht ht' => ?_, fun s hheap hnodup => ?_⟩
  · have ho := (orderly_of_visits hs).exclusive
    exact ⟨ho.heap, ho.nodup_pending⟩
  · exact (orderly_of_visits hs.visits_source).wakeupTime_kept hs.step_eq ht ht'
  · exact Frame.wakesDue H hheap hnodup

structure Timeval where
  tvSec : Int
  tvUsec : Int
  deriving DecidableEq, Repr

namespace Timeval

def micros (tv : Timeval) : Int := tv.tvSec * 1000000 + tv.tvUsec

def Normalised (tv : Timeval) : Prop := 0 ≤ tv.tvSec ∧ 0 ≤ tv.tvUsec ∧ tv.tvUsec < 1000000

instance (tv : Timeval) : Decidable tv.Normalised :=
  inferInstanceAs (Decidable (0 ≤ tv.tvSec ∧ 0 ≤ tv.tvUsec ∧ tv.tvUsec < 1000000))

/-- The two lines that make a `timeval` of the `int` `delta`, in unsigned arithmetic. -/
def ofDelta (delta : Int) : Timeval :=
  let tvSec := toInt64 (toUInt64 delta / 1000 : Nat)
  ⟨tvSec, toInt64 (toUInt64 ((toUInt64 delta - tvSec * 1000) * 1000))⟩

theorem ofDelta_of_nonneg {n : Nat} (h : n < 2 ^ 31) :
    ofDelta n = ⟨(n / 1000 : Nat), (n % 1000 * 1000 : Nat)⟩ := by
  have hdelta : toUInt64 n = n := toUInt64_of_lt (by omega)
  have hsec : toInt64 (n / 1000 : Nat) = (n / 1000 : Nat) := toInt64_of_lt (by omega)
  have hrest : ((n : Int) - (n / 1000 : Nat) * 1000) * 1000 = (n % 1000 * 1000 : Nat) := by omega
  have husec : toUInt64 (n % 1000 * 1000 : Nat) = n % 1000 * 1000 := toUInt64_of_lt (by omega)
  have hlong : toInt64 (n % 1000 * 1000 : Nat) = (n % 1000 * 1000 : Nat) := toInt64_of_lt (by omega)
  simp only [ofDelta, hdelta, hsec, hrest, husec, hlong]

/-- A negative `int` is taken for a number of milliseconds close to 2^64. -/
theorem ofDelta_of_neg (delta : Int) (hneg : delta < 0) (h : -2 ^ 31 ≤ delta) :
    2 ^ 53 ≤ (ofDelta delta).tvSec := by
  have hdelta := toUInt64_of_neg hneg (by omega)
  have hsec : toInt64 (toUInt64 delta / 1000 : Nat) = (toUInt64 delta / 1000 : Nat) :=
    toInt64_of_lt (by omega)
  simp only [ofDelta, hsec]
  omega

end Timeval

namespace Frame

def getEventLoopTimeout (s : Frame) : Timeval :=
  match s.threadPending with
  | [] => ⟨0, 100000⟩
  | mint :: _ =>
    if s.wakeupTime mint < s.lastLoopTs then ⟨0, 0⟩
    else .ofDelta (toInt32 ((s.wakeupTime mint : Int) - s.lastLoopTs))

def WaitsUntil (s : Frame) (w : Nat) : Prop :=
  s.getEventLoopTimeout.Normalised ∧
    s.getEventLoopTimeout.micros = max 0 ((w : Int) - s.lastLoopTs) * 1000

end Frame

/-- The event loop gets exactly the time until the earliest deadline if that is less than
2^31 ms away, and never otherwise, among the deadlines a `Sleep` can set. -/
theorem loop_timeout_right_iff (s : Frame) (w : Nat)
    (hheap : IsMinHeap s.wakeupTime s.threadPending)
    (hw : IsLeast {d | ∃ t ∈ s.threadPending, s.wakeupTime t = d} w)
    (hlt : w < s.lastLoopTs + 2 ^ 32) :
    s.WaitsUntil w ↔ w < s.lastLoopTs + 2 ^ 31 := by
  obtain ⟨⟨t, ht, htw⟩, hle⟩ := hw
  cases hp : s.threadPending with
  | nil => simp [hp] at ht
  | cons x l =>
    have hx : s.wakeupTime x = w := by
      have hxt : s.wakeupTime x ≤ s.wakeupTime t := (hp ▸ hheap).head_le (hp ▸ ht)
      have hwx : w ≤ s.wakeupTime x := hle ⟨x, by simp [hp], rfl⟩
      omega
    simp only [Frame.WaitsUntil, Frame.getEventLoopTimeout, hp, hx]
    by_cases hpast : w < s.lastLoopTs
    · have hmax : max 0 ((w : Int) - s.lastLoopTs) = 0 := by omega
      simp only [if_pos hpast, hmax]
      exact iff_of_true ⟨by decide, by decide⟩ (by omega)
    · obtain ⟨n, rfl⟩ := Nat.exists_eq_add_of_le (not_lt.mp hpast)
      have hsub : ((s.lastLoopTs + n : Nat) : Int) - s.lastLoopTs = n := by omega
      have hmax : max 0 (n : Int) = n := by omega
      rw [if_neg hpast, hsub, hmax]
      by_cases hn : n < 2 ^ 31
      · rw [toInt32_of_lt hn, Timeval.ofDelta_of_nonneg hn]
        refine iff_of_true ⟨⟨?_, ?_, ?_⟩, ?_⟩ (by omega)
        all_goals simp only [Timeval.micros]; omega
      · have hneg : toInt32 n = n - 2 ^ 32 := toInt32_of_ge (by omega) (by omega)
        have hsec := Timeval.ofDelta_of_neg (toInt32 n) (by omega) (by omega)
        refine iff_of_false (fun ⟨hnorm, hmicros⟩ => ?_) (by omega)
        obtain ⟨-, husec, -⟩ := hnorm
        simp only [Timeval.micros] at hmicros
        omega

theorem first_sleep (ms : Nat) : ∃ s, exec (Frame.step (sortedHeap Tid)) Frame.start
      [.sleep 0 ms, .update 0] = some s ∧
    s.threadPending = [1] ∧ s.wakeupTime 1 = ms ∧ s.lastLoopTs = 0 := by
  rw [Frame.start, Frame.init, Frame.initWith_eq]
  exact ⟨_, rfl, rfl, Nat.zero_add ms, rfl⟩

theorem isLeast_of_single {s : Frame} {t : Tid} (h : s.threadPending = [t]) :
    IsMinHeap s.wakeupTime s.threadPending ∧
      IsLeast {d | ∃ t ∈ s.threadPending, s.wakeupTime t = d} (s.wakeupTime t) := by
  rw [h]
  refine ⟨isMinHeap_of_pairwise (List.pairwise_singleton _ _), ⟨t, by simp, rfl⟩, ?_⟩
  rintro d ⟨t', ht', rfl⟩
  exact (congrArg s.wakeupTime (List.mem_singleton.mp ht')).ge

theorem loop_timeout_of_short_sleep : ∃ s : Frame, s.lastLoopTs = 0 ∧ s.WaitsUntil 1500 := by
  obtain ⟨s, -, hp, hw, hnow⟩ := first_sleep 1500
  obtain ⟨hheap, hleast⟩ := isLeast_of_single hp
  rw [hw] at hleast
  exact ⟨s, hnow, (loop_timeout_right_iff s 1500 hheap hleast (by omega)).mpr (by omega)⟩

/-- A sleep of 2^31 ms makes the loop wait for more than 580 million years. -/
theorem long_sleep_timeout_wrong :
    (∃ s, exec (Frame.step (sortedHeap Tid)) Frame.start [.sleep 0 (2 ^ 31), .update 0] = some s ∧
      s.getEventLoopTimeout = ⟨18446744071562067, 968000⟩) ∧
    ¬ ∀ (s : Frame) (w : Nat), IsMinHeap s.wakeupTime s.threadPending →
      IsLeast {d | ∃ t ∈ s.threadPending, s.wakeupTime t = d} w → w < s.lastLoopTs + 2 ^ 32 →
      s.WaitsUntil w := by
  obtain ⟨s, hs, hp, hw, hnow⟩ := first_sleep (2 ^ 31)
  obtain ⟨hheap, hleast⟩ := isLeast_of_single hp
  have htimeout : s.getEventLoopTimeout = ⟨18446744071562067, 968000⟩ := by
    simp only [Frame.getEventLoopTimeout, hp, hw, hnow]
    decide
  refine ⟨⟨s, hs, htimeout⟩, fun hall => ?_⟩
  obtain ⟨-, hmicros⟩ := hall s (s.wakeupTime 1) hheap hleast (by omega)
  rw [htimeout, hw, hnow] at hmicros
  exact absurd hmicros (by decide)

end Tinyco
