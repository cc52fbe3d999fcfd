import Tinyco.PendingHeap

/-! The accesses of `WakeupPendingThread` and `PopPendingTop` to `thread_pending_`. The loop is
`Frame.wakeupLoop` with a record of each of them. -/

namespace Tinyco

inductive AccessKind where
  | front | pop
  deriving DecidableEq, Repr

/-- A read of `*thread_pending_.begin()` or a pop, with the number of threads in the vector. -/
structure PendingAccess where
  kind : AccessKind
  size : Nat
  deriving DecidableEq, Repr

namespace Frame

def wakeupLoopLogged (H : HeapAlgo Tid) : Nat → Option Tid → Frame → List PendingAccess × Frame
  | 0, _, s => ([], s)
  | _ + 1, none, s => ([], s)
  | sz + 1, some n, s =>
    if s.wakeupTime n ≤ s.lastLoopTs then
      match s.popPendingTop H with
      | (none, s') => ([⟨.pop, s.threadPending.length⟩], s')
      | (some n, s') =>
        let s' := s'.makeRunnable n
        let rest := wakeupLoopLogged H sz s'.threadPending.head? s'
        (⟨.pop, s.threadPending.length⟩ :: ⟨.front, s'.threadPending.length⟩ :: rest.1, rest.2)
    else ([], s)

def wakeupPendingThreadLogged (H : HeapAlgo Tid) (s : Frame) : List PendingAccess × Frame :=
  match s.threadPending with
  | [] => ([], s)
  | n :: _ =>
    let run := wakeupLoopLogged H s.threadPending.length (some n) s
    (⟨.front, s.threadPending.length⟩ :: run.1, run.2)

theorem wakeupLoopLogged_snd (H : HeapAlgo Tid) (sz : Nat) (n : Option Tid) (s : Frame) :
    (wakeupLoopLogged H sz n s).2 = wakeupLoop H sz n s := by
  induction sz generalizing n s with
  | zero => rfl
  | succ sz ih =>
    cases n with
    | none => rfl
    | some n =>
      by_cases hle : s.wakeupTime n ≤ s.lastLoopTs
      · obtain ⟨top, s', hpop⟩ : ∃ top s', s.popPendingTop H = (top, s') := ⟨_, _, rfl⟩
        cases top with
        | none => simp [wakeupLoopLogged, wakeupLoop, hle, hpop]
        | some t => simp [wakeupLoopLogged, wakeupLoop, hle, hpop, ih]
      · simp [wakeupLoopLogged, wakeupLoop, hle]

/-- The record does not change what the function does. -/
theorem wakeupPendingThreadLogged_snd (H : HeapAlgo Tid) (s : Frame) :
    (s.wakeupPendingThreadLogged H).2 = s.wakeupPendingThread H := by
  cases hp : s.threadPending with
  | nil => simp [wakeupPendingThreadLogged, wakeupPendingThread, wakeupLoop, hp]
  | cons n l =>
    simp only [wakeupPendingThreadLogged, wakeupPendingThread, hp, List.head?_cons]
    exact wakeupLoopLogged_snd H _ _ s

theorem wakeupLoopLogged_of_due (H : HeapAlgo Tid) (sz : Nat) {s : Frame} {x : Tid} {r : List Tid}
    (hpop : s.popPendingTop H = (some x, { s with threadPending := r }))
    (hle : s.wakeupTime x ≤ s.lastLoopTs) :
    (wakeupLoopLogged H (sz + 1) (some x) s).1 =
      ⟨.pop, s.threadPending.length⟩ :: ⟨.front, r.length⟩ ::
        (wakeupLoopLogged H sz r.head? (({ s with threadPending := r }).makeRunnable x)).1 := by
  simp [wakeupLoopLogged, hle, hpop, makeRunnable, setThread]

theorem wakeupLoopLogged_of_late (H : HeapAlgo Tid) (sz : Nat) {s : Frame} {x : Tid}
    (hlate : s.lastLoopTs < s.wakeupTime x) : (wakeupLoopLogged H sz (some x) s).1 = [] := by
  cases sz with
  | zero => rfl
  | succ sz => simp [wakeupLoopLogged, Nat.not_le.mpr hlate]

/-- The loop ends before it has emptied the vector exactly if a thread in it is not due; the
count is the size of the vector throughout. -/
theorem wakeupLoopLogged_nonempty_iff (H : HeapAlgo Tid) (sz : Nat) {s : Frame}
    (hheap : IsMinHeap s.wakeupTime s.threadPending) (hnodup : s.threadPending.Nodup)
    (hsz : s.threadPending.length = sz) :
    (∀ a ∈ (wakeupLoopLogged H sz s.threadPending.head? s).1, 0 < a.size) ↔
      s.threadPending = [] ∨ ∃ t ∈ s.threadPending, s.lastLoopTs < s.wakeupTime t := by
  induction sz generalizing s with
  | zero =>
    have hnil := List.length_eq_zero_iff.mp hsz
    simp [wakeupLoopLogged, hnil]
  | succ sz ih =>
    cases hp : s.threadPending with
    | nil => simp [hp] at hsz
    | cons x l =>
      rw [hp] at hheap hnodup
      rw [List.head?_cons]
      by_cases hle : s.wakeupTime x ≤ s.lastLoopTs
      · obtain ⟨r, hpop, hperm, hx, hheap'⟩ := popPendingTop_eq H hp hheap hnodup
        have hlen : r.length = sz := by
          have hl : l.length = sz := by simpa [hp] using hsz
          exact hperm.length_eq.trans hl
        have hrest := ih (s := ({ s with threadPending := r }).makeRunnable x) hheap'
          (hperm.nodup_iff.mpr (List.nodup_cons.mp hnodup).2) hlen
        have hsame : (∃ t ∈ r, s.lastLoopTs <
              (({ s with threadPending := r }).makeRunnable x).wakeupTime t) ↔
            ∃ t ∈ x :: l, s.lastLoopTs < s.wakeupTime t := by
          constructor
          · rintro ⟨t, ht, hlate⟩
            rw [wakeupTime_makeRunnable (ne_of_mem_of_not_mem ht hx)] at hlate
            exact ⟨t, List.mem_cons_of_mem x (hperm.mem_iff.mp ht), hlate⟩
          · rintro ⟨t, ht, hlate⟩
            have hne : t ≠ x := by
              rintro rfl
              omega
            have hr : t ∈ r := hperm.mem_iff.mpr (List.mem_of_ne_of_mem hne ht)
            exact ⟨t, hr, by rwa [wakeupTime_makeRunnable hne]⟩
        have hpos : (∃ t ∈ x :: l, s.lastLoopTs < s.wakeupTime t) → 0 < r.length := by
          intro hlate
          obtain ⟨t, ht, -⟩ := hsame.mpr hlate
          exact List.length_pos_of_mem ht
        rw [wakeupLoopLogged_of_due H sz hpop hle]
        simp only [List.forall_mem_cons, hp, List.length_cons, Nat.zero_lt_succ, true_and, reduceCtorEq,
          false_or]
        constructor
        · rintro ⟨hr, hall⟩
          rcases hrest.mp hall with hnil | hlate
          · exact absurd hnil (List.ne_nil_of_length_pos hr)
          · exact hsame.mp hlate
        · intro hlate
          exact ⟨hpos hlate, hrest.mpr (.inr (hsame.mpr hlate))⟩
      · have hlate : s.lastLoopTs < s.wakeupTime x := Nat.not_le.mp hle
        rw [wakeupLoopLogged_of_late H _ hlate]
        simp [hlate]

end Frame

/-- The vector is never read or popped while it is empty exactly if not every pending thread is
due, or none is pending. -/
theorem wakeup_accesses_nonempty_iff (H : HeapAlgo Tid) (s : Frame)
    (hheap : IsMinHeap s.wakeupTime s.threadPending) (hnodup : s.threadPending.Nodup) :
    (∀ a ∈ (s.wakeupPendingThreadLogged H).1, 0 < a.size) ↔
      s.threadPending = [] ∨ ∃ t ∈ s.threadPending, s.lastLoopTs < s.wakeupTime t := by
  have hloop := Frame.wakeupLoopLogged_nonempty_iff H s.threadPending.length hheap hnodup rfl
  cases hp : s.threadPending with
  | nil => simp [Frame.wakeupPendingThreadLogged, hp]
  | cons n l =>
    rw [hp, List.head?_cons] at hloop
    rw [← hloop]
    simp [Frame.wakeupPendingThreadLogged, hp]

theorem wakeup_accesses_of_one_late : ∃ s : Frame, s.threadPending = [1] ∧
    ∀ a ∈ (s.wakeupPendingThreadLogged (sortedHeap Tid)).1, 0 < a.size := by
  obtain ⟨s, -, hp, hw, hnow⟩ := first_sleep 5
  obtain ⟨hheap, -⟩ := isLeast_of_single hp
  refine ⟨s, hp, (wakeup_accesses_nonempty_iff (sortedHeap Tid) s hheap (by simp [hp])).mpr ?_⟩
  exact .inr ⟨1, by simp [hp], by omega⟩

/-- After the only sleeper has been taken out, the front of the empty vector is read. -/
theorem front_read_of_empty_pending :
    (∃ s, exec (Frame.step (sortedHeap Tid)) Frame.start [.sleep 0 0, .update 0] = some s ∧
      (s.wakeupPendingThreadLogged (sortedHeap Tid)).1 = [⟨.front, 1⟩, ⟨.pop, 1⟩, ⟨.front, 0⟩]) ∧
    ¬ ∀ (H : HeapAlgo Tid) (s : Frame), IsMinHeap s.wakeupTime s.threadPending →
      s.threadPending.Nodup → ∀ a ∈ (s.wakeupPendingThreadLogged H).1, 0 < a.size := by
  obtain ⟨s, hs, hp, hw, hnow⟩ := first_sleep 0
  obtain ⟨hheap, -⟩ := isLeast_of_single hp
  have hpop : s.popPendingTop (sortedHeap Tid) = (some 1, { s with threadPending := [] }) := by
    simp [Frame.popPendingTop, hp, sortedHeap]
  have hlog : (s.wakeupPendingThreadLogged (sortedHeap Tid)).1 =
      [⟨.front, 1⟩, ⟨.pop, 1⟩, ⟨.front, 0⟩] := by
    have hloop := Frame.wakeupLoopLogged_of_due (sortedHeap Tid) 0 hpop (by omega)
    simp only [Frame.wakeupPendingThreadLogged, hp, List.length_singleton]
    rw [hloop, hp]
    rfl
  refine ⟨⟨s, hs, hlog⟩, fun hall => ?_⟩
  have hread := hall (sortedHeap Tid) s hheap (by simp [hp]) ⟨.front, 0⟩ (by simp [hlog])
  exact absurd hread (by decide)

end Tinyco
