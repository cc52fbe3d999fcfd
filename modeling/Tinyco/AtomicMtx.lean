import Tinyco.AcceptLock

/-! `AtomicMtx` over the two builds of `AtomicCompareAndSet`. `ptr` is the word `ptr_`
points to, none where `ptr_` is null. -/

namespace Tinyco

/-- The build for other machines: it stores without comparing and returns what it stored. -/
def atomicCompareAndSetPortable (_word _old n : Nat) : Nat × Bool := (n, n ≠ 0)

/-- A build of `AtomicCompareAndSet`: the word, `old` and `n` to the word afterwards and the
result as a truth value. -/
abbrev CompareAndSet := Nat → Nat → Nat → Nat × Bool

inductive MtxCall where
  | tryLock (pid : { p : Nat // 0 < p })
  | unlock (pid : { p : Nat // 0 < p })
  deriving DecidableEq, Repr

def MtxCall.isTryLock : MtxCall → Bool
  | .tryLock _ => true
  | .unlock _ => false

namespace AtomicMtx

def tryLock (cas : CompareAndSet) (ptr : Option Nat) (pid : Nat) : Option Nat × Int :=
  match ptr with
  | none => (none, -1)
  | some word =>
    if word = 0 then ((cas word 0 pid).1, if (cas word 0 pid).2 then 0 else -1)
    else (some word, -1)

def unlock (cas : CompareAndSet) (ptr : Option Nat) (pid : Nat) : Option Nat × Int :=
  match ptr with
  | none => (none, -1)
  | some word => ((cas word pid 0).1, if (cas word pid 0).2 then 0 else -1)

def call (cas : CompareAndSet) (ptr : Option Nat) : MtxCall → Option Nat × Int
  | .tryLock pid => tryLock cas ptr pid
  | .unlock pid => unlock cas ptr pid

end AtomicMtx

/-- One call with the words before and after it. -/
structure MtxStep where
  call : MtxCall
  before : Option Nat
  after : Option Nat
  ret : Int
  deriving DecidableEq, Repr

namespace AtomicMtx

def history (cas : CompareAndSet) : Option Nat → List MtxCall → List MtxStep
  | _, [] => []
  | ptr, c :: calls =>
    ⟨c, ptr, (call cas ptr c).1, (call cas ptr c).2⟩ :: history cas (call cas ptr c).1 calls

/-- The same results and words in both builds, and no effect of an `Unlock` by a process
that does not hold the lock. -/
def Interchangeable (calls : List MtxCall) : Prop :=
  history atomicCompareAndSetPortable (some 0) calls = history atomicCompareAndSet (some 0) calls ∧
    ∀ st ∈ history atomicCompareAndSetPortable (some 0) calls, ∀ pid, st.call = .unlock pid →
      st.before ≠ some pid.val → st.ret = -1 ∧ st.after = st.before

theorem call_tryLock_same (w : Nat) (pid : { p : Nat // 0 < p }) :
    call atomicCompareAndSetPortable (some w) (.tryLock pid) =
      call atomicCompareAndSet (some w) (.tryLock pid) := by
  have hpos : pid.val ≠ 0 := Nat.pos_iff_ne_zero.mp pid.2
  by_cases hw : w = 0
  · simp [call, tryLock, atomicCompareAndSetPortable, atomicCompareAndSet, hw, hpos]
  · simp [call, tryLock, hw]

theorem tryLock_held {w : Nat} (hw : w ≠ 0) (cas : CompareAndSet) (pid : Nat) :
    tryLock cas (some w) pid = (some w, -1) := by
  simp [tryLock, hw]

theorem tryLock_free (pid : { p : Nat // 0 < p }) :
    tryLock atomicCompareAndSet (some 0) pid = (some pid.val, 0) := by
  simp [tryLock, atomicCompareAndSet]

theorem unlock_portable (w pid : Nat) :
    unlock atomicCompareAndSetPortable (some w) pid = (some 0, -1) := by
  simp [unlock, atomicCompareAndSetPortable]

theorem unlock_of_holder (pid : Nat) :
    unlock atomicCompareAndSet (some pid) pid = (some 0, 0) := by
  simp [unlock, atomicCompareAndSet]

theorem unlock_of_other {w pid : Nat} (hw : w ≠ pid) :
    unlock atomicCompareAndSet (some w) pid = (some w, -1) := by
  simp [unlock, atomicCompareAndSet, hw]

theorem call_unlock_same_iff (w : Nat) (pid : { p : Nat // 0 < p }) :
    call atomicCompareAndSetPortable (some w) (.unlock pid) =
      call atomicCompareAndSet (some w) (.unlock pid) ↔ w = 0 := by
  have hpos : pid.val ≠ 0 := Nat.pos_iff_ne_zero.mp pid.2
  rw [call, call, unlock_portable]
  by_cases hw : w = pid
  · rw [hw, unlock_of_holder]
    simp [hpos]
  · rw [unlock_of_other hw]
    simp [eq_comm]

theorem history_same_cons {w : Nat} {c : MtxCall} {calls : List MtxCall}
    (h : call atomicCompareAndSetPortable (some w) c = call atomicCompareAndSet (some w) c) :
    history atomicCompareAndSetPortable (some w) (c :: calls) =
        history atomicCompareAndSet (some w) (c :: calls) ↔
      history atomicCompareAndSetPortable (call atomicCompareAndSet (some w) c).1 calls =
        history atomicCompareAndSet (call atomicCompareAndSet (some w) c).1 calls := by
  simp only [history, h, List.cons.injEq, true_and]

theorem call_eq_of_history {w : Nat} {c : MtxCall} {calls : List MtxCall}
    (h : history atomicCompareAndSetPortable (some w) (c :: calls) =
      history atomicCompareAndSet (some w) (c :: calls)) :
    call atomicCompareAndSetPortable (some w) c = call atomicCompareAndSet (some w) c := by
  simp only [history, List.cons.injEq, MtxStep.mk.injEq, true_and] at h
  exact Prod.ext h.1.1 h.1.2

/-- While the lock is held the builds differ at the first `Unlock`, whoever makes it. -/
theorem history_held_iff {w : Nat} (hw : w ≠ 0) (calls : List MtxCall) :
    history atomicCompareAndSetPortable (some w) calls = history atomicCompareAndSet (some w) calls ↔
      ∀ c ∈ calls, c.isTryLock := by
  induction calls with
  | nil => simp [history]
  | cons c calls ih =>
    cases c with
    | tryLock pid =>
      have hstay : (call atomicCompareAndSet (some w) (.tryLock pid)).1 = some w := by
        rw [call, tryLock_held hw]
      rw [history_same_cons (call_tryLock_same w pid), hstay, ih]
      simp [MtxCall.isTryLock]
    | unlock pid =>
      refine iff_of_false (fun h => ?_) (by simp [MtxCall.isTryLock])
      exact hw ((call_unlock_same_iff w pid).mp (call_eq_of_history h))

theorem history_free_iff (calls : List MtxCall) :
    history atomicCompareAndSetPortable (some 0) calls = history atomicCompareAndSet (some 0) calls ↔
      calls.Pairwise fun a b => a.isTryLock → b.isTryLock := by
  induction calls with
  | nil => simp [history]
  | cons c calls ih =>
    rw [List.pairwise_cons]
    cases c with
    | tryLock pid =>
      have hpos : pid.val ≠ 0 := Nat.pos_iff_ne_zero.mp pid.2
      have htaken : (call atomicCompareAndSet (some 0) (.tryLock pid)).1 = some pid.val := by
        rw [call, tryLock_free]
      rw [history_same_cons (call_tryLock_same 0 pid), htaken, history_held_iff hpos]
      simp only [MtxCall.isTryLock, true_imp_iff]
      refine ⟨fun h => ⟨h, ?_⟩, And.left⟩
      exact List.pairwise_of_forall_mem_list fun a _ b hb _ => h b hb
    | unlock pid =>
      have hfree : (call atomicCompareAndSet (some 0) (.unlock pid)).1 = some 0 := by
        rw [call, unlock_of_other (Nat.pos_iff_ne_zero.mp pid.2).symm]
      rw [history_same_cons ((call_unlock_same_iff 0 pid).mpr rfl), hfree, ih]
      simp [MtxCall.isTryLock]

theorem unlock_guarded (ptr : Option Nat) (calls : List MtxCall) :
    ∀ st ∈ history atomicCompareAndSet ptr calls, ∀ pid, st.call = .unlock pid →
      st.before ≠ some pid.val → st.ret = -1 ∧ st.after = st.before := by
  induction calls generalizing ptr with
  | nil => simp [history]
  | cons c calls ih =>
    intro st hst pid hcall hother
    rcases List.mem_cons.mp hst with rfl | hst
    · subst hcall
      cases ptr with
      | none => exact ⟨rfl, rfl⟩
      | some w =>
        have hw : w ≠ pid.val := by simpa using hother
        simp [call, unlock_of_other hw]
    · exact ih _ st hst pid hcall hother

/-- The two builds can stand for each other on the histories in which no `Unlock` comes after
a `TryLock`. -/
theorem interchangeable_iff (calls : List MtxCall) :
    Interchangeable calls ↔ calls.Pairwise fun a b => a.isTryLock → b.isTryLock := by
  rw [← history_free_iff]
  refine ⟨And.left, fun h => ⟨h, ?_⟩⟩
  rw [h]
  exact unlock_guarded (some 0) calls

/-- A lock and its unlock by the same process, and an unlock by another process that frees the
lock. -/
theorem not_interchangeable_lock_unlock :
    ¬ Interchangeable [.tryLock ⟨1, by decide⟩, .unlock ⟨1, by decide⟩] ∧
      ¬ Interchangeable [.tryLock ⟨1, by decide⟩, .unlock ⟨2, by decide⟩] ∧
      unlock atomicCompareAndSetPortable (some 1) 2 = (some 0, -1) ∧
      unlock atomicCompareAndSet (some 1) 2 = (some 1, -1) := by
  refine ⟨fun h => ?_, fun h => ?_, by decide, by decide⟩
  · exact absurd h.1 (by decide)
  · exact absurd h.1 (by decide)

end AtomicMtx

end Tinyco
