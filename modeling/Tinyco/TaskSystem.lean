import Mathlib.Tactic.Abel
import Tinyco.Simulation

/-! Cooperative tasks on one processor. A task runs until it waits, sleeps or ends; the ready
tasks are then taken in turn, and a loop that collects events and timers runs when there is none.
Works and the keys that tasks wait for are of any type. -/

namespace Tinyco

/-- The number of a task is its place in the order of creation. The program itself is a task
without work. -/
@[ext] structure Task (W : Type*) where
  number : ℕ
  work : Option W
  deriving DecidableEq

/-- The parts of a turn of the loop. -/
inductive TurnPart where
  | clock | events | timers | dispatch
  deriving DecidableEq

inductive Control (W : Type*) where
  | task (j : Task W)
  | loop (p : TurnPart)

def Control.tasks {W : Type*} : Control W → List (Task W)
  | .task j => [j]
  | .loop _ => []

structure TaskSystem (W K : Type*) where
  control : Control W
  ready : List (Task W)
  waiting : Multiset (K × Task W)
  sleeping : Multiset (ℕ × Task W)
  made : ℕ
  now : ℕ

inductive TaskLabel (W K : Type*) where
  | spawn (w : W)
  | wait (k : K)
  | sleep (ts : ℕ)
  | finish
  | tick (now : ℕ)
  | event (k : K)
  | endEvents
  | wake
  | dispatch

namespace TaskSystem

variable {W K : Type*} {a b : TaskSystem W K} {l : TaskLabel W K}

/-- The system in which the program, the task with the number `n`, is running. -/
def start (n : ℕ) : TaskSystem W K where
  control := .task ⟨n, none⟩
  ready := []
  waiting := 0
  sleeping := 0
  made := n + 1
  now := 0

/-- The first ready task takes over, the loop if there is none. -/
def next (a : TaskSystem W K) : TaskSystem W K :=
  match a.ready with
  | [] => { a with control := .loop .clock }
  | j :: rest => { a with control := .task j, ready := rest }

/-- The tasks that have not ended. -/
def live (a : TaskSystem W K) : Multiset (Task W) :=
  a.control.tasks + a.ready + a.waiting.map Prod.snd + a.sleeping.map Prod.snd

/-- No two tasks wait for the same key; of tasks that are due at the same time any may come
first. -/
inductive Step : TaskSystem W K → TaskLabel W K → TaskSystem W K → Prop where
  | spawn {a : TaskSystem W K} {j : Task W} (w : W) (hc : a.control = .task j) :
    Step a (.spawn w) { a with ready := a.ready ++ [⟨a.made, some w⟩], made := a.made + 1 }
  | wait {a : TaskSystem W K} {j : Task W} (k : K) (hc : a.control = .task j)
      (hk : k ∉ a.waiting.map Prod.fst) :
    Step a (.wait k) { a with waiting := (k, j) ::ₘ a.waiting }.next
  | sleep {a : TaskSystem W K} {j : Task W} (ts : ℕ) (hc : a.control = .task j) :
    Step a (.sleep ts) { a with sleeping := (ts, j) ::ₘ a.sleeping }.next
  | finish {a : TaskSystem W K} {j : Task W} (hc : a.control = .task j) (hw : j.work.isSome) :
    Step a .finish a.next
  | tick {a : TaskSystem W K} (now : ℕ) (hc : a.control = .loop .clock) :
    Step a (.tick now) { a with now := now, control := .loop .events }
  | event {a : TaskSystem W K} {j : Task W} {k : K} {rest : Multiset (K × Task W)}
      (hc : a.control = .loop .events) (hw : a.waiting = (k, j) ::ₘ rest) :
    Step a (.event k) { a with waiting := rest, ready := a.ready ++ [j] }
  | endEvents {a : TaskSystem W K} (hc : a.control = .loop .events) :
    Step a .endEvents { a with control := .loop .timers }
  | wake {a : TaskSystem W K} {due : List (ℕ × Task W)} {later : Multiset (ℕ × Task W)}
      (hc : a.control = .loop .timers) (hs : a.sleeping = due + later)
      (hsorted : due.Pairwise fun x y => x.1 ≤ y.1) (hdue : ∀ x ∈ due, x.1 ≤ a.now)
      (hlater : ∀ x ∈ later, a.now < x.1) :
    Step a .wake { a with
      sleeping := later, ready := a.ready ++ due.map Prod.snd, control := .loop .dispatch }
  | dispatch {a : TaskSystem W K} (hc : a.control = .loop .dispatch) : Step a .dispatch a.next

/-- The task that a step creates. -/
def spawned (a : TaskSystem W K) : TaskLabel W K → List (Task W)
  | .spawn w => [⟨a.made, some w⟩]
  | _ => []

/-- The task that a step ends. -/
def ended (a : TaskSystem W K) : TaskLabel W K → List (Task W)
  | .finish => a.control.tasks
  | _ => []

theorem live_next (a : TaskSystem W K) :
    a.next.live = a.ready + a.waiting.map Prod.snd + a.sleeping.map Prod.snd := by
  cases h : a.ready with
  | nil => simp [next, h, live, Control.tasks]
  | cons j rest => simp [next, h, live, Control.tasks]

/-- No step loses a task or has one twice. -/
theorem Step.live_add (h : Step a l b) : a.live + a.spawned l = b.live + a.ended l := by
  cases h with
  | spawn w hc =>
    simp only [live, spawned, ended, ← Multiset.coe_add, hc, Control.tasks]
    abel
  | wait k hc hk =>
    rw [live_next]
    simp only [live, hc, Control.tasks, spawned, ended, Multiset.map_add,
      Multiset.map_singleton, ← Multiset.singleton_add, Multiset.coe_singleton, Multiset.coe_nil]
    abel
  | sleep ts hc =>
    rw [live_next]
    simp only [live, hc, Control.tasks, spawned, ended, Multiset.map_add,
      Multiset.map_singleton, ← Multiset.singleton_add, Multiset.coe_singleton, Multiset.coe_nil]
    abel
  | finish hc hw =>
    rw [live_next]
    simp only [live, hc, Control.tasks, spawned, ended, Multiset.coe_nil]
    abel
  | tick now hc => simp [live, hc, Control.tasks, spawned, ended]
  | event hc hw =>
    simp only [live, hc, hw, Control.tasks, spawned, ended, ← Multiset.coe_add, Multiset.map_add,
      Multiset.map_singleton, ← Multiset.singleton_add, Multiset.coe_singleton, Multiset.coe_nil]
    abel
  | endEvents hc => simp [live, hc, Control.tasks, spawned, ended]
  | wake hc hs hsorted hdue hlater =>
    simp only [live, hc, hs, Control.tasks, spawned, ended, ← Multiset.coe_add, Multiset.map_add,
      Multiset.map_coe, Multiset.coe_nil]
    abel
  | dispatch hc =>
    rw [live_next]
    simp [live, hc, Control.tasks, spawned, ended]

end TaskSystem

end Tinyco
