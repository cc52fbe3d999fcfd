import Mathlib.Data.Finset.Card
import Tinyco.AcceptLock

/-! How the master notices dead workers: what one call of `GetWorkerStatus` reaps and queues. -/

namespace Tinyco

namespace Cluster

variable {n : Nat} {s s' : Cluster n} {rs : List WaitResult}

/-- `waitpid` finds nothing or fails only if no child has exited, and returns only such. The
function returns at the first answer that is not an interruption. -/
def WaitAnswers (s : Cluster n) : List WaitResult → Prop
  | [] => False
  | .none :: _ => s.zombies = ∅
  | .error :: _ => s.zombies = ∅
  | .eintr :: rs => s.WaitAnswers rs
  | .exited pid :: _ => pid ∈ s.zombies

/-- All children that have exited are reaped, and those of them that are workers are queued. -/
structure ReapsAll (s s' : Cluster n) : Prop where
  reaped : s'.zombies = ∅
  queued : ∃ l, s'.restartWorkerPid = s.restartWorkerPid ++ l ∧ l.Nodup ∧
    ∀ p, p ∈ l ↔ p ∈ s.zombies ∧ p ∉ s'.zombies ∧ p ∈ s.workerProcesses

def reap (s : Cluster n) (p : Nat) : Cluster n :=
  { s with
    zombies := s.zombies.erase p
    restartWorkerPid := s.restartWorkerPid ++ [if p ∈ s.workerProcesses then p else 0] }

theorem getWorkerStatus_cases (h : s.WaitAnswers rs) :
    (s.zombies = ∅ ∧ s.getWorkerStatus rs = some s) ∨
      ∃ p ∈ s.zombies, s.getWorkerStatus rs = some (s.reap p) := by
  induction rs with
  | nil => exact h.elim
  | cons r rs ih =>
    cases r with
    | none => exact .inl ⟨h, rfl⟩
    | error => exact .inl ⟨h, rfl⟩
    | eintr => exact ih h
    | exited p => exact .inr ⟨p, h, if_pos h⟩

theorem reapsAll_self (hz : s.zombies = ∅) : s.ReapsAll s :=
  ⟨hz, [], by simp, List.nodup_nil, by simp [hz]⟩

theorem reapsAll_one_iff {p : Nat} (hp : p ∈ s.zombies) :
    s.ReapsAll (s.reap p) ↔ s.zombies = {p} ∧ p ∈ s.workerProcesses := by
  constructor
  · rintro ⟨hreaped, l, hl, -, hmem⟩
    obtain rfl := List.append_cancel_left hl
    have hz : s.zombies = {p} := by
      rw [← Finset.insert_erase hp, show s.zombies.erase p = ∅ from hreaped]
      rfl
    refine ⟨hz, ?_⟩
    by_contra ht
    simp only [ht, if_false] at hmem
    obtain ⟨h0, -, ht0⟩ := (hmem 0).mp (by simp)
    rw [hz, Finset.mem_singleton] at h0
    exact ht (h0 ▸ ht0)
  · rintro ⟨hz, ht⟩
    refine ⟨by simp [reap, hz], [p], by simp [reap, ht], by simp, fun q => ?_⟩
    simp only [reap, hz, List.mem_singleton, Finset.mem_singleton, Finset.erase_singleton,
      Finset.notMem_empty, not_false_eq_true, true_and]
    exact ⟨fun hq => ⟨hq, hq ▸ ht⟩, fun hq => hq.1⟩

end Cluster

/-- A call of `GetWorkerStatus` reaps all children that have exited and queues the workers among
them exactly if there is at most one, and this one is a worker. -/
theorem reaps_all_iff_one_worker {n : Nat} {s s' : Cluster n} {rs : List WaitResult}
    (hans : s.WaitAnswers rs) (hs : s.getWorkerStatus rs = some s') :
    s.ReapsAll s' ↔ s.zombies.card ≤ 1 ∧ ∀ p ∈ s.zombies, p ∈ s.workerProcesses := by
  rcases Cluster.getWorkerStatus_cases hans with ⟨hz, he⟩ | ⟨p, hp, he⟩
  · obtain rfl := Option.some.inj (he.symm.trans hs)
    exact iff_of_true (Cluster.reapsAll_self hz) (by simp [hz])
  · obtain rfl := Option.some.inj (he.symm.trans hs)
    rw [Cluster.reapsAll_one_iff hp]
    constructor
    · rintro ⟨hz, ht⟩
      simp [hz, ht]
    · rintro ⟨hcard, ht⟩
      exact ⟨Finset.eq_singleton_iff_unique_mem.mpr
        ⟨hp, fun q hq => Finset.card_le_one.mp hcard q hq p hp⟩, ht p hp⟩

theorem one_worker_reaped :
    (⟨fun i => i.elim0, {8}, {7}, fun _ _ => {}, [7, 8], [], .sleep⟩ : Cluster 0).ReapsAll
      ⟨fun i => i.elim0, {8}, ∅, fun _ _ => {}, [7, 8], [7], .sleep⟩ := by
  have hans : (⟨fun i => i.elim0, {8}, {7}, fun _ _ => {}, [7, 8], [], .sleep⟩ : Cluster 0).WaitAnswers
      [.eintr, .exited 7] := Finset.mem_singleton_self 7
  exact (reaps_all_iff_one_worker hans rfl).mpr ⟨by decide, by decide⟩

/-- Two workers exit behind one signal, and one of them is left. A child that is no worker
queues pid 0, for which the pass finds no slot. -/
theorem second_exit_left_and_unknown_child_faults :
    (∃ s : Cluster 0, exec (Cluster.step fun i => i.elim0) (Cluster.start 0 [7, 8])
        [.die 7, .die 8, .getWorkerStatus [.exited 7]] = some s ∧
      s.zombies = {8} ∧ s.restartWorkerPid = [7]) ∧
    (∃ s : Cluster 0, exec (Cluster.step fun i => i.elim0)
        ({ live := {7}, zombies := {9}, workerProcesses := [7] } : Cluster 0)
        [.getWorkerStatus [.exited 9], .beginPass, .pick, .fork (some 10)] = some s ∧
      s.restartWorkerPid = [0] ∧ s.master = .fault) ∧
    ¬ ∀ (s s' : Cluster 0) rs, s.WaitAnswers rs → s.getWorkerStatus rs = some s' →
      s.ReapsAll s' := by
  refine ⟨⟨_, rfl, by decide, rfl⟩, ⟨_, rfl, rfl, rfl⟩, fun hall => ?_⟩
  have hreaps := hall { live := {}, zombies := {7, 8}, workerProcesses := [7, 8] } _ [.exited 7]
    (Finset.mem_insert_self 7 {8}) rfl
  exact absurd hreaps.reaped (by decide)

end Tinyco
