import Tinyco.AcceptLockSafety

/-! A pass of `MasterRun` over the queue as a function of what its forks return, and that it is
what the master does between the steps of the workers. -/

namespace Tinyco

/-- The loop of `MasterRun` over `restart_worker_pid_` in the master, with what `fork` returns
for each queued pid; none if `w` is null where it is written to. -/
def restartEach (table : List Nat) : List (Nat × Option Nat) → Option (List Nat)
  | [] => some table
  | (_, none) :: items => restartEach table items
  | (pid, some newWorkerPid) :: items =>
    (replaceLast pid newWorkerPid table).bind fun table => restartEach table items

def masterPass (table : List Nat) (items : List (Nat × Option Nat)) :
    Option (List Nat × List Nat) :=
  (restartEach table items).map fun table => (table, [])

def forkResults {n : Nat} (as : List (ClusterLabel n)) : List (Option Nat) :=
  as.filterMap fun a => match a with
    | .fork q => some q
    | _ => none

namespace Cluster

variable {n : Nat} {c : Fin n → SrvWork} {s t : Cluster n}

theorem goOn_master {p : Nat} {l : Fin n} {r : SrvReply} (h : s.goOn c p l r = some t) :
    t.master = s.master ∧ t.workerProcesses = s.workerProcesses := by
  obtain ⟨v, -, rfl⟩ := Option.map_eq_some_iff.mp h
  exact ⟨rfl, rfl⟩

theorem pass_step {a : ClusterLabel n} (hm : s.master ≠ .sleep) (ha : a ≠ .endPass)
    (h : s.step c a = some t) :
    (forkResults [a] = [] ∧ t.master ≠ .sleep ∧ (t.master = .fault ↔ s.master = .fault) ∧
      t.master.unprocessed [] = s.master.unprocessed [] ∧ t.workerProcesses = s.workerProcesses) ∨
    ∃ pid rest q, a = .fork q ∧ s.master = .compare pid [] rest ∧
      (t.master = .fault ∨ t.master = .pick rest ∧ ∀ items,
        restartEach s.workerProcesses ((pid, q) :: items) = restartEach t.workerProcesses items) := by
  have hkept (ht : t.master = s.master ∧ t.workerProcesses = s.workerProcesses) :
      t.master ≠ .sleep ∧ (t.master = .fault ↔ s.master = .fault) ∧
        t.master.unprocessed [] = s.master.unprocessed [] ∧ t.workerProcesses = s.workerProcesses := by
    rw [ht.1, ht.2]
    exact ⟨hm, Iff.rfl, rfl, rfl⟩
  cases a with
  | tryLockRead p l =>
    simp only [step, Option.ite_none_right_eq_some, tryLockRead] at h
    obtain ⟨-, -, h⟩ := h
    split_ifs at h
    · obtain rfl := Option.some.inj h
      exact .inl ⟨rfl, hkept ⟨rfl, rfl⟩⟩
    · exact .inl ⟨rfl, hkept (goOn_master h)⟩
  | tryLockCas p l =>
    simp only [step, Option.ite_none_right_eq_some, tryLockCas] at h
    obtain ⟨-, -, h⟩ := h
    have ht := goOn_master h
    exact .inl ⟨rfl, hkept ht⟩
  | unlock p l =>
    simp only [step, Option.ite_none_right_eq_some, unlock] at h
    have ht := goOn_master h.2
    exact .inl ⟨rfl, hkept ht⟩
  | reply p l r =>
    simp only [step, Option.ite_none_right_eq_some] at h
    exact .inl ⟨rfl, hkept (goOn_master h.2)⟩
  | die p =>
    simp only [step, Option.ite_none_right_eq_some, Option.some.injEq] at h
    obtain ⟨-, rfl⟩ := h
    exact .inl ⟨rfl, hkept ⟨rfl, rfl⟩⟩
  | getWorkerStatus rs =>
    simp only [step, Option.ite_none_right_eq_some] at h
    exact absurd h.1 hm
  | beginPass =>
    simp only [step, Option.ite_none_right_eq_some] at h
    exact absurd h.1 hm
  | pick =>
    simp only [step] at h
    split at h
    · next hs =>
      obtain rfl := Option.some.inj h
      exact .inl ⟨rfl, by simp, by simp [hs], by simp [hs, MasterPoint.unprocessed], rfl⟩
    · cases h
  | compare =>
    simp only [step] at h
    split at h
    · next hs =>
      obtain rfl := Option.some.inj h
      refine .inl ⟨rfl, ?_⟩
      simp only [hs]
      split_ifs <;> simp [MasterPoint.unprocessed]
    · cases h
  | store =>
    simp only [step] at h
    split at h
    · next hs =>
      obtain rfl := Option.some.inj h
      exact .inl ⟨rfl, by simp, by simp [hs], by simp [hs, MasterPoint.unprocessed], rfl⟩
    · cases h
  | fork q =>
    simp only [step] at h
    split at h
    · next pid rest hs =>
      refine .inr ⟨pid, rest, q, rfl, hs, ?_⟩
      cases q with
      | none =>
        obtain rfl := Option.some.inj h
        exact .inr ⟨rfl, fun _ => rfl⟩
      | some q =>
        simp only [fork, Option.ite_none_right_eq_some] at h
        obtain ⟨-, h⟩ := h
        split at h <;> obtain rfl := Option.some.inj h
        · exact .inl rfl
        · next ht => exact .inr ⟨rfl, fun _ => by rw [restartEach, ht, Option.bind_some]⟩
    · cases h
  | endPass => exact absurd rfl ha

theorem exec_of_fault {as : List (ClusterLabel n)} (hf : s.master = .fault)
    (has : .endPass ∉ as) : exec (step c) s (as ++ [.endPass]) = none := by
  induction as generalizing s with
  | nil => simp [exec, step, hf]
  | cons a as ih =>
    obtain ⟨hne, has⟩ := List.ne_and_not_mem_of_not_mem_cons has
    rw [List.cons_append, exec_cons]
    cases h : s.step c a with
    | none => rfl
    | some t =>
      rcases pass_step (by simp [hf]) (Ne.symm hne) h with ⟨-, -, ht, -⟩ | ⟨_, _, _, -, hs, -⟩
      · exact ih (ht.mpr hf) has
      · simp [hf] at hs

end Cluster

/-- A pass that is over when `endPass` comes, whatever the workers do in between, does to the
table what `restartEach` does with the results of its forks. -/
theorem restartEach_of_exec {n : Nat} {c : Fin n → SrvWork} {s s' : Cluster n}
    {as : List (ClusterLabel n)} (hm : s.master ≠ .sleep) (has : .endPass ∉ as)
    (h : exec (Cluster.step c) s (as ++ [.endPass]) = some s') :
    ∃ items, items.map Prod.fst = s.master.unprocessed [] ∧ items.map Prod.snd = forkResults as ∧
      restartEach s.workerProcesses items = some s'.workerProcesses ∧
      s'.restartWorkerPid = [] := by
  induction as generalizing s with
  | nil =>
    obtain ⟨t, ht, he⟩ := Option.bind_eq_some_iff.mp h
    obtain rfl := Option.some.inj he
    simp only [Cluster.step] at ht
    split at ht
    · next hs =>
      obtain rfl := Option.some.inj ht
      exact ⟨[], by simp [hs, MasterPoint.unprocessed], rfl, rfl, rfl⟩
    · cases ht
  | cons a as ih =>
    obtain ⟨t, ht, he⟩ := Option.bind_eq_some_iff.mp h
    obtain ⟨hne, has'⟩ := List.ne_and_not_mem_of_not_mem_cons has
    rcases Cluster.pass_step hm (Ne.symm hne) ht with
      ⟨hfork, hmt, -, hun, htab⟩ | ⟨pid, rest, q, rfl, hs, hf | ⟨hpick, heach⟩⟩
    · obtain ⟨items, hfst, hsnd, hres, hq⟩ := ih hmt has' he
      have hforks : forkResults (a :: as) = forkResults as := by
        rw [← List.singleton_append, forkResults, List.filterMap_append]
        exact (congrArg (· ++ _) hfork).trans (List.nil_append _)
      exact ⟨items, hfst.trans hun, hsnd.trans hforks.symm, htab ▸ hres, hq⟩
    · simp [Cluster.exec_of_fault hf has'] at he
    · obtain ⟨items, hfst, hsnd, hres, hq⟩ := ih (by simp [hpick]) has' he
      refine ⟨(pid, q) :: items, ?_, ?_, (heach items).trans hres, hq⟩
      · simp [hs, hfst, hpick, MasterPoint.unprocessed]
      · simp [hsnd, forkResults]

theorem masterPass_of_exec {n : Nat} {c : Fin n → SrvWork} {s s' : Cluster n}
    {as : List (ClusterLabel n)} (has : .endPass ∉ as)
    (h : exec (Cluster.step c) s (.beginPass :: as ++ [.endPass]) = some s') :
    ∃ items, items.map Prod.fst = s.restartWorkerPid ∧ items.map Prod.snd = forkResults as ∧
      masterPass s.workerProcesses items = some (s'.workerProcesses, s'.restartWorkerPid) := by
  obtain ⟨t, ht, he⟩ := Option.bind_eq_some_iff.mp h
  simp only [Cluster.step, Option.ite_none_right_eq_some, Option.some.injEq] at ht
  obtain ⟨-, rfl⟩ := ht
  obtain ⟨items, hfst, hsnd, hres, hq⟩ := restartEach_of_exec (by simp) has he
  exact ⟨items, hfst, hsnd, by rw [masterPass, hres, hq]; rfl⟩

end Tinyco
