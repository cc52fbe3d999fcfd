import Tinyco.RequestsAccounted

/-! When no worker dies and no call fails, a request that has been taken from a listener becomes a
work. -/

namespace Tinyco

namespace SrvLoop

variable {w : SrvWork} {v v' : SrvLoop} {r : SrvReply}

/-- With a builder, what a loop has in hand is not dropped unless a call fails. -/
theorem fate_next (hb : w.workBuilder = true) (hclose : ∀ fd, v.point ≠ .close fd)
    (hnb : ∀ ret, r = .setNonBlock ret → 0 ≤ ret) (hbuild : ∀ work, r = .build work → work = true)
    (h : v.next w r = some v') : v.point.fate v'.point ≠ some .dropped := by
  cases hp : v.point <;> cases r <;> simp only [next, hp, Option.some.injEq, reduceCtorEq] at h
  case unlock.unlock got ret =>
    subst h
    cases hw : w.proto <;> simp [afterUnlock, hw, hb, SrvPoint.fate]
  case setNonBlock.setNonBlock fd ret =>
    subst h
    have hret : ¬ ret < 0 := by have := hnb ret rfl; omega
    simp [afterSetNonBlock, hret, hb, SrvPoint.fate]
  case close.resume fd => exact absurd hp (hclose fd)
  case build.build got work =>
    subst h
    simp [afterBuild, hbuild work rfl, SrvPoint.fate]
  all_goals simp [SrvPoint.fate]

theorem close_next (hb : w.workBuilder = true) (h : v.next w r = some v') (fd : Int) :
    v'.point ≠ .close fd := by
  cases hp : v.point <;> cases r <;>
    simp only [next, hp, Option.some.injEq, Option.map_eq_some_iff, reduceCtorEq] at h
  case loopStart.resume =>
    subst h
    cases hw : w.proto <;> by_cases hm : v.accepted > 15 <;> simp [atLoopStart, hw, hm]
  case tryLock.tryLock ret =>
    subst h
    cases hw : w.proto <;> by_cases hr : ret < 0 <;> simp [afterTryLock, hw, hr]
  case accept.accept =>
    obtain ⟨m, -, rfl⟩ := h
    by_cases hm : m < 0 <;> simp [afterAccept, hm]
  case recvfrom.recvfrom =>
    obtain ⟨m, -, rfl⟩ := h
    by_cases hm : m > 0 <;> by_cases hm' : m < 0 <;> simp [afterRecvfrom, hm, hm']
  case unlock.unlock =>
    subst h
    cases hw : w.proto <;> simp [afterUnlock, hw, hb]
  case setNonBlock.setNonBlock fd' ret =>
    subst h
    by_cases hr : ret < 0 <;> simp [afterSetNonBlock, hr, hb]
  case build.build got work =>
    subst h
    cases work <;> simp [afterBuild]
  case createThread.resume =>
    subst h
    cases hw : w.proto <;> cases hc : w.ct <;> simp [afterCreateThread, hw, hc]
  case gracefulShutdown.gracefulShutdown b =>
    subst h
    cases b <;> simp
  all_goals
    subst h
    simp

end SrvLoop

/-- No worker dies, and on the listener `l` no call fails and no datagram is empty. -/
def IntakeLabel.Serves {n : Nat} {α : Type*} (size : α → Nat) (l : Fin n) : IntakeLabel n α → Prop
  | .arrive m x => m = l → 0 < size x
  | .step (.die _) => False
  | .step (.reply _ m (.setNonBlock ret)) => m = l → 0 ≤ ret
  | .step (.reply _ m (.build work)) => m = l → work = true
  | _ => True

namespace Intake

variable {n : Nat} {α : Type*} {size : α → Nat} {c : Fin n → SrvWork} {s t : Intake n α} {p : Nat}
  {l m : Fin n} {a : ClusterLabel n} {k : Cluster n}

/-- Nothing has been dropped at `l`, and nothing there can be. -/
structure Served (size : α → Nat) (l : Fin n) (s : Intake n α) : Prop where
  dropped : s.dropped l = []
  no_close : ∀ p fd, (s.cluster.loops p l).loop.point ≠ .close fd
  sizes : ∀ x ∈ s.queue l, 0 < size x

theorem no_close_step (hb : (c l).workBuilder = true)
    (h : ∀ p fd, (s.cluster.loops p l).loop.point ≠ .close fd) (hk : s.cluster.step c a = some k)
    (p : Nat) (fd : Int) : (k.loops p l).loop.point ≠ .close fd := by
  obtain ⟨-, hloop⟩ := Cluster.step_loop p l hk
  generalize k.loops p l = w at hloop ⊢
  cases hloop with
  | same => exact h p fd
  | read => exact h p fd
  | next _ _ _ hv => exact SrvLoop.close_next hb hv fd
  | new => simp

theorem Served.fate (h : s.Served size l) (hb : (c l).workBuilder = true)
    (hserves : (IntakeLabel.step a : IntakeLabel n α).Serves size l)
    (hcaller : a.caller = some (p, l)) (hk : s.cluster.step c a = some k) :
    (s.cluster.loops p l).loop.point.fate (k.loops p l).loop.point ≠ some .dropped := by
  have hlive := (Cluster.callerStep_of_step hcaller hk).mem
  have hclose := h.no_close p
  obtain ⟨-, hloop⟩ := Cluster.step_loop p l hk
  generalize k.loops p l = w at hloop ⊢
  cases hloop with
  | same => cases hp : (s.cluster.loops p l).loop.point <;> simp [SrvPoint.fate, hp] at hclose ⊢
  | read _ hpoint => simp [hpoint, SrvPoint.fate]
  | @next r v _ hr _ hv =>
    refine SrvLoop.fate_next hb hclose (fun ret hret => ?_) (fun work hwork => ?_) hv
    · subst hret
      obtain rfl := hr.resolve_left (by simp [SrvReply.ofMutex])
      exact hserves rfl
    · subst hwork
      obtain rfl := hr.resolve_left (by simp [SrvReply.ofMutex])
      exact hserves rfl
  | new hgone => exact absurd hlive hgone

theorem record_dropped {q : Nat} {f : Option Fate} (h : m ≠ l ∨ f ≠ some .dropped) :
    (s.record q m f).dropped l = s.dropped l ∧ (s.record q m f).queue = s.queue := by
  cases f with
  | none => exact ⟨rfl, rfl⟩
  | some f =>
    cases f with
    | work => exact ⟨rfl, rfl⟩
    | dropped => exact ⟨Function.update_of_ne (h.resolve_right (· rfl)).symm _ _, rfl⟩

/-- No empty datagram is taken at `l`. -/
theorem Served.takes (h : s.Served size l) (ht : s.takes size a = some t) :
    t.dropped l = s.dropped l ∧ ∀ x ∈ t.queue l, x ∈ s.queue l := by
  have hrest {m : Fin n} {x y : α} {rest : List α} (hq : s.queue m = x :: rest)
      (hy : y ∈ Function.update s.queue m rest l) : y ∈ s.queue l := by
    by_cases hm : l = m
    · subst hm
      rw [Function.update_self] at hy
      exact hq ▸ List.mem_cons_of_mem x hy
    · rwa [Function.update_of_ne hm] at hy
  rcases takes_cases ht with ⟨-, p, m, x, rest, -, hq, rfl⟩ | ⟨-, rfl | hempty⟩
  · exact ⟨rfl, fun y hy => hrest hq hy⟩
  · exact ⟨rfl, fun _ hx => hx⟩
  · obtain ⟨p, m, x, rest, -, hq, hsize, rfl⟩ := hempty
    have hm : l ≠ m := by
      rintro rfl
      exact absurd (h.sizes x (hq ▸ List.mem_cons_self)) (by omega)
    exact ⟨Function.update_of_ne hm _ _, fun y hy => hrest hq hy⟩

theorem Served.step (h : s.Served size l) (hb : (c l).workBuilder = true) {b : IntakeLabel n α}
    (hserves : b.Serves size l) (hs : s.step size c b = some t) : t.Served size l := by
  cases b with
  | arrive m x =>
    obtain rfl := Option.some.inj hs
    refine ⟨h.dropped, h.no_close, fun y hy => ?_⟩
    change y ∈ Function.update s.queue m (s.queue m ++ [x]) l at hy
    by_cases hm : l = m
    · subst hm
      rw [Function.update_self, List.mem_append, List.mem_singleton] at hy
      rcases hy with hy | rfl
      · exact h.sizes y hy
      · exact hserves rfl
    · rw [Function.update_of_ne hm] at hy
      exact h.sizes y hy
  | step a =>
    obtain ⟨k, hk, hmap⟩ := Option.bind_eq_some_iff.mp hs
    obtain ⟨u, hu, rfl⟩ := Option.map_eq_some_iff.mp hmap
    have hdie (p : Nat) : a ≠ .die p := by
      rintro rfl
      exact hserves
    obtain ⟨hdropped, hqueue⟩ := h.takes hu
    suffices hkept : (u.settle k a).dropped l = u.dropped l ∧ (u.settle k a).queue = u.queue from
      ⟨hkept.1.trans (hdropped.trans h.dropped), no_close_step hb h.no_close hk,
        fun x hx => h.sizes x (hqueue x (hkept.2 ▸ hx))⟩
    cases hcaller : a.caller with
    | none =>
      have hsettle := (settle_of_none (s := u) (k := k) size hcaller hdie).2
      exact ⟨by rw [hsettle], by rw [hsettle]⟩
    | some pm =>
      rw [settle_of_caller u hcaller, (takes_effect hcaller hu).1]
      refine record_dropped ?_
      by_cases hm : pm.2 = l
      · subst hm
        exact .inr (h.fate hb hserves hcaller hk)
      · exact .inl hm

end Intake

end Tinyco
