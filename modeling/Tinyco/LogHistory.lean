import Tinyco.LogDirectory

/-! What becomes of a log file while the processes log, fork and die in any order: a
file goes on to the next index with each rotation, and none is lost before it has been the last. -/

namespace Tinyco

namespace LogSystem

variable {filepath : Bytes} {root k n : Nat} {s s' : LogSystem} {a : LogLabel}

def turnsLeft (root : Nat) (s : LogSystem) : Nat :=
  ((s.procs root).map fun x => x.point.turnsLeft).getD 0

/-- The index that the file with index `k` has when the pass under way is over. -/
def due (root : Nat) (s : LogSystem) (k : Nat) : Nat := LogDir.dueIndex (s.turnsLeft root) k

structure Sound (filepath : Bytes) (root : Nat) (s : LogSystem) : Prop where
  workers : ∀ p x, p ≠ root → s.procs p = some x → x.parent = root ∧ x.point.rotating = false
  bound : s.turnsLeft root ≤ 100
  vacant : s.dir.Vacant filepath (s.turnsLeft root)
  known : s.dir.Known

theorem turnsLeft_call {p : Nat} {d : LogDir} {y : LogProcess} (hp : p ≠ root) :
    turnsLeft root { dir := d, procs := Function.update s.procs p (some y) } = s.turnsLeft root := by
  simp only [turnsLeft, Function.update_of_ne hp.symm]

theorem turnsLeft_root {x : LogProcess} (h : s.procs root = some x) :
    s.turnsLeft root = x.point.turnsLeft := by
  rw [turnsLeft, h, Option.map_some, Option.getD_some]

theorem Sound.effect_call (h : s.Sound filepath root) {p : Nat} {c : LogCall} {x y : LogProcess}
    {d : LogDir} (hp : s.procs p = some x) (hd : LogProcess.Does filepath s.dir x c d y) :
    LogDir.Effect filepath s.dir (s.turnsLeft root) (decide (LogLabel.call p c = .call root .rotate)) d
      (turnsLeft root { dir := d, procs := Function.update s.procs p (some y) }) := by
  by_cases hroot : p = root
  · subst hroot
    rw [turnsLeft_root hp, turnsLeft_root (Function.update_self ..)]
    have hne {c : LogCall} (hc : c ≠ .rotate) :
        decide (LogLabel.call p c = .call p .rotate) = false := by simp [hc]
    cases hd with
    | stay hc hleft =>
      rw [hne hc, hleft]
      exact .same rfl
    | append hleft hleft' =>
      rw [hne (by simp), hleft, hleft']
      exact .same rfl
    | rotate hx =>
      rw [decide_eq_true rfl]
      exact .rotate (by rw [hx]; rfl)
    | skip hx hnone =>
      rw [hne (by simp), hx, LogProcess.turnsLeft_nextTurn]
      exact .skip rfl hnone
    | move hx =>
      rw [hne (by simp), hx, LogProcess.turnsLeft_nextTurn]
      exact .move rfl
    | opened hx hleft =>
      rw [hne (by simp), hx, hleft]
      exact .opened
  · have hx := (h.workers p x hroot hp).2
    rw [turnsLeft_call hroot]
    have hne : decide (LogLabel.call p c = .call root .rotate) = false := by simp [hroot]
    rw [hne]
    cases hd with
    | stay => exact .same rfl
    | append => exact .same rfl
    | opened => exact .opened
    | rotate hx' | skip hx' | move hx' => simp [hx', LogPoint.rotating] at hx

theorem Sound.workers_update (h : s.Sound filepath root) {p : Nat} {y : LogProcess}
    (hy : p ≠ root → y.parent = root ∧ y.point.rotating = false) (q : Nat) (z : LogProcess)
    (hq : q ≠ root) (hz : Function.update s.procs p (some y) q = some z) :
    z.parent = root ∧ z.point.rotating = false := by
  by_cases hqp : q = p
  · subst hqp
    rw [Function.update_self, Option.some.injEq] at hz
    exact hz ▸ hy hq
  · rw [Function.update_of_ne hqp] at hz
    exact h.workers q z hq hz

theorem Sound.step (h : s.Sound filepath root) (hroot : root ≠ 1) (ha : a ≠ .die root)
    (hs : s.step filepath root a = some s') :
    s'.Sound filepath root ∧ s.dir.Grows s'.dir ∧
      LogDir.Effect filepath s.dir (s.turnsLeft root) (decide (a = .call root .rotate)) s'.dir
        (s'.turnsLeft root) := by
  cases a with
  | call p c =>
    simp only [LogSystem.step] at hs
    split at hs
    · next x hp =>
      obtain ⟨⟨d, y⟩, hc, rfl⟩ := Option.map_eq_some_iff.mp hs
      obtain ⟨hd, hparent⟩ := LogProcess.does_of_step hc
      obtain ⟨hgrows, hknown⟩ := hd.dir h.known
      have heffect := h.effect_call hp hd
      obtain ⟨hbound, hvacant⟩ := heffect.vacant h.bound h.vacant
      refine ⟨⟨h.workers_update fun hne => ?_, hbound, hvacant, hknown⟩, hgrows, heffect⟩
      obtain ⟨hx, hrot⟩ := h.workers p x hne hp
      exact ⟨hparent.trans hx, hd.not_rotating hrot (hx ▸ hroot)⟩
    · cases hs
  | fork p =>
    simp only [LogSystem.step] at hs
    split at hs
    · next x hx hp =>
      simp only [Option.ite_none_right_eq_some, Option.some.injEq] at hs
      obtain ⟨hidle, rfl⟩ := hs
      have hne : p ≠ root := by
        rintro rfl
        simp [hp] at hx
      have hleft := turnsLeft_call (s := s) (d := s.dir) (y := { x with parent := root }) hne
      refine ⟨⟨h.workers_update fun _ => ⟨rfl, ?_⟩, hleft ▸ h.bound, hleft ▸ h.vacant, h.known⟩,
        .refl _, ?_⟩
      · rw [hidle]
        rfl
      · rw [hleft]
        exact .same rfl
    · cases hs
  | die p =>
    simp only [LogSystem.step, Option.ite_none_right_eq_some, Option.some.injEq] at hs
    obtain ⟨-, rfl⟩ := hs
    have hne : root ≠ p := fun hp => ha (by rw [hp])
    have hleft : turnsLeft root { s with
        procs := fun q => if q = p then none else (s.procs q).map (LogProcess.orphan p) } =
        s.turnsLeft root := by
      simp only [turnsLeft, if_neg hne, Option.map_map]
      rfl
    refine ⟨⟨fun q z hq hz => ?_, hleft ▸ h.bound, hleft ▸ h.vacant, h.known⟩, .refl _, ?_⟩
    · simp only [Option.ite_none_left_eq_some, Option.map_eq_some_iff] at hz
      obtain ⟨-, y, hy, rfl⟩ := hz
      obtain ⟨hparent, hrot⟩ := h.workers q y hq hy
      exact ⟨by rw [LogProcess.orphan, if_neg (hparent ▸ hne), hparent], hrot⟩
    · rw [hleft]
      exact .same rfl

theorem sound_start {parent : Nat} {d : LogDir} (hd : d.Known) :
    (start filepath root parent d).Sound filepath root := by
  have hleft : (start filepath root parent d).turnsLeft root = 0 := by
    simp [turnsLeft, start, LogPoint.turnsLeft]
  refine ⟨fun p x hp hx => ?_, hleft ▸ Nat.zero_le _, hleft ▸ fun h0 => absurd h0 (Nat.lt_irrefl 0),
    hd.openFile _⟩
  simp [start, Function.update_of_ne hp] at hx

theorem Sound.exec (h : s.Sound filepath root) (hroot : root ≠ 1) {as : List LogLabel}
    (hdie : .die root ∉ as) (ht : exec (LogSystem.step filepath root) s as = some s') :
    s'.Sound filepath root ∧ s.dir.Grows s'.dir := by
  induction as generalizing s with
  | nil => exact Option.some.inj ht ▸ ⟨h, .refl _⟩
  | cons a as ih =>
    obtain ⟨u, hu, ht⟩ := Option.bind_eq_some_iff.mp ht
    obtain ⟨ha, has⟩ := not_or.mp (mt List.mem_cons.mpr hdie)
    obtain ⟨hsound, hgrows, -⟩ := h.step hroot (Ne.symm ha) hu
    obtain ⟨hsound', hgrows'⟩ := ih hsound has ht
    exact ⟨hsound', hgrows.trans hgrows'⟩

/-- The passes that a run begins take a file on by as many places. -/
theorem Sound.keeps (h : s.Sound filepath root) (hroot : root ≠ 1) {as : List LogLabel}
    (hdie : .die root ∉ as) (ht : Tinyco.exec (LogSystem.step filepath root) s as = some s')
    (hk : k < 100) (hn : s.dir.names (LocalLog.logFile filepath k) = some n)
    (hdue : s.due root k + as.count (.call root .rotate) < 100) :
    ∃ k' < 100, s'.dir.names (LocalLog.logFile filepath k') = some n ∧
      s'.due root k' = s.due root k + as.count (.call root .rotate) := by
  induction as generalizing s k with
  | nil => exact ⟨k, hk, Option.some.inj ht ▸ hn, Option.some.inj ht ▸ rfl⟩
  | cons a as ih =>
    obtain ⟨u, hu, ht⟩ := Option.bind_eq_some_iff.mp ht
    obtain ⟨ha, has⟩ := not_or.mp (mt List.mem_cons.mpr hdie)
    obtain ⟨hsound, -, heffect⟩ := h.step hroot (Ne.symm ha) hu
    have hcount : (a :: as).count (.call root .rotate) =
        (decide (a = .call root .rotate)).toNat + as.count (.call root .rotate) := by
      rw [List.count_cons, Nat.add_comm]
      by_cases haR : a = .call root .rotate <;> simp [haR]
    rw [hcount, ← Nat.add_assoc] at hdue ⊢
    obtain ⟨k₁, hk₁, hn₁, hdue₁⟩ := heffect.keeps h.bound h.vacant hk hn
      (Nat.lt_of_le_of_lt (Nat.le_add_right ..) hdue)
    have heq : u.due root k₁ = s.due root k + (decide (a = .call root .rotate)).toNat := hdue₁
    rw [← heq] at hdue ⊢
    exact ih hsound has ht hk₁ hn₁ hdue

end LogSystem

end Tinyco
