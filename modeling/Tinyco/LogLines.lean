import Tinyco.LogHistory

/-! Into which file a process writes its lines, between two times that it opens one. -/

namespace Tinyco

theorem LogProcess.file_of_step {filepath : Bytes} {d d' : LogDir} {x y : LogProcess} {c : LogCall}
    (hc : ∀ ok, c ≠ .reopen ok) (h : x.step filepath d c = some (d', y)) :
    (∀ rotated, x.point ≠ .reopen rotated) ∧
      (y.file = x.file ∨ ∃ rotated, y.point = .reopen rotated) := by
  cases c with
  | log line =>
    simp only [step] at h
    split at h <;> cases h <;> simp_all
  | write n =>
    simp only [step] at h
    split at h
    · next hp _ =>
      simp only [Option.ite_none_right_eq_some] at h
      obtain ⟨-, h⟩ := h
      cases h
      exact ⟨by simp [hp], .inl rfl⟩
    · cases h
  | worker first now =>
    simp only [step] at h
    split at h
    · next hp =>
      refine ⟨by simp [hp], ?_⟩
      split_ifs at h <;> cases h
      · exact .inr ⟨false, rfl⟩
      · exact .inl rfl
      · exact .inl rfl
    · cases h
  | master =>
    simp only [step] at h
    split at h
    · next hp =>
      refine ⟨by simp [hp], .inl ?_⟩
      split_ifs at h <;> cases h <;> rfl
    · cases h
  | rotate | turn | move =>
    simp only [step] at h
    split at h
    · next hp =>
      cases h
      exact ⟨by simp [hp], .inl rfl⟩
    · cases h
  | reopen ok => exact absurd rfl (hc ok)

namespace LogSystem

variable {filepath : Bytes} {root : Nat} {s s' : LogSystem} {a : LogLabel}

/-- The process has the file `f` open, or has closed it and is about to open one. -/
def Holds (p f : Nat) (s : LogSystem) : Prop :=
  ∃ x, s.procs p = some x ∧ (x.file = some f ∨ ∃ rotated, x.point = .reopen rotated)

theorem Holds.step {p f : Nat} (h : s.Holds p f) (hreopen : ∀ ok, a ≠ .call p (.reopen ok))
    (hdie : a ≠ .die p) (hs : s.step filepath root a = some s') : s'.Holds p f := by
  obtain ⟨x, hx, hfile⟩ := h
  cases a with
  | call q c =>
    simp only [LogSystem.step] at hs
    split at hs
    · next y hy =>
      obtain ⟨⟨d, z⟩, hc, rfl⟩ := Option.map_eq_some_iff.mp hs
      by_cases hq : q = p
      · subst hq
        obtain rfl : y = x := Option.some.inj (hy.symm.trans hx)
        refine ⟨z, Function.update_self .., ?_⟩
        have hok (ok : Bool) : c ≠ .reopen ok := fun hc => hreopen ok (hc ▸ rfl)
        obtain ⟨hpoint, hkeep⟩ := LogProcess.file_of_step hok hc
        rcases hfile with hfile | ⟨rotated, hp⟩
        · exact hkeep.imp_left fun hz => hz.trans hfile
        · exact absurd hp (hpoint rotated)
      · exact ⟨x, by simpa [Function.update_of_ne (Ne.symm hq)] using hx, hfile⟩
    · cases hs
  | fork q =>
    simp only [LogSystem.step] at hs
    split at hs
    · next y hy hq =>
      simp only [Option.ite_none_right_eq_some, Option.some.injEq] at hs
      obtain ⟨-, rfl⟩ := hs
      have hne : p ≠ q := by
        rintro rfl
        simp [hq] at hx
      exact ⟨x, by simpa [Function.update_of_ne hne] using hx, hfile⟩
    · cases hs
  | die q =>
    simp only [LogSystem.step, Option.ite_none_right_eq_some, Option.some.injEq] at hs
    obtain ⟨-, rfl⟩ := hs
    have hne : p ≠ q := fun hq => hdie (by rw [hq])
    exact ⟨x.orphan q, by simp [hne, hx], hfile⟩

end LogSystem

end Tinyco
