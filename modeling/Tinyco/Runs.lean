import Mathlib.Data.List.Infix

/-! Finite runs of a partial step function. A label that is not enabled leaves
the run undefined, so a run is determined by its first state and its labels. -/

namespace Tinyco

variable {σ α β : Type*} {step : σ → α → Option σ} {s t u : σ} {a : α} {as bs : List α}

/-- The state after taking the steps `as` in order. -/
def exec (step : σ → α → Option σ) : σ → List α → Option σ
  | s, [] => some s
  | s, a :: as => (step s a).bind fun t => exec step t as

/-- `t` is one of the states of the run of `as` from `s`. -/
def Visits (step : σ → α → Option σ) (s : σ) (as : List α) (t : σ) : Prop :=
  ∃ pre, pre <+: as ∧ exec step s pre = some t

/-- The run of `as` from `s` goes from `t` to `u` by the label `a`. -/
def Takes (step : σ → α → Option σ) (s : σ) (as : List α) (t : σ) (a : α) (u : σ) : Prop :=
  ∃ pre, pre ++ [a] <+: as ∧ exec step s pre = some t ∧ step t a = some u

@[simp] theorem exec_nil : exec step s [] = some s := rfl

theorem exec_cons : exec step s (a :: as) = (step s a).bind fun t => exec step t as := rfl

theorem exec_append (s : σ) (as bs : List α) :
    exec step s (as ++ bs) = (exec step s as).bind fun t => exec step t bs := by
  induction as generalizing s with
  | nil => rfl
  | cons a as ih =>
    simp only [List.cons_append, exec_cons, Option.bind_assoc]
    exact congrArg _ (funext fun t => ih t)

theorem Visits.refl (step : σ → α → Option σ) (s : σ) (as : List α) : Visits step s as s :=
  ⟨[], List.nil_prefix, rfl⟩

theorem Visits.of_exec (h : exec step s as = some t) : Visits step s as t :=
  ⟨as, List.prefix_rfl, h⟩

theorem Visits.of_exec_append (h : exec step s as = some t) (hu : Visits step t bs u) :
    Visits step s (as ++ bs) u := by
  obtain ⟨pre, hpre, hu⟩ := hu
  exact ⟨as ++ pre, List.prefix_append_right_inj as |>.mpr hpre, by simp [exec_append, h, hu]⟩

theorem visits_nil_iff : Visits step s [] t ↔ t = s := by
  simp [Visits, eq_comm]

theorem visits_cons_iff :
    Visits step s (a :: as) t ↔ t = s ∨ ∃ u, step s a = some u ∧ Visits step u as t := by
  constructor
  · rintro ⟨pre, hpre, h⟩
    cases pre with
    | nil => exact .inl (Option.some.inj h).symm
    | cons b pre =>
      obtain ⟨rfl, hp⟩ := List.cons_prefix_cons.mp hpre
      obtain ⟨u, hu, h⟩ := Option.bind_eq_some_iff.mp h
      exact .inr ⟨u, hu, pre, hp, h⟩
  · rintro (rfl | ⟨u, hu, pre, hpre, h⟩)
    · exact Visits.refl step t _
    · exact ⟨a :: pre, List.cons_prefix_cons.mpr ⟨rfl, hpre⟩, by simp [exec_cons, hu, h]⟩

theorem forall_visits_cons {P : σ → Prop} (hu : step s a = some u) :
    (∀ t, Visits step s (a :: as) t → P t) ↔ P s ∧ ∀ t, Visits step u as t → P t := by
  simp [visits_cons_iff, hu, forall_eq_or_imp]

def trace (step : σ → α → Option σ) : σ → List α → List σ
  | s, [] => [s]
  | s, a :: as =>
    s :: match step s a with
      | none => []
      | some t => trace step t as

theorem mem_trace : t ∈ trace step s as ↔ Visits step s as t := by
  induction as generalizing s with
  | nil => simp [trace, visits_nil_iff]
  | cons a as ih =>
    rw [visits_cons_iff]
    cases h : step s a <;> simp [trace, h, ih]

theorem takes_nil (t : σ) (a : α) (u : σ) : ¬ Takes step s [] t a u := by
  rintro ⟨pre, hpre, _⟩
  simp at hpre

theorem takes_cons_iff {b : α} :
    Takes step s (b :: as) t a u ↔
      (t = s ∧ a = b ∧ step s b = some u) ∨ ∃ v, step s b = some v ∧ Takes step v as t a u := by
  constructor
  · rintro ⟨pre, hpre, h, hu⟩
    cases pre with
    | nil =>
      obtain rfl := Option.some.inj h
      obtain ⟨rfl, _⟩ := List.cons_prefix_cons.mp hpre
      exact .inl ⟨rfl, rfl, hu⟩
    | cons c pre =>
      obtain ⟨rfl, hp⟩ := List.cons_prefix_cons.mp hpre
      obtain ⟨v, hv, h⟩ := Option.bind_eq_some_iff.mp h
      exact .inr ⟨v, hv, pre, hp, h, hu⟩
  · rintro (⟨rfl, rfl, hu⟩ | ⟨v, hv, pre, hpre, h, hu⟩)
    · exact ⟨[], by simp, rfl, hu⟩
    · exact ⟨b :: pre, List.cons_prefix_cons.mpr ⟨rfl, hpre⟩, by simp [exec_cons, hv, h], hu⟩

theorem forall_takes_cons {C : σ → α → Prop} (hu : step s a = some u) :
    (∀ x b y, Takes step s (a :: as) x b y → C x b) ↔
      C s a ∧ ∀ x b y, Takes step u as x b y → C x b := by
  constructor
  · intro h
    exact ⟨h s a u (takes_cons_iff.mpr (.inl ⟨rfl, rfl, hu⟩)),
      fun x b y hxy => h x b y (takes_cons_iff.mpr (.inr ⟨u, hu, hxy⟩))⟩
  · rintro ⟨hC, h⟩ x b y hxy
    rcases takes_cons_iff.mp hxy with ⟨rfl, rfl, -⟩ | ⟨v, hv, hxy⟩
    · exact hC
    · obtain rfl := Option.some.inj (hu.symm.trans hv)
      exact h x b y hxy

theorem Takes.step_eq (h : Takes step s as t a u) : step t a = some u := by
  obtain ⟨_, _, _, hu⟩ := h
  exact hu

theorem Takes.visits (h : Takes step s as t a u) : Visits step s as u := by
  obtain ⟨pre, hpre, ht, hu⟩ := h
  exact ⟨pre ++ [a], hpre, by simp [exec_append, ht, exec_cons, hu]⟩

theorem Takes.visits_source (h : Takes step s as t a u) : Visits step s as t := by
  obtain ⟨pre, hpre, ht, _⟩ := h
  exact ⟨pre, (List.prefix_append pre [a]).trans hpre, ht⟩

theorem Takes.mem (h : Takes step s as t a u) : a ∈ as := by
  obtain ⟨pre, hpre, _⟩ := h
  exact hpre.subset (by simp)

theorem Takes.of_exec_append (h : exec step s as = some t) {x y : σ} (hx : Takes step t bs x a y) :
    Takes step s (as ++ bs) x a y := by
  obtain ⟨pre, hpre, hx, hy⟩ := hx
  refine ⟨as ++ pre, ?_, by simp [exec_append, h, hx], hy⟩
  rw [List.append_assoc]
  exact (List.prefix_append_right_inj as).mpr hpre

theorem Takes.mono (hpre : as <+: bs) (h : Takes step s as t a u) : Takes step s bs t a u := by
  obtain ⟨pre, hp, ht, hu⟩ := h
  exact ⟨pre, hp.trans hpre, ht, hu⟩

theorem Visits.invariant_takes {I : σ → Prop} (hs : I s)
    (hstep : ∀ t a u, I t → Takes step s as t a u → I u) (h : Visits step s as t) : I t := by
  induction as generalizing s with
  | nil => exact visits_nil_iff.mp h ▸ hs
  | cons a as ih =>
    rcases visits_cons_iff.mp h with rfl | ⟨u, hu, h⟩
    · exact hs
    · refine ih (hstep s a u hs (takes_cons_iff.mpr (.inl ⟨rfl, rfl, hu⟩))) (fun w b v hw hv => ?_) h
      exact hstep w b v hw (takes_cons_iff.mpr (.inr ⟨u, hu, hv⟩))

/-- What the first state satisfies and every step preserves holds throughout, if
the steps may assume of the states they reach what is known of all of them. -/
theorem Visits.invariant_under {I D : σ → Prop} (hs : I s)
    (hstep : ∀ t a u, I t → step t a = some u → D u → I u)
    (hD : ∀ t, Visits step s as t → D t) (h : Visits step s as t) : I t :=
  h.invariant_takes hs fun t a u ht hu => hstep t a u ht hu.step_eq (hD u hu.visits)

theorem Visits.invariant {I : σ → Prop} (hs : I s)
    (hstep : ∀ t a u, I t → step t a = some u → I u) (h : Visits step s as t) : I t :=
  h.invariant_under (D := fun _ => True) hs (fun t a u ht hu _ => hstep t a u ht hu)
    (fun _ _ => trivial)

/-- When a step keeps `P` exactly if it meets the condition `C`, the runs that
stay inside `P` are the runs all of whose steps meet `C`. -/
theorem forall_visits_iff_forall_takes {P : σ → Prop} {C : σ → α → Prop} (hs : P s)
    (hstep : ∀ t a u, P t → step t a = some u → (P u ↔ C t a)) :
    (∀ t, Visits step s as t → P t) ↔ ∀ t a u, Takes step s as t a u → C t a := by
  induction as generalizing s with
  | nil => simp [visits_nil_iff, takes_nil, hs]
  | cons b as ih =>
    cases hb : step s b with
    | none => simp [visits_cons_iff, takes_cons_iff, hb, hs]
    | some v =>
      rw [forall_visits_cons hb, forall_takes_cons hb, ← hstep s b v hs hb]
      constructor
      · rintro ⟨-, h⟩
        have hv : P v := h v (Visits.refl step v as)
        exact ⟨hv, (ih hv).mp h⟩
      · rintro ⟨hv, h⟩
        exact ⟨hs, (ih hv).mpr h⟩

/-- The same for steps that may use what holds in every state. -/
theorem forall_visits_iff_forall_takes_under {P I : σ → Prop} {C : σ → α → Prop} (hs : P s) (hI : I s)
    (hinv : ∀ t a u, I t → step t a = some u → I u)
    (hstep : ∀ t a u, P t → I t → step t a = some u → (P u ↔ C t a)) :
    (∀ t, Visits step s as t → P t) ↔ ∀ t a u, Takes step s as t a u → C t a := by
  have hiff : (∀ t, Visits step s as t → P t ∧ I t) ↔ ∀ t a u, Takes step s as t a u → C t a := by
    refine forall_visits_iff_forall_takes ⟨hs, hI⟩ fun t a u ht hu => ?_
    rw [← hstep t a u ht.1 ht.2 hu]
    exact and_iff_left (hinv t a u ht.2 hu)
  rw [← hiff]
  exact forall₂_congr fun t ht => (and_iff_left (ht.invariant hI hinv)).symm

theorem exists_takes_of_gained {P : σ → Prop} (hs : ¬ P s) (h : exec step s as = some t) (ht : P t) :
    ∃ x a y, Takes step s as x a y ∧ ¬ P x ∧ P y := by
  induction as generalizing s with
  | nil => exact absurd (Option.some.inj h ▸ ht) hs
  | cons a as ih =>
    obtain ⟨v, hv, h⟩ := Option.bind_eq_some_iff.mp h
    by_cases hP : P v
    · exact ⟨s, a, v, takes_cons_iff.mpr (.inl ⟨rfl, rfl, hv⟩), hs, hP⟩
    · obtain ⟨x, b, y, hxy, hx, hy⟩ := ih hP h
      exact ⟨x, b, y, takes_cons_iff.mpr (.inr ⟨v, hv, hxy⟩), hx, hy⟩

/-- What every step keeps or else ends by `Q` holds throughout the run, or up to the first step
that is a `Q`. -/
theorem exec_until {P : σ → Prop} {Q : σ → α → σ → Prop} (hs : P s)
    (hstep : ∀ t a u, P t → step t a = some u → P u ∨ Q t a u) (h : exec step s as = some u) :
    (∀ x, Visits step s as x → P x) ∨ ∃ before a after v w, as = before ++ a :: after ∧
      exec step s before = some v ∧ (∀ x, Visits step s before x → P x) ∧ step v a = some w ∧
      Q v a w ∧ exec step w after = some u := by
  induction as generalizing s with
  | nil => exact .inl fun x hx => visits_nil_iff.mp hx ▸ hs
  | cons a as ih =>
    obtain ⟨t, ht, h⟩ := Option.bind_eq_some_iff.mp h
    rcases hstep s a t hs ht with hP | hQ
    · rcases ih hP h with hall | ⟨before, b, after, v, w, rfl, hv, hall, hw, hQ, h⟩
      · exact .inl ((forall_visits_cons ht).mpr ⟨hs, hall⟩)
      · exact .inr ⟨a :: before, b, after, v, w, rfl, by simp [exec_cons, ht, hv],
          (forall_visits_cons ht).mpr ⟨hs, hall⟩, hw, hQ, h⟩
    · exact .inr ⟨[], a, as, s, t, rfl, rfl, fun x hx => visits_nil_iff.mp hx ▸ hs, ht, hQ, h⟩

theorem forall_prefix_cons {P : List α → Prop} :
    (∀ pre, pre <+: a :: as → P pre) ↔ P [] ∧ ∀ pre, pre <+: as → P (a :: pre) := by
  constructor
  · intro h
    exact ⟨h [] List.nil_prefix, fun pre hpre => h (a :: pre) ((List.prefix_cons_inj a).mpr hpre)⟩
  · rintro ⟨hnil, hcons⟩ pre hpre
    rcases List.prefix_cons_iff.mp hpre with rfl | ⟨rest, rfl, hrest⟩
    · exact hnil
    · exact hcons rest hrest

/-- Two step functions whose states stay related by `f` as long as the steps meet `C`, and
that are seen to differ by the first step that does not, agree on the runs all of whose steps
meet `C`. -/
theorem exec_agree_iff_forall_takes {τ : Type*} {step' : τ → α → Option τ} {f : σ → τ} {obs : σ → β}
    {obs' : τ → β} {I : σ → Prop} {C : σ → α → Prop} (hI : I s)
    (hinv : ∀ t a u, I t → step t a = some u → I u) (hobs : ∀ t, obs' (f t) = obs t)
    (hnone : ∀ t a, step t a = none → step' (f t) a = none)
    (hmeets : ∀ t a u, step t a = some u → C t a → step' (f t) a = some (f u))
    (hfails : ∀ t a u, I t → step t a = some u → ¬ C t a → (step' (f t) a).map obs' ≠ some (obs u)) :
    (∀ pre, pre <+: as → (exec step s pre).map obs = (exec step' (f s) pre).map obs') ↔
      ∀ t a u, Takes step s as t a u → C t a := by
  induction as generalizing s with
  | nil =>
    refine iff_of_true (fun pre hpre => ?_) fun t a u h => (takes_nil t a u h).elim
    rw [List.prefix_nil.mp hpre]
    simp [hobs]
  | cons a as ih =>
    cases ha : step s a with
    | none =>
      refine iff_of_true (forall_prefix_cons.mpr ⟨by simp [hobs], fun pre _ => ?_⟩) ?_
      · simp [exec_cons, ha, hnone s a ha]
      · simp [takes_cons_iff, ha]
    | some u =>
      rw [forall_takes_cons ha]
      by_cases hC : C s a
      · rw [← ih (hinv s a u hI ha), forall_prefix_cons]
        simp [exec_cons, ha, hmeets s a u ha hC, hC, hobs]
      · refine iff_of_false (fun h => hfails s a u hI ha hC ?_) fun h => hC h.1
        have hh := h [a] (List.prefix_append [a] as)
        simpa [exec_cons, ha, eq_comm] using hh

/-- What the steps of a run yield, one after the other. -/
def observe (step : σ → α → Option σ) (f : σ → α → σ → List β) : σ → List α → List β
  | _, [] => []
  | s, a :: as =>
    match step s a with
    | none => []
    | some t => f s a t ++ observe step f t as

theorem observe_cons (f : σ → α → σ → List β) (h : step s a = some t) :
    observe step f s (a :: as) = f s a t ++ observe step f t as := by
  simp [observe, h]

theorem observe_map {γ : Type*} (f : σ → α → σ → List β) (g : β → γ) :
    observe step (fun s a t => (f s a t).map g) s as = (observe step f s as).map g := by
  induction as generalizing s with
  | nil => rfl
  | cons a as ih => cases h : step s a <;> simp [observe, h, ih]

/-- A queue `q` that each step puts `f` into at its end and takes `g` out of at its front is
first in, first out. -/
theorem exec_fifo {q : σ → List β} {f g : σ → α → σ → List β}
    (hstep : ∀ t a u, Takes step s as t a u → q t ++ f t a u = g t a u ++ q u)
    (h : exec step s as = some t) :
    q s ++ observe step f s as = observe step g s as ++ q t := by
  induction as generalizing s with
  | nil => simp [observe, Option.some.inj h]
  | cons a as ih =>
    obtain ⟨v, hv, h⟩ := Option.bind_eq_some_iff.mp h
    have hhead := hstep s a v (takes_cons_iff.mpr (.inl ⟨rfl, rfl, hv⟩))
    have htail := ih (fun x b y hxy => hstep x b y (takes_cons_iff.mpr (.inr ⟨v, hv, hxy⟩))) h
    rw [observe_cons f hv, observe_cons g hv, ← List.append_assoc, hhead, List.append_assoc,
      htail, List.append_assoc]

end Tinyco
