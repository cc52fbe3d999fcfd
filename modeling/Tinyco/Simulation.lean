import Mathlib.Algebra.Order.Group.Multiset
import Mathlib.Data.Nat.ModEq
import Tinyco.Runs

/-! Runs of a labelled relation, and the rules that carry a run of a step function over to
one: a simulation step for step, and a balance of what the steps put in and take out. Where the
steps of one kind alone lead. -/

namespace Tinyco

variable {σ τ α β γ : Type*} {step : σ → α → Option σ} {Step : τ → β → τ → Prop}
  {s t : σ} {x y z : τ} {as : List α} {b : β} {bs : List β}

/-- The labels `bs` lead from one state to another. -/
inductive Reaches (Step : τ → β → τ → Prop) : τ → List β → τ → Prop where
  | nil (x : τ) : Reaches Step x [] x
  | cons {x y z : τ} {b : β} {bs : List β} (hstep : Step x b y) (hrest : Reaches Step y bs z) :
    Reaches Step x (b :: bs) z

/-- A run whose steps are matched by steps of the relation is matched by a run of it. The
matching may use that the step is one of the run. -/
theorem exec_simulated {R : σ → τ → Prop} {f : α → β} (hR : R s x)
    (hstep : ∀ t a u y, Takes step s as t a u → R t y → ∃ z, Step y (f a) z ∧ R u z)
    (h : exec step s as = some t) : ∃ y, Reaches Step x (as.map f) y ∧ R t y := by
  induction as generalizing s x with
  | nil => exact ⟨x, .nil x, Option.some.inj h ▸ hR⟩
  | cons a as ih =>
    obtain ⟨u, hu, h⟩ := Option.bind_eq_some_iff.mp h
    obtain ⟨y, hy, hRy⟩ := hstep s a u x (takes_cons_iff.mpr (.inl ⟨rfl, rfl, hu⟩)) hR
    obtain ⟨z, hz, hRz⟩ := ih hRy
      (fun t b v y htv => hstep t b v y (takes_cons_iff.mpr (.inr ⟨u, hu, htv⟩))) h
    exact ⟨z, .cons hy hz, hRz⟩

/-- A stock `q` into which each step puts `f` and from which it takes `g`. -/
theorem exec_balance {q : σ → Multiset γ} {f g : σ → α → σ → List γ}
    (hstep : ∀ t a u, Takes step s as t a u → q t + f t a u = q u + g t a u)
    (h : exec step s as = some t) :
    q s + observe step f s as = q t + observe step g s as := by
  induction as generalizing s with
  | nil => simp [observe, Option.some.inj h]
  | cons a as ih =>
    obtain ⟨v, hv, h⟩ := Option.bind_eq_some_iff.mp h
    have hhead := hstep s a v (takes_cons_iff.mpr (.inl ⟨rfl, rfl, hv⟩))
    have htail := ih (fun x b y hxy => hstep x b y (takes_cons_iff.mpr (.inr ⟨v, hv, hxy⟩))) h
    rw [observe_cons f hv, observe_cons g hv, ← Multiset.coe_add, ← Multiset.coe_add, ← add_assoc,
      hhead, add_right_comm, htail, add_right_comm, add_assoc]

theorem observe_concat {u : σ} {a : α} (f : σ → α → σ → List γ) (h : exec step s as = some t)
    (hu : step t a = some u) : observe step f s (as ++ [a]) = observe step f s as ++ f t a u := by
  induction as generalizing s with
  | nil =>
    obtain rfl : s = t := Option.some.inj h
    simp [observe, hu]
  | cons b as ih =>
    obtain ⟨v, hv, h⟩ := Option.bind_eq_some_iff.mp h
    rw [List.cons_append, observe_cons f hv, observe_cons f hv, ih h, List.append_assoc]

/-- A list to which each step appends what it yields. -/
theorem exec_appends {q : σ → List γ} {f : σ → α → σ → List γ}
    (hstep : ∀ t a u, step t a = some u → q u = q t ++ f t a u) (h : exec step s as = some t) :
    q t = q s ++ observe step f s as := by
  induction as generalizing s with
  | nil => simp [observe, Option.some.inj h]
  | cons a as ih =>
    obtain ⟨v, hv, h⟩ := Option.bind_eq_some_iff.mp h
    rw [ih h, hstep s a v hv, observe_cons f hv, List.append_assoc]

/-- A counter modulo `m` of what the steps yield. -/
theorem exec_counts {q : σ → ℕ} {m : ℕ} {f : σ → α → σ → List γ}
    (hstep : ∀ t a u, step t a = some u → q u ≡ q t + (f t a u).length [MOD m])
    (h : exec step s as = some t) : q t ≡ q s + (observe step f s as).length [MOD m] := by
  induction as generalizing s with
  | nil => simp [observe, Option.some.inj h, Nat.ModEq]
  | cons a as ih =>
    obtain ⟨v, hv, h⟩ := Option.bind_eq_some_iff.mp h
    rw [observe_cons f hv, List.length_append, ← Nat.add_assoc]
    exact (ih h).trans ((hstep s a v hv).add_right _)

/-- Steps with labels in `P` lead from one state to the other. -/
def Leads (step : σ → α → Option σ) (P : α → Prop) (s t : σ) : Prop :=
  ∃ as, (∀ a ∈ as, P a) ∧ exec step s as = some t

namespace Leads

variable {P : α → Prop} {u : σ} {a : α}

theorem refl (s : σ) : Leads step P s s := ⟨[], by simp, rfl⟩

theorem cons (ha : P a) (hs : step s a = some t) (h : Leads step P t u) : Leads step P s u := by
  obtain ⟨as, has, hu⟩ := h
  refine ⟨a :: as, ?_, by rw [exec_cons, hs, Option.bind_some]; exact hu⟩
  simpa [ha] using has

theorem single (ha : P a) (hs : step s a = some t) : Leads step P s t := .cons ha hs (.refl t)

theorem trans (h : Leads step P s t) (h' : Leads step P t u) : Leads step P s u := by
  obtain ⟨as, has, ht⟩ := h
  obtain ⟨bs, hbs, hu⟩ := h'
  refine ⟨as ++ bs, ?_, by rw [exec_append, ht, Option.bind_some]; exact hu⟩
  intro a ha
  rcases List.mem_append.mp ha with ha | ha
  · exact has a ha
  · exact hbs a ha

theorem invariant_of {I : σ → Prop} (hs : I s)
    (hstep : ∀ t a u, P a → I t → step t a = some u → I u) (h : Leads step P s t) : I t := by
  obtain ⟨as, has, ht⟩ := h
  exact (Visits.of_exec ht).invariant_takes hs fun t a u hI hu => hstep t a u (has a hu.mem) hI hu.step_eq

theorem invariant {I : σ → Prop} (hs : I s) (hstep : ∀ t a u, I t → step t a = some u → I u)
    (h : Leads step P s t) : I t :=
  h.invariant_of hs fun t a u _ => hstep t a u

theorem mono {Q : α → Prop} (hPQ : ∀ a, P a → Q a) (h : Leads step P s t) : Leads step Q s t := by
  obtain ⟨as, has, ht⟩ := h
  exact ⟨as, fun a ha => hPQ a (has a ha), ht⟩

/-- The steps of a part are steps of the whole. -/
theorem lift {step' : τ → β → Option τ} {Q : β → Prop} {f : σ → τ} (g : α → β)
    (hstep : ∀ s a t, P a → step s a = some t → Q (g a) ∧ step' (f s) (g a) = some (f t))
    (h : Leads step P s t) : Leads step' Q (f s) (f t) := by
  obtain ⟨as, has, ht⟩ := h
  induction as generalizing s with
  | nil => exact Option.some.inj ht ▸ .refl _
  | cons a as ih =>
    obtain ⟨u, hu, ht⟩ := Option.bind_eq_some_iff.mp ht
    obtain ⟨hQ, hs⟩ := hstep s a u (has a List.mem_cons_self) hu
    exact .cons hQ hs (ih (fun b hb => has b (List.mem_cons_of_mem a hb)) ht)

/-- Where a measure can always be lowered until the goal is reached, the goal can be reached. -/
theorem to_goal {I G : σ → Prop} (μ : σ → Nat)
    (hstep : ∀ t a u, I t → step t a = some u → I u)
    (hlower : ∀ t, I t → ¬ G t → ∃ u, Leads step P t u ∧ μ u < μ t) (hs : I s) :
    ∃ t, Leads step P s t ∧ G t := by
  induction hn : μ s using Nat.strong_induction_on generalizing s with
  | _ n ih =>
    by_cases hG : G s
    · exact ⟨s, .refl s, hG⟩
    · obtain ⟨u, hu, hlt⟩ := hlower s hs hG
      obtain ⟨t, ht, hGt⟩ := ih (μ u) (hn ▸ hlt) (hu.invariant hs hstep) rfl
      exact ⟨t, hu.trans ht, hGt⟩

end Leads

end Tinyco
