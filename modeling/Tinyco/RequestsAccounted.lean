import Tinyco.RequestIntake

/-! Every connection and every datagram is accounted for, over every interleaving of the workers, the
master and what comes in. -/

namespace Tinyco

namespace Intake

variable {n : Nat} {α : Type*} {size : α → Nat} {c : Fin n → SrvWork} {s t : Intake n α} {p : Nat}
  {l m : Fin n} {a : ClusterLabel n} {k : Cluster n}

theorem coe_update_append (f : Fin n → List (Option α)) (x : Option α) (m : Fin n) :
    ((Function.update f l (f l ++ [x]) m : List (Option α)) : Multiset (Option α)) =
      f m + if m = l then {x} else 0 := by
  by_cases hm : m = l
  · subst hm
    rw [Function.update_self, if_pos rfl, ← Multiset.coe_add, Multiset.coe_singleton]
  · rw [Function.update_of_ne hm, if_neg hm, add_zero]

theorem outOfHand_addDropped (s : Intake n α) (l : Fin n) (x : Option α) (m : Fin n) :
    (s.addDropped l x).outOfHand m = s.outOfHand m + if m = l then {x} else 0 := by
  change _ + ((Function.update s.dropped l (s.dropped l ++ [x]) m : List (Option α)) :
    Multiset (Option α)) = _
  rw [coe_update_append, outOfHand]
  ac_rfl

/-- The head of the queue goes out of it. -/
theorem outOfHand_setQueue {x : α} {rest : List α} (hq : s.queue l = x :: rest) (m : Fin n) :
    s.outOfHand m = (s.setQueue l rest).outOfHand m + if m = l then {some x} else 0 := by
  by_cases hm : m = l
  · subst hm
    have hqueue : (((s.queue m).map some : List (Option α)) : Multiset (Option α)) =
        {some x} + ((rest.map some : List (Option α)) : Multiset (Option α)) := by
      rw [hq, List.map_cons, ← Multiset.cons_coe, Multiset.singleton_add]
    have hrest : (s.setQueue m rest).queue m = rest := Function.update_self ..
    rw [if_pos rfl, outOfHand, outOfHand, hrest, hqueue]
    change _ = _ + (s.works m : Multiset (Option α)) + s.dropped m + _
    ac_rfl
  · have hsame : (s.setQueue l rest).queue m = s.queue m := Function.update_of_ne hm ..
    rw [if_neg hm, add_zero, outOfHand, outOfHand, hsame]
    rfl

theorem item_setItem (s : Intake n α) (p : Nat) (l : Fin n) (x : α) (q : Nat) (m : Fin n) :
    (s.setItem p l x).item q m = if (q, m) = (p, l) then some x else s.item q m := by
  by_cases hq : q = p
  · subst hq
    by_cases hm : m = l <;> simp [setItem, hm]
  · simp [setItem, hq]

/-- What a call takes from the queue goes into the variable of its loop, or is an empty datagram. -/
theorem takes_cases (ht : s.takes size a = some t) :
    (a.hands = true ∧ ∃ p l x rest, a.caller = some (p, l) ∧ s.queue l = x :: rest ∧
      t = (s.setQueue l rest).setItem p l x) ∨
    (a.hands = false ∧ (t = s ∨ ∃ p l x rest, a.caller = some (p, l) ∧ s.queue l = x :: rest ∧
      size x = 0 ∧ t = (s.setQueue l rest).addDropped l (some x))) := by
  have htake {p : Nat} {l : Fin n} (h : s.take p l = some t) :
      ∃ x rest, s.queue l = x :: rest ∧ t = (s.setQueue l rest).setItem p l x := by
    rw [take] at h
    split at h
    · next x rest hq => exact ⟨x, rest, hq, (Option.some.inj h).symm⟩
    · cases h
  unfold takes at ht
  split at ht
  · next p l rs =>
    split at ht
    · next fd hfd =>
      split_ifs at ht with hle
      · obtain ⟨x, rest, hq, rfl⟩ := htake ht
        exact .inl ⟨by simp [ClusterLabel.hands, SrvReply.hands, hfd, hle],
          p, l, x, rest, rfl, hq, rfl⟩
      · exact .inr ⟨by simpa [ClusterLabel.hands, SrvReply.hands, hfd] using hle,
          .inl (Option.some.inj ht).symm⟩
    · next hnone =>
      exact .inr ⟨by simp [ClusterLabel.hands, SrvReply.hands, hnone],
        .inl (Option.some.inj ht).symm⟩
  · next p l rs =>
    split_ifs at ht with htook
    · rw [takeDatagram] at ht
      split at ht
      · next x rest hq =>
        rw [Option.ite_none_right_eq_some] at ht
        obtain ⟨hret, ht⟩ := ht
        split_ifs at ht with hsize
        · exact .inr ⟨by simp [ClusterLabel.hands, SrvReply.hands, hret, hsize],
            .inr ⟨p, l, x, rest, rfl, hq, hsize, (Option.some.inj ht).symm⟩⟩
        · obtain ⟨y, rest', hq', rfl⟩ := htake ht
          exact .inl ⟨by simp [ClusterLabel.hands, SrvReply.hands, hret]; omega,
            p, l, y, rest', rfl, hq', rfl⟩
      · cases ht
    · refine .inr ⟨?_, .inl (Option.some.inj ht).symm⟩
      by_contra hhands
      obtain ⟨ret, hret, hpos⟩ : ∃ ret, Frame.recvfrom rs = some ret ∧ 0 < ret := by
        simpa [ClusterLabel.hands, SrvReply.hands, Option.any_eq_true] using hhands
      exact htook (Frame.recvfromTook_of_pos hret hpos)
  · next hreply hrecv =>
    refine .inr ⟨?_, .inl (Option.some.inj ht).symm⟩
    cases a with
    | reply p l r =>
      cases r with
      | accept rs => exact absurd rfl (hreply p l rs)
      | recvfrom rs => exact absurd rfl (hrecv p l rs)
      | _ => rfl
    | _ => rfl

/-- The effect of the call of the loop of `p` on `l`: what it hands over has left the queue, and no
other variable changes. -/
theorem takes_effect (ha : a.caller = some (p, l)) (ht : s.takes size a = some t) :
    t.cluster = s.cluster ∧
      (∀ m, s.outOfHand m = t.outOfHand m + if m = l ∧ a.hands then {t.item p l} else 0) ∧
      (∀ q m, (q, m) ≠ (p, l) → t.item q m = s.item q m) ∧
      (a.hands = false → t.item = s.item) := by
  rcases takes_cases ht with ⟨hhands, q, m, x, rest, hqm, hq, rfl⟩ | ⟨hhands, rfl | hempty⟩
  · obtain ⟨rfl, rfl⟩ : q = p ∧ m = l := by simpa using hqm.symm.trans ha
    refine ⟨rfl, fun k => ?_, fun r k hne => by rw [item_setItem, if_neg hne]; rfl,
      fun hnot => by simp [hhands] at hnot⟩
    rw [item_setItem, if_pos rfl, outOfHand_setQueue hq]
    simp only [hhands, and_true]
    rfl
  · exact ⟨rfl, fun _ => by simp [hhands], fun _ _ _ => rfl, fun _ => rfl⟩
  · obtain ⟨q, m, x, rest, -, hq, -, rfl⟩ := hempty
    refine ⟨rfl, fun k => ?_, fun _ _ _ => rfl, fun _ => rfl⟩
    rw [outOfHand_addDropped, ← outOfHand_setQueue hq]
    simp [hhands]

theorem settle_of_caller (t : Intake n α) (ha : a.caller = some (p, l)) :
    t.settle k a =
      t.record p l ((t.cluster.loops p l).loop.point.fate (k.loops p l).loop.point) := by
  cases a <;> simp only [ClusterLabel.caller, Option.some.injEq, Prod.mk.injEq, reduceCtorEq] at ha
  all_goals
    obtain ⟨rfl, rfl⟩ := ha
    rfl

theorem settle_of_none (size : α → Nat) (ha : a.caller = none) (hdie : ∀ p, a ≠ .die p) :
    s.takes size a = some s ∧ s.settle k a = s := by
  cases a <;> simp only [ClusterLabel.caller, reduceCtorEq] at ha
  case die p => exact absurd rfl (hdie p)
  all_goals exact ⟨rfl, rfl⟩

end Intake

end Tinyco
