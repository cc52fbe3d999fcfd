import Tinyco.MasterPass

/-! How the master starts new workers: what one pass of `MasterRun` does to the table. -/

namespace Tinyco

/-- The pids of the workers forked for `p`. -/
def forkedFor (items : List (Nat × Option Nat)) (p : Nat) : List Nat :=
  items.filterMap fun i => if i.1 = p then i.2 else none

/-- The pids of new workers are not in use. -/
structure FreshForks (table : List Nat) (items : List (Nat × Option Nat)) : Prop where
  unused : ∀ q ∈ items.filterMap Prod.snd, q ∉ table ∧ ∀ i ∈ items, q ≠ i.1
  nodup : (items.filterMap Prod.snd).Nodup

/-- A slot whose pid was queued has a new worker or stays queued, and no other slot changes. -/
structure SlotsKept (table queue table' queue' forked : List Nat) : Prop where
  length_eq : table'.length = table.length
  queued : ∀ (i p : Nat), table[i]? = some p → p ∈ queue →
    (∃ q ∈ forked, table'[i]? = some q) ∨ (table'[i]? = some p ∧ p ∈ queue')
  others : ∀ (i p : Nat), table[i]? = some p → p ∉ queue → table'[i]? = some p

section Restart

variable {table table' : List Nat} {items : List (Nat × Option Nat)} {p q : Nat}

theorem replaceLast_of_notMem (h : p ∉ table) (q : Nat) : replaceLast p q table = none := by
  induction table with
  | nil => rfl
  | cons x xs ih =>
    obtain ⟨hx, hxs⟩ := List.ne_and_not_mem_of_not_mem_cons h
    simp [replaceLast, ih hxs, Ne.symm hx]

theorem replaceLast_of_nodup (hnodup : table.Nodup) (h : p ∈ table) (q : Nat) :
    replaceLast p q table = some (table.map fun x => if x = p then q else x) := by
  induction table with
  | nil => cases h
  | cons x xs ih =>
    obtain ⟨hx, hxs⟩ := List.nodup_cons.mp hnodup
    by_cases hp : p ∈ xs
    · have hne : x ≠ p := fun hxp => hx (hxp ▸ hp)
      simp [replaceLast, ih hxs hp, hne]
    · obtain rfl : p = x := (List.mem_cons.mp h).resolve_right hp
      have hmap : xs.map (fun y => if y = p then q else y) = xs := by
        refine (List.map_congr_left fun y hy => if_neg ?_).trans (List.map_id xs)
        exact fun hyp => hp (hyp ▸ hy)
      simp [replaceLast, replaceLast_of_notMem hp, hmap]

theorem forkedFor_cons_none (p' p : Nat) (items : List (Nat × Option Nat)) :
    forkedFor ((p', none) :: items) p = forkedFor items p := by
  simp [forkedFor]

theorem forkedFor_cons_self (p q : Nat) (items : List (Nat × Option Nat)) :
    forkedFor ((p, some q) :: items) p = q :: forkedFor items p := by
  simp [forkedFor]

theorem forkedFor_cons_of_ne {p' : Nat} (hne : p ≠ p') (q : Nat) (items : List (Nat × Option Nat)) :
    forkedFor ((p', some q) :: items) p = forkedFor items p := by
  simp [forkedFor, Ne.symm hne]

theorem forkedFor_subset (items : List (Nat × Option Nat)) (p : Nat) :
    forkedFor items p ⊆ items.filterMap Prod.snd := by
  intro q hq
  obtain ⟨i, hi, hq⟩ := List.mem_filterMap.mp hq
  split_ifs at hq
  exact List.mem_filterMap.mpr ⟨i, hi, hq⟩

theorem forkedFor_eq_nil (h : ∀ i ∈ items, p ≠ i.1) : forkedFor items p = [] := by
  refine List.filterMap_eq_nil_iff.mpr fun i hi => if_neg ?_
  exact fun he => h i hi he.symm

theorem FreshForks.of_none {p' : Nat} (h : FreshForks table ((p', none) :: items)) :
    FreshForks table items where
  unused q hq := by
    obtain ⟨ht, hi⟩ := h.unused q (by simpa using hq)
    exact ⟨ht, fun i hm => hi i (List.mem_cons_of_mem _ hm)⟩
  nodup := by simpa using h.nodup

theorem FreshForks.head {p' : Nat} (h : FreshForks table ((p', some q) :: items)) :
    q ∉ table ∧ q ≠ p' ∧ forkedFor items q = [] := by
  obtain ⟨ht, hi⟩ := h.unused q (by simp)
  exact ⟨ht, hi _ List.mem_cons_self,
    forkedFor_eq_nil fun i hm => hi i (List.mem_cons_of_mem _ hm)⟩

theorem FreshForks.of_some {p' : Nat} (h : FreshForks table ((p', some q) :: items)) :
    FreshForks (table.map fun x => if x = p' then q else x) items where
  unused r hr := by
    have hnodup : q ∉ items.filterMap Prod.snd ∧ (items.filterMap Prod.snd).Nodup := by
      simpa using h.nodup
    obtain ⟨ht, hi⟩ := h.unused r (by simp [hr])
    refine ⟨fun hm => ?_, fun i hm => hi i (List.mem_cons_of_mem _ hm)⟩
    obtain ⟨x, hx, he⟩ := List.mem_map.mp hm
    split_ifs at he
    · exact hnodup.1 (he ▸ hr)
    · exact ht (he ▸ hx)
  nodup := (List.nodup_cons.mp (by simpa using h.nodup)).2

theorem nodup_replaced (hnodup : table.Nodup) (hq : q ∉ table) (p : Nat) :
    (table.map fun x => if x = p then q else x).Nodup := by
  refine (List.nodup_map_iff_inj_on hnodup).mpr fun x hx y hy hxy => ?_
  split_ifs at hxy with hxp hyp hyp
  · rw [hxp, hyp]
  · exact absurd (hxy ▸ hy) hq
  · exact absurd (hxy ▸ hx) hq
  · exact hxy

/-- A pass that gets through has forked at most once for a pid, and only for one in the table. -/
theorem length_forkedFor_le (hnodup : table.Nodup) (hfresh : FreshForks table items)
    (h : restartEach table items = some table') (p : Nat) :
    (forkedFor items p).length ≤ if p ∈ table then 1 else 0 := by
  induction items generalizing table with
  | nil => simp [forkedFor]
  | cons i items ih =>
    obtain ⟨p', o⟩ := i
    cases o with
    | none =>
      rw [forkedFor_cons_none]
      exact ih hnodup hfresh.of_none h
    | some q =>
      obtain ⟨hq, hqp, hqnil⟩ := hfresh.head
      by_cases hp' : p' ∈ table
      · rw [restartEach, replaceLast_of_nodup hnodup hp', Option.bind_some] at h
        have hle := ih (nodup_replaced hnodup hq p') hfresh.of_some h
        by_cases hpp : p = p'
        · subst hpp
          have hgone : p ∉ table.map fun x => if x = p then q else x := by
            rintro hm
            obtain ⟨x, -, he⟩ := List.mem_map.mp hm
            split_ifs at he with hx
            · exact hqp he
            · exact hx he
          rw [if_neg hgone] at hle
          rw [forkedFor_cons_self, if_pos hp', List.length_cons]
          omega
        · rw [forkedFor_cons_of_ne hpp]
          by_cases hpq : p = q
          · simp [hpq, hqnil]
          · refine hle.trans ?_
            split_ifs with hm hp hp
            · exact le_rfl
            · obtain ⟨x, hx, he⟩ := List.mem_map.mp hm
              split_ifs at he
              · exact absurd he.symm hpq
              · exact absurd (he ▸ hx) hp
            · exact Nat.zero_le 1
            · exact le_rfl
      · rw [restartEach, replaceLast_of_notMem hp'] at h
        cases h

/-- With at most one fork for a pid the pass renames the slots. -/
theorem restartEach_eq_map (hnodup : table.Nodup) (hfresh : FreshForks table items)
    (hone : ∀ p, (forkedFor items p).length ≤ if p ∈ table then 1 else 0) :
    restartEach table items = some (table.map fun x => (forkedFor items x).headD x) := by
  induction items generalizing table with
  | nil => simp [restartEach, forkedFor]
  | cons i items ih =>
    obtain ⟨p', o⟩ := i
    cases o with
    | none =>
      simp only [forkedFor_cons_none] at hone ⊢
      exact ih hnodup hfresh.of_none hone
    | some q =>
      obtain ⟨hq, hqp, hqnil⟩ := hfresh.head
      have hself := hone p'
      rw [forkedFor_cons_self, List.length_cons] at hself
      have hp' : p' ∈ table := by
        by_contra hp'
        rw [if_neg hp'] at hself
        omega
      have hnil : forkedFor items p' = [] := by
        rw [if_pos hp'] at hself
        exact List.length_eq_zero_iff.mp (by omega)
      have hrest (p : Nat) : (forkedFor items p).length ≤
          if p ∈ table.map (fun x => if x = p' then q else x) then 1 else 0 := by
        by_cases hpp : p = p'
        · simp [hpp, hnil]
        · refine (forkedFor_cons_of_ne hpp q items ▸ hone p).trans ?_
          split_ifs with hp hm hm
          · exact le_rfl
          · exact (hm (List.mem_map.mpr ⟨p, hp, if_neg hpp⟩)).elim
          · exact Nat.zero_le 1
          · exact le_rfl
      rw [restartEach, replaceLast_of_nodup hnodup hp', Option.bind_some,
        ih (nodup_replaced hnodup hq p') hfresh.of_some hrest, List.map_map]
      refine congrArg some (List.map_congr_left fun x _ => ?_)
      by_cases hx : x = p'
      · simp [hx, hqnil, forkedFor_cons_self]
      · simp [hx, forkedFor_cons_of_ne hx]

theorem slotsKept_map_iff (hqueue : ∀ i ∈ items, i.1 ∈ table) (hfresh : FreshForks table items) :
    SlotsKept table (items.map Prod.fst) (table.map fun x => (forkedFor items x).headD x) []
      (items.filterMap Prod.snd) ↔ ∀ i ∈ items, forkedFor items i.1 ≠ [] := by
  constructor
  · intro h i hi hnil
    obtain ⟨k, hk⟩ := List.mem_iff_getElem?.mp (hqueue i hi)
    rcases h.queued k i.1 hk (List.mem_map_of_mem hi) with ⟨q, hq, hslot⟩ | ⟨-, hm⟩
    · obtain rfl : i.1 = q := by simpa [hk, hnil] using hslot
      exact (hfresh.unused _ hq).1 (hqueue i hi)
    · cases hm
  · intro h
    refine ⟨List.length_map _, fun k p hk hp => ?_, fun k p hk hp => ?_⟩
    · obtain ⟨i, hi, rfl⟩ := List.mem_map.mp hp
      obtain ⟨q, l, hl⟩ := List.exists_cons_of_ne_nil (h i hi)
      have hq : q ∈ forkedFor items i.1 := by simp [hl]
      exact .inl ⟨q, forkedFor_subset items i.1 hq, by simp [hk, hl]⟩
    · have hnil : forkedFor items p = [] :=
        forkedFor_eq_nil fun i hi he => hp (he ▸ List.mem_map_of_mem hi)
      simp [hk, hnil]

end Restart

/-- A pass of `MasterRun` ends, with no worker slot lost, exactly if of the forks made for each
queued pid one succeeds. -/
theorem slots_kept_iff_forked_once {table : List Nat} {items : List (Nat × Option Nat)}
    (hnodup : table.Nodup) (hqueue : ∀ i ∈ items, i.1 ∈ table) (hfresh : FreshForks table items) :
    (∃ table' queue', masterPass table items = some (table', queue') ∧
      SlotsKept table (items.map Prod.fst) table' queue' (items.filterMap Prod.snd)) ↔
    ∀ i ∈ items, (forkedFor items i.1).length = 1 := by
  constructor
  · rintro ⟨table', queue', hpass, hkept⟩ i hi
    obtain ⟨t, heach, ht⟩ := Option.map_eq_some_iff.mp hpass
    obtain ⟨rfl, rfl⟩ := Prod.mk.inj ht
    have hone := length_forkedFor_le hnodup hfresh heach
    obtain rfl := Option.some.inj ((restartEach_eq_map hnodup hfresh hone).symm.trans heach)
    have hpos := List.length_pos_iff.mpr ((slotsKept_map_iff hqueue hfresh).mp hkept i hi)
    have hle := hone i.1
    rw [if_pos (hqueue i hi)] at hle
    omega
  · intro h
    have hone (p : Nat) : (forkedFor items p).length ≤ if p ∈ table then 1 else 0 := by
      by_cases hp : ∃ i ∈ items, p = i.1
      · obtain ⟨i, hi, rfl⟩ := hp
        rw [if_pos (hqueue i hi), h i hi]
      · rw [forkedFor_eq_nil fun i hi he => hp ⟨i, hi, he⟩]
        exact Nat.zero_le _
    refine ⟨_, [], by rw [masterPass, restartEach_eq_map hnodup hfresh hone]; rfl, ?_⟩
    refine (slotsKept_map_iff hqueue hfresh).mpr fun i hi hnil => ?_
    simpa [hnil] using h i hi

theorem two_workers_restarted :
    ∃ table' queue', masterPass [4, 5, 6] [(6, some 8), (4, some 9)] = some (table', queue') ∧
      SlotsKept [4, 5, 6] [6, 4] table' queue' [8, 9] :=
  (slots_kept_iff_forked_once (by decide) (by decide) ⟨by decide, by decide⟩).mpr (by decide)

/-- A fork fails: the slot keeps the pid of the dead worker, and the queue is cleared. -/
theorem failed_fork_loses_slot :
    masterPass [4, 5] [(4, none)] = some ([4, 5], []) ∧
    ¬ ∀ (table : List Nat) items, table.Nodup → (∀ i ∈ items, i.1 ∈ table) →
      FreshForks table items → ∃ table' queue', masterPass table items = some (table', queue') ∧
        SlotsKept table (items.map Prod.fst) table' queue' (items.filterMap Prod.snd) := by
  refine ⟨rfl, fun hall => ?_⟩
  obtain ⟨t, qu, hpass, hkept⟩ :=
    hall [4, 5] [(4, none)] (by decide) (by decide) ⟨by decide, by decide⟩
  obtain ⟨rfl, rfl⟩ := Prod.mk.inj (Option.some.inj hpass)
  rcases hkept.queued 0 4 rfl (by decide) with ⟨q, hq, -⟩ | ⟨-, hm⟩
  · cases hq
  · cases hm

end Tinyco
