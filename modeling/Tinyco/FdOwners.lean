import Mathlib.Data.Finset.Card
import Tinyco.AssocMap
import Tinyco.Bytes

/-! The open descriptors of a worker and who has them. Each way in which a descriptor is opened,
handed on or closed keeps the owners apart. -/

namespace Tinyco

/-- Who has which open descriptor: a work, a listener or the loop that has control. -/
structure FdInvariant {n : Nat} (inHand : Option Int) (listenFds : Fin n → Option Int)
    (openFds : Finset Int) (works : List Int) (conns : AssocMap Int Unit) : Prop where
  keys : ∀ fd, fd ∈ conns.keys ↔ fd ∈ works
  nodup : works.Nodup
  isOpen : ∀ fd ∈ works, fd ∈ openFds
  isInt : ∀ fd ∈ works, 0 ≤ fd ∧ fd < 2 ^ 31
  inHand : ∀ fd, inHand = some fd → fd ∈ openFds ∧ fd ∉ works ∧ (∀ i, listenFds i ≠ some fd) ∧
    0 ≤ fd ∧ fd < 2 ^ 31
  listen : ∀ i fd, listenFds i = some fd → fd ∈ openFds ∧ fd ∉ works
  listen_inj : ∀ i j fd, listenFds i = some fd → listenFds j = some fd → i = j

namespace FdInvariant

variable {n : Nat} {inHand : Option Int} {listenFds : Fin n → Option Int} {openFds : Finset Int}
  {works : List Int} {conns : AssocMap Int Unit} {fd : Int}

theorem forget (h : FdInvariant inHand listenFds openFds works conns) :
    FdInvariant none listenFds openFds works conns :=
  { h with inHand := fun _ hfd => by simp at hfd }

theorem open_fd (h : FdInvariant none listenFds openFds works conns) (fd : Int) :
    FdInvariant none listenFds (insert fd openFds) works conns :=
  { h with
    isOpen := fun x hx => Finset.mem_insert_of_mem (h.isOpen x hx)
    inHand := fun _ hfd => by simp at hfd
    listen := fun i x hx => ⟨Finset.mem_insert_of_mem (h.listen i x hx).1, (h.listen i x hx).2⟩ }

theorem close_fd (h : FdInvariant none listenFds openFds works conns) (hw : fd ∉ works)
    (hl : ∀ i, listenFds i ≠ some fd) :
    FdInvariant none listenFds (openFds.erase fd) works conns :=
  { h with
    isOpen := fun x hx => Finset.mem_erase.mpr ⟨fun hxf => hw (hxf ▸ hx), h.isOpen x hx⟩
    inHand := fun _ hfd => by simp at hfd
    listen := fun i x hx =>
      ⟨Finset.mem_erase.mpr ⟨fun hxf => hl i (hxf ▸ hx), (h.listen i x hx).1⟩, (h.listen i x hx).2⟩ }

theorem accept (h : FdInvariant none listenFds openFds works conns) (hfd : fd ∉ openFds)
    (h0 : 0 ≤ fd) (hlt : fd < 2 ^ 31) :
    FdInvariant (some fd) listenFds (insert fd openFds) works conns :=
  { h.open_fd fd with
    inHand := fun x hx => by
      obtain rfl := Option.some.inj hx
      exact ⟨Finset.mem_insert_self fd openFds, fun hw => hfd (h.isOpen fd hw),
        fun i hi => hfd (h.listen i fd hi).1, h0, hlt⟩ }

theorem close (h : FdInvariant (some fd) listenFds openFds works conns) :
    FdInvariant none listenFds (openFds.erase fd) works conns := by
  obtain ⟨-, hw, hl, -⟩ := h.inHand fd rfl
  exact h.forget.close_fd hw hl

theorem build (h : FdInvariant (some fd) listenFds openFds works conns) :
    FdInvariant none listenFds openFds (works ++ [fd]) (conns.assign fd ()) := by
  obtain ⟨hopen, hw, hl, hint⟩ := h.inHand fd rfl
  refine ⟨fun x => ?_, ?_, fun x hx => ?_, fun x hx => ?_, fun _ hx => by simp at hx,
    fun i x hx => ⟨(h.listen i x hx).1, fun hm => ?_⟩, h.listen_inj⟩
  · rw [AssocMap.mem_keys_assign, h.keys, List.mem_append, List.mem_singleton, or_comm]
  · exact List.nodup_append.mpr ⟨h.nodup, List.nodup_singleton fd, fun x hx y hy hxy =>
      hw (by rwa [← List.mem_singleton.mp hy, ← hxy])⟩
  · rcases List.mem_append.mp hx with hx | hx
    · exact h.isOpen x hx
    · exact List.mem_singleton.mp hx ▸ hopen
  · rcases List.mem_append.mp hx with hx | hx
    · exact h.isInt x hx
    · exact List.mem_singleton.mp hx ▸ hint
  · rcases List.mem_append.mp hm with hm | hm
    · exact (h.listen i x hx).2 hm
    · exact hl i (List.mem_singleton.mp hm ▸ hx)

theorem deleteListener (h : FdInvariant none listenFds openFds works conns) {i : Fin n}
    (hi : listenFds i = some fd) :
    FdInvariant none (Function.update listenFds i none) (openFds.erase fd) works conns := by
  have hback {j : Fin n} {x : Int} (hx : Function.update listenFds i none j = some x) :
      j ≠ i ∧ listenFds j = some x := by
    by_cases hji : j = i
    · subst hji
      simp at hx
    · exact ⟨hji, by rwa [Function.update_of_ne hji] at hx⟩
  have hw : fd ∉ works := (h.listen i fd hi).2
  refine ⟨h.keys, h.nodup, fun x hx => ?_, h.isInt, fun _ hx => by simp at hx, fun j x hx => ?_,
    fun j k x hj hk => h.listen_inj j k x (hback hj).2 (hback hk).2⟩
  · exact Finset.mem_erase.mpr ⟨fun hxf => hw (hxf ▸ hx), h.isOpen x hx⟩
  · obtain ⟨hji, hj⟩ := hback hx
    have hne : x ≠ fd := fun hxf => hji (h.listen_inj j i fd (hxf ▸ hj) hi)
    exact ⟨Finset.mem_erase.mpr ⟨hne, (h.listen j x hj).1⟩, (h.listen j x hj).2⟩

theorem finish (h : FdInvariant none listenFds openFds works conns) (hfd : fd ∈ works) :
    FdInvariant none listenFds (openFds.erase fd) (works.erase fd) (conns.erase fd) := by
  have hmem (x : Int) : x ∈ works.erase fd ↔ x ≠ fd ∧ x ∈ works := h.nodup.mem_erase_iff
  refine ⟨fun x => ?_, h.nodup.erase fd, fun x hx => ?_, fun x hx => h.isInt x ((hmem x).mp hx).2,
    fun _ hx => by simp at hx, fun i x hx => ?_, h.listen_inj⟩
  · rw [AssocMap.mem_keys_erase, h.keys, hmem]
  · exact Finset.mem_erase.mpr ⟨((hmem x).mp hx).1, h.isOpen x ((hmem x).mp hx).2⟩
  · obtain ⟨ho, hw⟩ := h.listen i x hx
    exact ⟨Finset.mem_erase.mpr ⟨fun hxf => hw (hxf ▸ hfd), ho⟩, fun hm => hw ((hmem x).mp hm).2⟩

theorem length_keys (h : FdInvariant inHand listenFds openFds works conns) :
    conns.keys.length % 2 ^ 32 = works.length := by
  have hperm : conns.keys.Perm works :=
    (List.perm_ext_iff_of_nodup conns.nodupKeys h.nodup).mpr h.keys
  have hnodup : (works.map Int.toNat).Nodup := by
    refine (List.nodup_map_iff_inj_on h.nodup).mpr fun x hx y hy hxy => ?_
    have hx0 := (h.isInt x hx).1
    have hy0 := (h.isInt y hy).1
    omega
  have hle : (works.map Int.toNat).toFinset.card ≤ (Finset.range (2 ^ 31)).card := by
    refine Finset.card_le_card fun x hx => ?_
    obtain ⟨y, hy, rfl⟩ := List.mem_map.mp (List.mem_toFinset.mp hx)
    have hy' := h.isInt y hy
    exact Finset.mem_range.mpr (by omega)
  rw [List.toFinset_card_of_nodup hnodup, List.length_map, Finset.card_range] at hle
  rw [hperm.length_eq, Nat.mod_eq_of_lt (by omega)]

end FdInvariant

end Tinyco
