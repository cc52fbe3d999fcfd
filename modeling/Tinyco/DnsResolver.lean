import Mathlib.Data.List.GetD
import Tinyco.AssocMap
import Tinyco.Bytes
import Tinyco.Runs
import Tinyco.WrappingCounter

/-! `dns/dns_resolve_impl`: the cached addresses of a domain with their round robin, and
`Resolve`, which leaves the processor to other coroutines while the name server is asked. -/

namespace Tinyco

/-- `af_inet_ip` of `network::IP`. -/
abbrev IP := UInt32

structure ResCache where
  ip : List IP
  timeout : UInt32
  idx : UInt32
  deriving DecidableEq

namespace ResCache

/-- What `res_cache_[domain]` makes for a domain without an entry. -/
def new : ResCache := ⟨[], 0, 0⟩

def position (c : ResCache) : ℕ := c.idx.toNat % c.ip.length

def pickOne (c : ResCache) : IP × ResCache :=
  if c.ip.isEmpty then (0, c) else (c.ip.getD c.position 0, { c with idx := c.idx + 1 })

def picked (c : ResCache) : ℕ → ResCache
  | 0 => c
  | k + 1 => c.pickOne.2.picked k

def positions (c : ResCache) : ℕ → List ℕ
  | 0 => []
  | n + 1 => c.position :: c.pickOne.2.positions n

@[simp] theorem ip_pickOne (c : ResCache) : c.pickOne.2.ip = c.ip := by
  unfold pickOne
  split <;> rfl

@[simp] theorem timeout_pickOne (c : ResCache) : c.pickOne.2.timeout = c.timeout := by
  unfold pickOne
  split <;> rfl

variable {c : ResCache}

theorem pickOne_of_ne_nil (hc : c.ip ≠ []) :
    c.pickOne = (c.ip.getD c.position 0, { c with idx := c.idx + 1 }) := by
  simp [pickOne, hc]

theorem position_lt (hc : c.ip ≠ []) : c.position < c.ip.length :=
  Nat.mod_lt _ (List.length_pos_of_ne_nil hc)

theorem pickOne_mem (hc : c.ip ≠ []) : c.pickOne.1 ∈ c.ip := by
  rw [pickOne_of_ne_nil hc, List.getD_eq_getElem _ _ (position_lt hc)]
  exact List.getElem_mem _

@[simp] theorem ip_picked (c : ResCache) (k : ℕ) : (c.picked k).ip = c.ip := by
  induction k generalizing c with
  | zero => rfl
  | succ k ih => rw [picked, ih, ip_pickOne]

theorem idx_picked (hc : c.ip ≠ []) (k : ℕ) :
    (c.picked k).idx.toNat = (c.idx.toNat + k) % 2 ^ 32 := by
  induction k generalizing c with
  | zero => exact (Nat.mod_eq_of_lt c.idx.toNat_lt).symm
  | succ k ih =>
    have hnext : c.pickOne.2.idx.toNat = (c.idx.toNat + 1) % 2 ^ 32 := by
      rw [pickOne_of_ne_nil hc]
      exact UInt32.toNat_add c.idx 1
    rw [picked, ih (by simpa using hc), hnext, Nat.mod_add_mod, Nat.add_assoc, Nat.add_comm 1 k]

theorem positions_eq_map (c : ResCache) (n : ℕ) :
    c.positions n = (List.range n).map fun j => (c.picked j).position := by
  induction n generalizing c with
  | zero => rfl
  | succ n ih =>
    rw [positions, ih, List.range_succ_eq_map]
    simp [picked, Function.comp_def]

theorem positions_eq_wrappedPlaces (hc : c.ip ≠ []) :
    c.positions c.ip.length = wrappedPlaces (2 ^ 32) c.ip.length c.idx.toNat := by
  rw [positions_eq_map, wrappedPlaces]
  refine List.map_congr_left fun j _ => ?_
  rw [position, idx_picked hc, ip_picked]

theorem positions_perm_iff (hc : c.ip ≠ []) :
    (c.positions c.ip.length).Perm (List.range c.ip.length) ↔
      c.idx.toNat + c.ip.length ≤ 2 ^ 32 ∨ c.ip.length ∣ 2 ^ 32 := by
  rw [positions_eq_wrappedPlaces hc]
  exact wrappedPlaces_perm_iff (List.length_pos_of_ne_nil hc) c.idx.toNat_lt

/-- A full turn of `PickOne` returns every stored position once exactly when `idx` does not wrap
during the turn or the number of addresses divides `2 ^ 32`; every pick is inside the vector. -/
theorem full_turn_iff (c : ResCache) (hc : c.ip ≠ []) :
    ((c.positions c.ip.length).Perm (List.range c.ip.length) ∧
        ∀ k, (c.picked k).position < c.ip.length ∧
          some (c.picked k).pickOne.1 = c.ip[(c.picked k).position]?) ↔
      c.idx.toNat + c.ip.length ≤ 2 ^ 32 ∨ c.ip.length ∣ 2 ^ 32 := by
  rw [positions_perm_iff hc]
  refine and_iff_left fun k => ?_
  have hk : (c.picked k).ip ≠ [] := by rwa [ip_picked]
  have hlt : (c.picked k).position < c.ip.length := by simpa using position_lt hk
  refine ⟨hlt, ?_⟩
  rw [pickOne_of_ne_nil hk, ip_picked, List.getD_eq_getElem _ _ hlt, List.getElem?_eq_getElem hlt]

theorem full_turn_four_addresses :
    (⟨[1, 2, 3, 4], 0, 0xffffffff⟩ : ResCache).ip ≠ [] ∧
      ((⟨[1, 2, 3, 4], 0, 0xffffffff⟩ : ResCache).positions 4).Perm (List.range 4) := by
  refine ⟨by simp, ?_⟩
  exact ((full_turn_iff ⟨[1, 2, 3, 4], 0, 0xffffffff⟩ (by simp)).mpr (.inr ⟨2 ^ 30, rfl⟩)).1

/-- With three addresses the turn that `idx` wraps in returns position 0 twice and leaves one out:
`2 ^ 32 - 1` picks lead to it from a new entry. -/
theorem turn_across_wrap_unfair :
    ∃ k, ¬ (((⟨[1, 2, 3], 0, 0⟩ : ResCache).picked k).positions 3).Perm (List.range 3) := by
  refine ⟨2 ^ 32 - 1, fun h => ?_⟩
  have hne : ((⟨[1, 2, 3], 0, 0⟩ : ResCache).picked (2 ^ 32 - 1)).ip ≠ [] := by simp
  have hlen : ((⟨[1, 2, 3], 0, 0⟩ : ResCache).picked (2 ^ 32 - 1)).ip.length = 3 := by simp
  have hidx : ((⟨[1, 2, 3], 0, 0⟩ : ResCache).picked (2 ^ 32 - 1)).idx.toNat = 2 ^ 32 - 1 := by
    rw [idx_picked (by simp)]
    simp
  have hfair := (positions_perm_iff hne).mp (by rwa [hlen])
  rw [hlen, hidx] at hfair
  omega

end ResCache

/-- The results of the calls `Resolve` makes before it asks the name server. -/
structure AresEnv where
  libraryInit : Int
  initOptions : Int
  mkquery : Int
  nservers : Int

/-- A reply of the name server that was decoded, and the time in milliseconds it was stored at. -/
structure AcceptedReply where
  addrs : List IP
  time : ℕ

/-- A call that returned: `none` stands for false, an address for true and what `*ip` is then. -/
structure Resolved where
  domain : Bytes
  answer : Option IP
  deriving DecidableEq

/-- The process as `Resolve` sees it: `mstime`, the static data of the resolver and the calls that
wait in `UdpSendAndRecv`, by coroutine. The last two fields only record what happened. -/
structure Resolver where
  mstime : ℕ
  aresChannelInit : Bool
  resCache : AssocMap Bytes ResCache
  waiting : AssocMap ℕ Bytes
  lastReply : AssocMap Bytes AcceptedReply
  returned : Option Resolved

inductive ResolverEvent where
  | tick (ms : ℕ)
  | resolve (co : ℕ) (domain : Bytes) (env : AresEnv)
  | udpReply (co : ℕ) (ret : Int) (ht : Option (List IP))

namespace Resolver

def start (mstime : ℕ) : Resolver := ⟨mstime, false, .empty, .empty, .empty, none⟩

def answering (s : Resolver) (domain : Bytes) (answer : Option IP) : Resolver :=
  { s with returned := some ⟨domain, answer⟩ }

def cached (s : Resolver) (domain : Bytes) : Option ResCache :=
  (s.resCache.find domain).filter fun c => c.timeout.toNat > s.mstime / 1000

/-- `Resolve` up to its return or to `UdpSendAndRecv`. -/
def resolve (s : Resolver) (co : ℕ) (domain : Bytes) (env : AresEnv) : Resolver :=
  if !s.aresChannelInit && (env.libraryInit != 0 || env.initOptions != 0) then
    s.answering domain none
  else
    let s := { s with aresChannelInit := true }
    match s.cached domain with
    | some c =>
      { s with resCache := s.resCache.assign domain c.pickOne.2 }.answering domain (some c.pickOne.1)
    | none =>
      if env.mkquery != 0 || env.nservers ≤ 0 then s.answering domain none
      else { s with waiting := s.waiting.assign co domain, returned := none }

/-- The entry that a reply is stored in: its addresses go behind those that are there already. -/
def refreshed (s : Resolver) (domain : Bytes) (addrs : List IP) : ResCache :=
  let n := (s.resCache.find domain).getD .new
  { n with timeout := UInt32.ofNat (s.mstime / 1000 + 5 * 60), ip := n.ip ++ addrs }

/-- `Resolve` from a decoded reply on. -/
def store (s : Resolver) (domain : Bytes) (addrs : List IP) : Resolver :=
  let n := s.refreshed domain addrs
  { s with
    resCache := s.resCache.assign domain n.pickOne.2
    lastReply := s.lastReply.assign domain ⟨addrs, s.mstime⟩ }.answering domain (some n.pickOne.1)

/-- `Resolve` from the return of `UdpSendAndRecv` on. -/
def reply (s : Resolver) (domain : Bytes) (ret : Int) (ht : Option (List IP)) : Resolver :=
  if ret < 0 then s.answering domain none
  else
    match ht with
    | none => s.answering domain none
    | some addrs => s.store domain addrs

def step (s : Resolver) : ResolverEvent → Option Resolver
  | .tick ms => some { s with mstime := s.mstime + ms, returned := none }
  | .resolve co domain env =>
    -- a coroutine that waits does not call
    if co ∈ s.waiting.keys then none else some (s.resolve co domain env)
  | .udpReply co ret ht =>
    (s.waiting.find co).map fun domain =>
      { s with waiting := s.waiting.erase co }.reply domain ret ht

end Resolver

end Tinyco
