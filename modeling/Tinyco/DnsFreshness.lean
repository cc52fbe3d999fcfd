import Tinyco.DnsResolver

/-! What the answers of `Resolve` have to do with the replies of the name server, over every
run of any number of coroutines. -/

namespace Tinyco

namespace Resolver

variable {s t u : Resolver} {e : ResolverEvent} {es : List ResolverEvent}

/-- An answer that has just been returned is in the last reply accepted for its domain, and that
reply is less than 300 seconds old. -/
def Fresh (s : Resolver) : Prop :=
  ∀ domain ip, s.returned = some ⟨domain, some ip⟩ →
    ∃ r, s.lastReply.find domain = some r ∧ ip ∈ r.addrs ∧ s.mstime / 1000 < r.time / 1000 + 300

/-- A reply that is accepted is not empty and lists every address stored for its domain. -/
def Supersedes (s : Resolver) : ResolverEvent → Prop
  | .udpReply co ret (some addrs) =>
    0 ≤ ret → addrs ≠ [] ∧ ∀ domain c, s.waiting.find co = some domain →
      s.resCache.find domain = some c → ∀ ip ∈ c.ip, ip ∈ addrs
  | _ => True

/-- What a step does to the cache and what it answers. -/
inductive Moved (s : Resolver) : ResolverEvent → Resolver → Prop
  | silent {e : ResolverEvent} {u : Resolver} (hcache : u.resCache = s.resCache)
      (hlast : u.lastReply = s.lastReply)
      (hret : ∀ domain ip, u.returned ≠ some ⟨domain, some ip⟩) :
      Moved s e u
  | hit {e : ResolverEvent} {u : Resolver} {domain : Bytes} {c : ResCache}
      (hc : s.resCache.find domain = some c)
      (hvalid : s.mstime / 1000 < c.timeout.toNat)
      (hcache : u.resCache = s.resCache.assign domain c.pickOne.2)
      (hlast : u.lastReply = s.lastReply) (htime : u.mstime = s.mstime)
      (hret : u.returned = some ⟨domain, some c.pickOne.1⟩) : Moved s e u
  | stored {co : ℕ} {ret : Int} {domain : Bytes} {addrs : List IP}
      (hco : s.waiting.find co = some domain) (hret : 0 ≤ ret) :
      Moved s (.udpReply co ret (some addrs))
        ({ s with waiting := s.waiting.erase co }.store domain addrs)

theorem moved_resolve (co : ℕ) (domain : Bytes) (env : AresEnv) :
    Moved s (.resolve co domain env) (s.resolve co domain env) := by
  unfold resolve
  split
  · exact .silent rfl rfl (by simp [answering])
  · dsimp only
    split
    next c hc =>
      obtain ⟨hfind, hvalid⟩ := Option.filter_eq_some_iff.mp hc
      exact .hit hfind (by simpa using hvalid) rfl rfl rfl rfl
    next =>
      split
      · exact .silent rfl rfl (by simp [answering])
      · exact .silent rfl rfl (by simp)

theorem moved_of_step (h : s.step e = some u) : Moved s e u := by
  cases e with
  | tick ms =>
    obtain rfl := Option.some.inj h
    exact .silent rfl rfl (by simp)
  | resolve co domain env =>
    simp only [step] at h
    split at h
    · cases h
    · obtain rfl := Option.some.inj h
      exact moved_resolve co domain env
  | udpReply co ret ht =>
    obtain ⟨domain, hco, rfl⟩ := Option.map_eq_some_iff.mp h
    unfold reply
    split
    · exact .silent rfl rfl (by simp [answering])
    · cases ht with
      | none => exact .silent rfl rfl (by simp [answering])
      | some addrs => exact .stored hco (by omega)

structure Backed (c : ResCache) (r : AcceptedReply) : Prop where
  ne_nil : c.ip ≠ []
  subset : ∀ ip ∈ c.ip, ip ∈ r.addrs
  timeout_le : c.timeout.toNat ≤ r.time / 1000 + 300

theorem Backed.pickOne {c : ResCache} {r : AcceptedReply} (h : Backed c r) :
    Backed c.pickOne.2 r where
  ne_nil := by simpa using h.ne_nil
  subset := by simpa using h.subset
  timeout_le := by simpa using h.timeout_le

def AllBacked (s : Resolver) : Prop :=
  ∀ domain c, s.resCache.find domain = some c → ∃ r, s.lastReply.find domain = some r ∧ Backed c r

theorem backed_refreshed {domain : Bytes} {addrs : List IP} (hne : addrs ≠ [])
    (hall : ∀ c, s.resCache.find domain = some c → ∀ ip ∈ c.ip, ip ∈ addrs) :
    Backed (s.refreshed domain addrs) ⟨addrs, s.mstime⟩ where
  ne_nil := by simp [refreshed, hne]
  subset := by
    intro ip hip
    rcases List.mem_append.mp hip with hold | hnew
    · cases hc : s.resCache.find domain with
      | none => simp [hc, ResCache.new] at hold
      | some c => exact hall c hc ip (by simpa [hc] using hold)
    · exact hnew
  timeout_le := by
    rw [refreshed, UInt32.toNat_ofNat']
    exact Nat.mod_le _ _

theorem allBacked_assign {domain : Bytes} {c : ResCache} {r : AcceptedReply} (h : s.AllBacked)
    (hcache : u.resCache = s.resCache.assign domain c) (hlast : u.lastReply.find domain = some r)
    (hother : ∀ d, domain ≠ d → u.lastReply.find d = s.lastReply.find d) (hb : Backed c r) :
    u.AllBacked := by
  intro d c' hc'
  rw [hcache, AssocMap.find_assign] at hc'
  split_ifs at hc' with hd
  · subst hd
    cases hc'
    exact ⟨r, hlast, hb⟩
  · rw [hother d hd]
    exact h d c' hc'

theorem fresh_of_returned {domain : Bytes} {c : ResCache} {r : AcceptedReply}
    (hret : s.returned = some ⟨domain, some c.pickOne.1⟩)
    (hlast : s.lastReply.find domain = some r) (hb : Backed c r)
    (htime : s.mstime / 1000 < r.time / 1000 + 300) : s.Fresh := by
  intro d ip hd
  rw [hret] at hd
  cases hd
  exact ⟨r, hlast, hb.subset _ (ResCache.pickOne_mem hb.ne_nil), htime⟩

theorem Moved.allBacked_fresh (h : s.AllBacked) (hm : Moved s e u) (hsup : s.Supersedes e) :
    u.AllBacked ∧ u.Fresh := by
  cases hm with
  | silent hcache hlast hret =>
    refine ⟨?_, fun domain ip hip => absurd hip (hret domain ip)⟩
    simpa [AllBacked, hcache, hlast] using h
  | @hit _ _ domain c hc hvalid hcache hlast htime hret =>
    obtain ⟨r, hr, hb⟩ := h domain c hc
    have hur : u.lastReply.find domain = some r := by rw [hlast, hr]
    have hle := hb.timeout_le
    exact ⟨allBacked_assign h hcache hur (fun d _ => by rw [hlast]) hb.pickOne,
      fresh_of_returned hret hur hb (by omega)⟩
  | @stored co ret domain addrs hco hret =>
    obtain ⟨hne, hall⟩ := hsup hret
    have hb : Backed (s.refreshed domain addrs) ⟨addrs, s.mstime⟩ :=
      backed_refreshed hne fun c hc => hall domain c hco hc
    have hlast := AssocMap.find_assign_self s.lastReply domain ⟨addrs, s.mstime⟩
    exact ⟨allBacked_assign h rfl hlast (fun d hd => AssocMap.find_assign_ne _ _ hd) hb.pickOne,
      fresh_of_returned rfl hlast hb (by simp [store, answering])⟩

/-- In a run in which every reply accepted for a domain is non-empty and lists the addresses stored
for it, every answer is in the last reply, and that reply is less than 300 seconds old. -/
theorem answers_fresh (mstime : ℕ) (es : List ResolverEvent)
    (hsup : ∀ t e u, Takes step (start mstime) es t e u → t.Supersedes e)
    (s : Resolver) (hs : Visits step (start mstime) es s) : s.Fresh := by
  have hstart : (start mstime).AllBacked ∧ (start mstime).Fresh := by
    constructor
    · intro domain c hc
      cases hc
    · intro domain ip hip
      cases hip
  have hinv : s.AllBacked ∧ s.Fresh := by
    refine hs.invariant_takes (I := fun s => s.AllBacked ∧ s.Fresh) hstart fun t e u ht htake => ?_
    exact (moved_of_step htake.step_eq).allBacked_fresh ht.1 (hsup t e u htake)
  exact hinv.2

/-- A name is resolved to the address 1, again after 300 seconds, and once more from the cache. -/
def refreshRun (second : List IP) : List ResolverEvent :=
  [.resolve 0 (bytes "a") ⟨0, 0, 0, 1⟩, .udpReply 0 0 (some [1]), .tick 300000,
    .resolve 0 (bytes "a") ⟨0, 0, 0, 1⟩, .udpReply 0 0 (some second),
    .resolve 0 (bytes "a") ⟨0, 0, 0, 1⟩]

theorem answers_fresh_refreshRun :
    (∀ t e u, Takes step (start 0) (refreshRun [2, 1]) t e u → t.Supersedes e) ∧
      ∀ s, Visits step (start 0) (refreshRun [2, 1]) s → s.Fresh := by
  have hsup : ∀ t e u, Takes step (start 0) (refreshRun [2, 1]) t e u → t.Supersedes e := by
    refine (forall_takes_cons rfl).mpr ⟨trivial, ?_⟩
    refine (forall_takes_cons rfl).mpr ⟨fun _ => ⟨by simp, fun domain c _ hc => by cases hc⟩, ?_⟩
    refine (forall_takes_cons rfl).mpr ⟨trivial, (forall_takes_cons rfl).mpr ⟨trivial, ?_⟩⟩
    refine (forall_takes_cons rfl).mpr ⟨fun _ => ⟨by simp, fun domain c hd hc ip hip => ?_⟩, ?_⟩
    · cases hd
      cases hc
      have hone : ip ∈ ([1] : List IP) := hip
      exact List.mem_cons_of_mem 2 hone
    · exact (forall_takes_cons rfl).mpr ⟨trivial, fun t e u h => (takes_nil t e u h).elim⟩
  exact ⟨hsup, answers_fresh 0 _ hsup⟩

/-- If the name has moved to the address 2, the cache returns the address 1 after the refresh. -/
theorem refreshed_entry_stale :
    ∃ s, Visits step (start 0) (refreshRun [2]) s ∧ ¬ s.Fresh := by
  refine ⟨_, Visits.of_exec rfl, fun h => ?_⟩
  obtain ⟨r, hr, hmem, -⟩ := h (bytes "a") 1 rfl
  cases hr
  exact absurd hmem (by decide)

end Resolver

end Tinyco
