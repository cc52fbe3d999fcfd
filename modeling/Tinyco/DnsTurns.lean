import Tinyco.DnsResolver
import Tinyco.Simulation

/-! Which address `Resolve` returns: over every run of any number of coroutines the answers for a
domain go round all the addresses that were ever received for it. -/

namespace Tinyco

namespace Resolver

variable {s t u : Resolver} {e : ResolverEvent} {es : List ResolverEvent} {d : Bytes}

/-- `res_cache_[domain]`. -/
def entry (s : Resolver) (d : Bytes) : ResCache := (s.resCache.find d).getD .new

/-- The addresses that a step receives for the domain. -/
def receivedFor (d : Bytes) (s : Resolver) : ResolverEvent → List IP
  | .udpReply co ret (some addrs) =>
    if 0 ≤ ret ∧ s.waiting.find co = some d then addrs else []
  | _ => []

/-- The answer for the domain that has just been returned, if there was an address to return. -/
def answersFor (d : Bytes) (u : Resolver) : List IP :=
  match u.returned with
  | some ⟨d', some ip⟩ => if d' = d ∧ (u.entry d).ip ≠ [] then [ip] else []
  | _ => []

/-- A step that returns an address for the domain picks it from the entry with what has been
received; every other step leaves the entry alone. -/
theorem step_entry (h : t.step e = some u) (d : Bytes) :
    (u.entry d = t.entry d ∧ receivedFor d t e = [] ∧
      ∀ ip, u.returned ≠ some ⟨d, some ip⟩) ∨
    ∃ c : ResCache, u.entry d = c.pickOne.2 ∧ c.ip = (t.entry d).ip ++ receivedFor d t e ∧
      c.idx = (t.entry d).idx ∧ u.returned = some ⟨d, some c.pickOne.1⟩ := by
  cases e with
  | tick ms =>
    obtain rfl := Option.some.inj h
    exact .inl ⟨rfl, rfl, by simp⟩
  | resolve co domain env =>
    simp only [step, Option.ite_none_left_eq_some, Option.some.injEq] at h
    obtain ⟨-, rfl⟩ := h
    unfold resolve
    split
    · exact .inl ⟨rfl, rfl, by simp [answering]⟩
    · dsimp only
      split
      · next c hc =>
        obtain ⟨hfind, -⟩ := Option.filter_eq_some_iff.mp hc
        by_cases hd : domain = d
        · subst hd
          have hentry : t.entry domain = c := by
            have hfind' : t.resCache.find domain = some c := hfind
            simp [entry, hfind']
          refine .inr ⟨c, ?_, ?_, ?_, rfl⟩
          · simp [entry, answering]
          · simp [hentry, receivedFor]
          · rw [hentry]
        · refine .inl ⟨?_, rfl, ?_⟩
          · simp [entry, answering, AssocMap.find_assign_ne _ _ hd]
          · simp [answering, hd]
      · split
        · exact .inl ⟨rfl, rfl, by simp [answering]⟩
        · exact .inl ⟨rfl, rfl, by simp⟩
  | udpReply co ret ht =>
    obtain ⟨domain, hco, rfl⟩ := Option.map_eq_some_iff.mp h
    unfold reply
    split_ifs with hneg
    · refine .inl ⟨rfl, ?_, by simp [answering]⟩
      have hret : ¬ 0 ≤ ret := by omega
      cases ht <;> simp [receivedFor, hret]
    · cases ht with
      | none => exact .inl ⟨rfl, rfl, by simp [answering]⟩
      | some addrs =>
        have hret : 0 ≤ ret := by omega
        by_cases hd : domain = d
        · subst hd
          refine .inr ⟨t.refreshed domain addrs, ?_, ?_, rfl, rfl⟩
          · simp only [entry, store, answering, AssocMap.find_assign_self, Option.getD_some]
            rfl
          · simp [refreshed, entry, receivedFor, hret, hco]
        · refine .inl ⟨?_, ?_, ?_⟩
          · simp [entry, store, answering, AssocMap.find_assign_ne _ _ hd]
          · simp [receivedFor, hco, hd]
          · simp [store, answering, hd]

theorem answersFor_of_ne (h : ∀ ip, u.returned ≠ some ⟨d, some ip⟩) : answersFor d u = [] := by
  unfold answersFor
  split
  · next d' ip hret =>
    refine if_neg fun hd => h ip ?_
    rw [hret, hd.1]
  · rfl

theorem ip_entry_step (h : t.step e = some u) (d : Bytes) :
    (u.entry d).ip = (t.entry d).ip ++ receivedFor d t e := by
  rcases step_entry h d with ⟨hentry, hnone, -⟩ | ⟨c, hentry, hip, -, -⟩
  · rw [hentry, hnone, List.append_nil]
  · rw [hentry, ResCache.ip_pickOne, hip]

/-- `idx` counts the answers, as a `uint32_t`. -/
theorem idx_entry_step (h : t.step e = some u) (d : Bytes) :
    (u.entry d).idx.toNat ≡ (t.entry d).idx.toNat + (answersFor d u).length [MOD 2 ^ 32] := by
  rcases step_entry h d with ⟨hentry, -, hret⟩ | ⟨c, hentry, -, hidx, hret⟩
  · rw [hentry, answersFor_of_ne hret]
    rfl
  · rw [← hidx, hentry]
    by_cases hc : c.ip = []
    · have hnone : answersFor d u = [] := by simp [answersFor, hret, hentry, hc]
      rw [hnone, ResCache.pickOne, if_pos (by simp [hc])]
      rfl
    · have hone : (answersFor d u).length = 1 := by simp [answersFor, hret, hentry, hc]
      rw [hone, ResCache.pickOne_of_ne_nil hc]
      exact (UInt32.toNat_add c.idx 1).symm ▸ Nat.mod_modEq _ _

/-- The addresses received for a domain in a run, and the answers that were given for it. -/
def received (mstime : ℕ) (es : List ResolverEvent) (d : Bytes) : List IP :=
  observe step (fun t e _ => receivedFor d t e) (start mstime) es

def answered (mstime : ℕ) (es : List ResolverEvent) (d : Bytes) : List IP :=
  observe step (fun _ _ u => answersFor d u) (start mstime) es

theorem ip_entry_eq_received {mstime : ℕ} (h : exec step (start mstime) es = some t) (d : Bytes) :
    (t.entry d).ip = received mstime es d := by
  have hall := exec_appends (q := fun s => (s.entry d).ip) (f := fun t e _ => receivedFor d t e)
    (fun _ _ _ hstep => ip_entry_step hstep d) h
  exact hall

theorem idx_entry_eq_answered {mstime : ℕ} (h : exec step (start mstime) es = some t) (d : Bytes) :
    (t.entry d).idx.toNat = (answered mstime es d).length % 2 ^ 32 := by
  have hall := exec_counts (q := fun s => (s.entry d).idx.toNat) (m := 2 ^ 32)
    (f := fun _ _ u => answersFor d u) (fun _ _ _ hstep => idx_entry_step hstep d) h
  rw [Nat.ModEq, Nat.mod_eq_of_lt (t.entry d).idx.toNat_lt] at hall
  rw [hall]
  exact congrArg (· % 2 ^ 32) (Nat.zero_add _)

/-- In every run, however the calls of the coroutines interleave, the answer that a call returns for
a domain is taken from all the addresses that were ever received for that domain, at the place that
the number of its earlier answers gives. It is 0 if none has been received. -/
theorem answers_in_turn (mstime : ℕ) (es : List ResolverEvent) (e : ResolverEvent) (t u : Resolver)
    (d : Bytes) (ip : IP) (ht : exec step (start mstime) es = some t) (hu : t.step e = some u)
    (hret : u.returned = some ⟨d, some ip⟩) :
    (received mstime (es ++ [e]) d = [] ∧ ip = 0) ∨
      (received mstime (es ++ [e]) d)[(answered mstime es d).length % 2 ^ 32 %
        (received mstime (es ++ [e]) d).length]? = some ip := by
  rcases step_entry hu d with ⟨-, -, hnone⟩ | ⟨c, -, hip, hidx, hreturned⟩
  · exact absurd hret (hnone ip)
  · have hgot : received mstime (es ++ [e]) d = c.ip := by
      rw [hip, ip_entry_eq_received ht, received, observe_concat _ ht hu]
      rfl
    obtain rfl : c.pickOne.1 = ip := by simpa [hreturned] using hret
    rw [hgot, ← idx_entry_eq_answered ht, ← hidx]
    by_cases hc : c.ip = []
    · exact .inl ⟨hc, by simp [ResCache.pickOne, hc]⟩
    · have hlt : c.idx.toNat % c.ip.length < c.ip.length := ResCache.position_lt hc
      refine .inr ?_
      rw [ResCache.pickOne_of_ne_nil hc, List.getElem?_eq_getElem hlt, ResCache.position,
        List.getD_eq_getElem _ _ hlt]

/-- Two coroutines ask for a name at the same time and get different replies. -/
def twoReplies : List ResolverEvent :=
  [.resolve 0 (bytes "a") ⟨0, 0, 0, 1⟩, .resolve 1 (bytes "a") ⟨0, 0, 0, 1⟩, .udpReply 0 0 (some [1]),
    .udpReply 1 0 (some [2])]

/-- The next call gets the address of the first reply again. -/
theorem answers_in_turn_two_replies :
    (received 0 (twoReplies ++ [.resolve 0 (bytes "a") ⟨0, 0, 0, 1⟩]) (bytes "a"))[
      (answered 0 twoReplies (bytes "a")).length % 2 ^ 32 %
        (received 0 (twoReplies ++ [.resolve 0 (bytes "a") ⟨0, 0, 0, 1⟩]) (bytes "a")).length]? =
      some 1 := by
  have hturn := answers_in_turn 0 twoReplies (.resolve 0 (bytes "a") ⟨0, 0, 0, 1⟩) _ _ (bytes "a") 1
    rfl rfl rfl
  exact hturn.resolve_left fun hzero => absurd hzero.2 (by decide)

end Resolver

end Tinyco
