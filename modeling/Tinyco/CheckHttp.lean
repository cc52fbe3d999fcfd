import Tinyco.Framing
import Tinyco.HttpServer

/-! The verdict of `CheckHttp` on a buffer against what the buffer is: a buffer that ends its
first message, goes wrong, or may still become a message. -/

namespace Tinyco

/-- The parser stops behind the first message, or in front of the first error, or has read all
the bytes. -/
structure HttpLib.Reads (L : HttpLib) (G : Framing UInt8) : Prop where
  ends : ∀ {b m}, G.EndsAt b m → L.execute HttpParserImpl.httpComplete false .both b = (true, m)
  fails : ∀ {b k}, G.FailsAt b k → L.execute HttpParserImpl.httpComplete false .both b = (false, k)
  live : ∀ {b}, b ∈ G.live →
    L.execute HttpParserImpl.httpComplete false .both b = (false, b.length)

/-- `CheckHttp` returns one of three values; `HPC_UNKNOWN` has that of `HPC_NOT_HTTP`. The last
two fields say what is to follow: a buffer that is not HTTP stays so, and `Run` does not receive
any more behind an error. -/
structure CheckHttpRight (L : HttpLib) (G : Framing UInt8) (b : Bytes) : Prop where
  ok_iff : ∀ m, (HttpParserImpl.checkHttp L b).1.code = HttpParseCode.ok.code ∧
    (HttpParserImpl.checkHttp L b).2 = m ↔ G.EndsAt b m
  notHttp_iff : (HttpParserImpl.checkHttp L b).1.code = HttpParseCode.notHttp.code ↔
    ∃ k, G.FailsAt b k
  notComplete_iff : (HttpParserImpl.checkHttp L b).1.code = HttpParseCode.notCompleteHttp.code ↔
    b ∈ G.live
  final : (HttpParserImpl.checkHttp L b).1.code = HttpParseCode.notHttp.code →
    ∀ q m, ¬ G.EndsAt (b ++ q) m
  stops : ∀ serve (s s' : HttpSrvWork) chunk, s.step L serve (.data chunk) = some s' →
    (s.loop.received chunk).req.take ((s.loop.received chunk).recvd % 2 ^ 32) = b →
    (∃ k, G.FailsAt b k) → s'.loop.point ≠ .recv

/-- The numbers that are the same after a conversion to `int` and from there to `size_t`. -/
def KeptByInt (m : Nat) : Prop := m < 2 ^ 31 ∨ (2 ^ 64 - 2 ^ 31 ≤ m ∧ m < 2 ^ 64)

theorem keptByInt_iff {m : Nat} : (Int.bmod m (2 ^ 32) % 2 ^ 64).toNat = m ↔ KeptByInt m := by
  have hlt : Int.bmod m (2 ^ 32) < 2 ^ 31 := toInt32_lt m
  have hge : -2 ^ 31 ≤ Int.bmod m (2 ^ 32) := by
    have h : -(((2 ^ 32 : Nat) : Int) / 2) ≤ Int.bmod m (2 ^ 32) := Int.le_bmod (by decide)
    omega
  have hmod : Int.bmod m (2 ^ 32) % ((2 ^ 32 : Nat) : Int) = m % ((2 ^ 32 : Nat) : Int) :=
    Int.bmod_emod
  rw [KeptByInt]
  generalize Int.bmod m (2 ^ 32) = n at hlt hge hmod ⊢
  omega

namespace HttpParserImpl

variable {L : HttpLib} {b : Bytes} {n : Nat}

theorem checkHttp_of_ended (hle : n ≤ b.length)
    (h : L.execute httpComplete false .both b = (true, n)) :
    checkHttp L b = (.ok, (Int.bmod n (2 ^ 32) % 2 ^ 64).toNat) := by
  have hfits : n % 2 ^ 32 ≤ b.length := (Nat.mod_le n _).trans hle
  simp only [checkHttp, h, hfits, and_self, if_true]

/-- Without a message only the number of bytes read counts, and that modulo 2^32. -/
theorem checkHttp_of_not_ended (hle : n ≤ b.length)
    (h : L.execute httpComplete false .both b = (false, n)) :
    checkHttp L b = (if n % 2 ^ 32 = 0 then .notHttp else .notCompleteHttp, 0) := by
  have hfits : n % 2 ^ 32 ≤ b.length := (Nat.mod_le n _).trans hle
  have hzero : Int.bmod n (2 ^ 32) = 0 ↔ n % 2 ^ 32 = 0 := by
    rw [← Int.dvd_iff_bmod_eq_zero]
    omega
  by_cases hn : n % 2 ^ 32 = 0
  · simp only [checkHttp, h, hzero, hn, Bool.false_eq_true, and_false, if_false, if_true]
  · simp only [checkHttp, h, hzero, hn, hfits, Bool.false_eq_true, and_false, and_self, if_false,
      if_true]

end HttpParserImpl

theorem checkPkg_of_notHttp {L : HttpLib} {buf : Bytes}
    (h : (HttpParserImpl.checkHttp L buf).1.code = HttpParseCode.notHttp.code) :
    checkPkg L buf = -1 := by
  simp only [checkPkg, h]
  simp [HttpParseCode.code]

theorem RecvLoop.iterate_of_neg {b b' : RecvLoop} {a : Iteration} {chunk : Bytes}
    (hr : a.recv = .data chunk) (ha : a.nparsed < 0) (hb : b.iterate a = some b') :
    b'.point ≠ .recv := by
  have hpos : ¬ 0 < a.nparsed := by omega
  have hzero : a.nparsed ≠ 0 := by omega
  simp only [iterate, hr, checked, hpos, hzero, if_false] at hb
  split_ifs at hb <;> cases hb <;> simp

theorem HttpSrvWork.step_of_notHttp {L : HttpLib} {serve : Serve} {s s' : HttpSrvWork}
    {chunk : Bytes} (hs : s.step L serve (.data chunk) = some s')
    (hc : (HttpParserImpl.checkHttp L
      ((s.loop.received chunk).req.take ((s.loop.received chunk).recvd % 2 ^ 32))).1.code =
        HttpParseCode.notHttp.code) : s'.loop.point ≠ .recv := by
  have hn : nparsed L (s.loop.received chunk) = -1 := checkPkg_of_notHttp hc
  simp only [step, hn, Option.map_eq_some_iff] at hs
  obtain ⟨loop, hloop, rfl⟩ := hs
  have hend := RecvLoop.iterate_of_neg rfl (show (-1 : Int) < 0 by decide) hloop
  simpa using hend

namespace CheckHttpRight

variable {L : HttpLib} {G : Framing UInt8} {b : Bytes} {m k : Nat}

theorem of_verdicts
    (hok : ∀ m, (HttpParserImpl.checkHttp L b).1.code = HttpParseCode.ok.code ∧
      (HttpParserImpl.checkHttp L b).2 = m ↔ G.EndsAt b m)
    (hnot : (HttpParserImpl.checkHttp L b).1.code = HttpParseCode.notHttp.code ↔ ∃ k, G.FailsAt b k)
    (hpart : (HttpParserImpl.checkHttp L b).1.code = HttpParseCode.notCompleteHttp.code ↔
      b ∈ G.live) : CheckHttpRight L G b := by
  refine ⟨hok, hnot, hpart, fun hc q m hm => ?_, fun serve s s' chunk hs hb hk => ?_⟩
  · obtain ⟨k, hk⟩ := hnot.mp hc
    exact hk.no_message q ⟨m, hm⟩
  · subst hb
    exact HttpSrvWork.step_of_notHttp hs (hnot.mpr hk)

theorem iff_of_endsAt (hL : L.Reads G) (hm : G.EndsAt b m) : CheckHttpRight L G b ↔ KeptByInt m := by
  have hc := HttpParserImpl.checkHttp_of_ended hm.1 (hL.ends hm)
  constructor
  · intro h
    have hsz := ((h.ok_iff m).mpr hm).2
    simp only [hc] at hsz
    exact keptByInt_iff.mp hsz
  · intro hkept
    rw [keptByInt_iff.mpr hkept] at hc
    refine of_verdicts (fun m' => ?_) ?_ ?_
    · simp only [hc, true_and]
      exact ⟨fun he => he ▸ hm, fun hm' => hm.unique hm'⟩
    · rw [hc]
      exact iff_of_false (by simp [HttpParseCode.code]) fun ⟨k, hk⟩ => hm.not_failsAt hk
    · rw [hc]
      exact iff_of_false (by simp [HttpParseCode.code]) hm.not_live

theorem iff_of_failsAt (hL : L.Reads G) (hk : G.FailsAt b k) :
    CheckHttpRight L G b ↔ k % 2 ^ 32 = 0 := by
  have hc := HttpParserImpl.checkHttp_of_not_ended hk.1.le (hL.fails hk)
  constructor
  · intro h
    have hcode := h.notHttp_iff.mpr ⟨k, hk⟩
    by_contra hne
    rw [hc, if_neg hne] at hcode
    exact absurd hcode (by decide)
  · intro hzero
    rw [if_pos hzero] at hc
    refine of_verdicts (fun m => ?_) ?_ ?_
    · rw [hc]
      exact iff_of_false (fun h => absurd h.1 (by decide)) fun hm => hm.not_failsAt hk
    · rw [hc]
      exact iff_of_true rfl ⟨k, hk⟩
    · rw [hc]
      exact iff_of_false (by decide) hk.not_live

theorem iff_of_live (hL : L.Reads G) (hb : b ∈ G.live) :
    CheckHttpRight L G b ↔ b.length % 2 ^ 32 ≠ 0 := by
  have hc := HttpParserImpl.checkHttp_of_not_ended le_rfl (hL.live hb)
  constructor
  · intro h hzero
    have hcode := h.notComplete_iff.mpr hb
    rw [hc, if_pos hzero] at hcode
    exact absurd hcode (by decide)
  · intro hne
    rw [if_neg hne] at hc
    refine of_verdicts (fun m => ?_) ?_ ?_
    · rw [hc]
      exact iff_of_false (fun h => absurd h.1 (by decide)) fun hm => hm.not_live hb
    · rw [hc]
      exact iff_of_false (by decide) fun ⟨k, hk⟩ => hk.not_live hb
    · rw [hc]
      exact iff_of_true rfl hb

end CheckHttpRight

/-- `CheckHttp` is right about a buffer exactly in these cases: a message whose length an `int`
holds, an error at the first byte, a part of a message that is not empty; up to multiples of
2^32. -/
theorem checkHttp_right_iff (L : HttpLib) (G : Framing UInt8) (b : Bytes) (hL : L.Reads G) :
    CheckHttpRight L G b ↔
      (∀ m, G.EndsAt b m → KeptByInt m) ∧ (∀ k, G.FailsAt b k → k % 2 ^ 32 = 0) ∧
        (b ∈ G.live → b.length % 2 ^ 32 ≠ 0) := by
  rcases G.verdict b with ⟨m, hm⟩ | ⟨k, hk⟩ | hlive
  · rw [CheckHttpRight.iff_of_endsAt hL hm]
    refine ⟨fun h => ⟨fun m' hm' => hm.unique hm' ▸ h, fun k hk => absurd hk hm.not_failsAt,
      fun hl => absurd hl hm.not_live⟩, fun h => h.1 m hm⟩
  · rw [CheckHttpRight.iff_of_failsAt hL hk]
    refine ⟨fun h => ⟨fun m hm => absurd hk hm.not_failsAt, fun k' hk' => hk.unique hk' ▸ h,
      fun hl => absurd hl hk.not_live⟩, fun h => h.2.1 k hk⟩
  · rw [CheckHttpRight.iff_of_live hL hlive]
    refine ⟨fun h => ⟨fun m hm => absurd hlive hm.not_live, fun k hk => absurd hlive hk.not_live,
      fun _ => h⟩, fun h => h.2.2 hlive⟩

def commonLength : Bytes → Bytes → Nat
  | a :: b, c :: x => if a = c then commonLength b x + 1 else 0
  | _, _ => 0

theorem take_prefix_iff {b x : Bytes} {j : Nat} (hj : j ≤ b.length) :
    b.take j <+: x ↔ j ≤ commonLength b x := by
  induction b generalizing x j with
  | nil =>
    obtain rfl : j = 0 := by simpa using hj
    simp
  | cons a b ih =>
    cases j with
    | zero => simp
    | succ j =>
      cases x with
      | nil => simp [commonLength]
      | cons c x =>
        have hh := ih (x := x) (j := j) (by simpa using hj)
        by_cases hac : a = c
        · simp [commonLength, hac, List.cons_prefix_cons, hh]
        · simp [commonLength, hac, List.cons_prefix_cons]

theorem commonLength_le (b x : Bytes) : commonLength b x ≤ b.length := by
  induction b generalizing x with
  | nil => simp [commonLength]
  | cons a b ih =>
    cases x with
    | nil => simp [commonLength]
    | cons c x =>
      have hh := ih x
      simp only [commonLength, List.length_cons]
      split_ifs <;> omega

def HttpLib.single (x : Bytes) : HttpLib where
  scan _ b :=
    if x <+: b then { events := [(.messageComplete, x.length)], nparsed := x.length }
    else { nparsed := commonLength b x }
  parseUrl _ := none
  curlUnescape := id

section Single

variable {x b : Bytes}

theorem HttpLib.single_of_prefix (h : x <+: b) :
    (HttpLib.single x).execute HttpParserImpl.httpComplete false .both b = (true, x.length) := by
  simp [HttpLib.execute, HttpLib.single, h, runCallbacks, HttpParserImpl.httpComplete]

theorem HttpLib.single_of_not_prefix (h : ¬ x <+: b) :
    (HttpLib.single x).execute HttpParserImpl.httpComplete false .both b =
      (false, commonLength b x) := by
  simp [HttpLib.execute, HttpLib.single, h, runCallbacks]

theorem HttpLib.single_reads (hx : x ≠ []) : (HttpLib.single x).Reads (Framing.single x hx) where
  ends {b m} h := by
    have htake : b.take m = x := h.2
    have hm : m = x.length := by rw [← htake, List.length_take_of_le h.1]
    rw [hm]
    exact HttpLib.single_of_prefix (htake ▸ List.take_prefix m b)
  fails {b k} h := by
    have hnot : ¬ x <+: b := by
      rintro ⟨rest, rfl⟩
      exact (Framing.endsAt_of_complete (G := .single x hx) rfl rest).not_failsAt h
    obtain ⟨hlt, hlive, hdead, hne⟩ := h
    have hle : k ≤ commonLength b x := (take_prefix_iff hlt.le).mp hlive.1
    have hgt : ¬ k + 1 ≤ commonLength b x := fun hc =>
      hdead ⟨(take_prefix_iff hlt).mpr hc, hne⟩
    rw [HttpLib.single_of_not_prefix hnot, show commonLength b x = k by omega]
  live {b} h := by
    obtain ⟨hp, hne⟩ := h
    have hnot : ¬ x <+: b := fun hxb => hne (hp.eq_of_length (le_antisymm hp.length_le hxb.length_le))
    have hle : b.length ≤ commonLength b x := (take_prefix_iff le_rfl).mp (by simpa using hp)
    have hge := commonLength_le b x
    rw [HttpLib.single_of_not_prefix hnot, show commonLength b x = b.length by omega]

end Single

theorem getRequest_ne_nil : getRequest ≠ [] := by decide

theorem checkHttp_right_of_request :
    CheckHttpRight (.single getRequest) (.single getRequest getRequest_ne_nil) getRequest := by
  have hends : (Framing.single getRequest getRequest_ne_nil).EndsAt getRequest getRequest.length :=
    ⟨le_rfl, List.take_length⟩
  refine (checkHttp_right_iff _ _ _ (HttpLib.single_reads getRequest_ne_nil)).mpr
    ⟨fun m hm => .inl ?_, fun k hk => absurd hk hends.not_failsAt, fun hl => absurd hl hends.not_live⟩
  exact hm.1.trans_lt (by decide)

/-- The parser rejects the `X` where `HTTP` has to stand; `CheckHttp` asks for more bytes and
`Run` goes on receiving. -/
theorem error_taken_for_incomplete :
    HttpParserImpl.checkHttp (.single getRequest) (bytes "GET / X") = (.notCompleteHttp, 0) ∧
    (exec (HttpSrvWork.step (.single getRequest) fun _ h => (h, [])) {} [.data (bytes "GET / X")]).map
      (fun s => s.loop.point) = some .recv ∧
    ¬ ∀ (L : HttpLib) (G : Framing UInt8) (b : Bytes), L.Reads G → CheckHttpRight L G b := by
  have hcheck : HttpParserImpl.checkHttp (.single getRequest) (bytes "GET / X") =
      (.notCompleteHttp, 0) := by decide +kernel
  refine ⟨hcheck, by decide +kernel, fun hall => ?_⟩
  have hfails : (Framing.single getRequest getRequest_ne_nil).FailsAt (bytes "GET / X") 6 :=
    ⟨by decide, ⟨by decide, by decide⟩, fun h => absurd h.1 (by decide),
      fun h => absurd (show (bytes "GET / X").take 7 = getRequest from h) (by decide)⟩
  have hright := hall _ _ (bytes "GET / X") (HttpLib.single_reads getRequest_ne_nil)
  have hcode := hright.notHttp_iff.mpr ⟨6, hfails⟩
  rw [hcheck] at hcode
  exact absurd hcode (by decide)

end Tinyco
