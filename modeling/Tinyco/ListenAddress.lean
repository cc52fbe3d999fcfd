import Tinyco.ResponseFraming
import Tinyco.ServerConfig

/-! `ListenItem::Parse` against the form `interface:port` of a listen address. -/

namespace Tinyco

/-- The interfaces that have an IPv4 address. A name fits into `ifr_name`. -/
structure Interfaces where
  addr : Bytes → Option Nat
  name_fits : ∀ name, (addr name).isSome → name.length ≤ 15 ∧ 0 ∉ name

/-- `network::GetEthAddr`: `strncpy` copies 15 bytes, and where the ioctl fails `ifr_addr` still
has what was on the stack. -/
def getEthAddr (ifs : Interfaces) (stack : Bytes → Nat) (eth : Bytes) : Nat :=
  (ifs.addr (eth.take 15)).getD (stack eth)

def Interfaces.listenEnv (ifs : Interfaces) (stack : Bytes → Nat) (listenOk : Listener → Bool) :
    ListenEnv :=
  ⟨getEthAddr ifs stack, listenOk⟩

def IsListenAddress (ifs : Interfaces) (s eth port : Bytes) (ip n : Nat) : Prop :=
  s = eth ++ 58 :: port ∧ ifs.addr eth = some ip ∧ readDecimal port = some n ∧ 1 ≤ n ∧ n ≤ 65535

variable {ifs : Interfaces} {s eth port : Bytes} {ip n : Nat}

theorem foldl_digits_cast (ds : Bytes) (h : ∀ c ∈ ds, 48 ≤ c.toNat) (m : Nat) :
    ds.foldl (fun (n : Int) (c : UInt8) => 10 * n + (c.toNat - 48)) (m : Int) =
      ((ds.foldl (fun n c => 10 * n + (c.toNat - 48)) m : Nat) : Int) := by
  induction ds generalizing m with
  | nil => rfl
  | cons c ds ih =>
    have hc := h c (by simp)
    have hhead : 10 * (m : Int) + ((c.toNat : Int) - 48) =
        ((10 * m + (c.toNat - 48) : Nat) : Int) := by omega
    rw [List.foldl_cons, List.foldl_cons, hhead]
    exact ih (fun c' hc' => h c' (by simp [hc'])) _

theorem readDecimal_eq_some_iff :
    readDecimal s = some n ↔ s ≠ [] ∧ (∀ c ∈ s, 48 ≤ c ∧ c ≤ 57) ∧ stoul s = n := by
  simp [readDecimal, and_assoc]

theorem not_isspace_of_digit {c : UInt8} (h : 48 ≤ c ∧ c ≤ 57) : isspace c = false := by
  have h57 := h.1
  simp only [isspace, Bool.or_eq_false_iff, beq_eq_false_iff_ne, Bool.and_eq_false_iff,
    decide_eq_false_iff_not, ne_eq, UInt8.le_iff_toNat_le, ← UInt8.toNat_inj] at h57 ⊢
  simp only [UInt8.toNat_ofNat] at h57 ⊢
  omega

theorem strtol_of_readDecimal (h : readDecimal s = some n) (hn : n ≤ 65535) : strtol s = n := by
  obtain ⟨hne, hdigits, hval⟩ := readDecimal_eq_some_iff.mp h
  obtain ⟨c, t, rfl⟩ := List.exists_cons_of_ne_nil hne
  have hc := hdigits c (by simp)
  have htrim : ltrim (c :: t) = c :: t := by simp [ltrim, not_isspace_of_digit hc]
  have hminus : c ≠ 45 := by
    rintro rfl
    exact absurd hc (by decide)
  have hplus : c ≠ 43 := by
    rintro rfl
    exact absurd hc (by decide)
  have hall : (c :: t).takeWhile (fun c => 48 ≤ c && c ≤ 57) = c :: t :=
    List.takeWhile_eq_self_iff.mpr fun d hd => by simpa using hdigits d hd
  have hfold := foldl_digits_cast (c :: t) (fun d hd => UInt8.le_iff_toNat_le.mp (hdigits d hd).1) 0
  rw [stoul, hall] at hval
  rw [hval] at hfold
  simp only [strtol, htrim]
  split
  next heq => exact absurd (List.cons.inj heq).1 hminus
  next heq => exact absurd (List.cons.inj heq).1 hplus
  next =>
    rw [hall]
    have hfold' : List.foldl (fun (n : Int) (c : UInt8) => 10 * n + (c.toNat - 48)) 0 (c :: t) = n :=
      hfold
    rw [hfold']
    omega

theorem not_mem_colon_of_readDecimal (h : readDecimal s = some n) : 58 ∉ s := by
  intro hmem
  exact absurd ((readDecimal_eq_some_iff.mp h).2.1 58 hmem) (by decide)

/-- `Split` at `:` returns two parts, of which the second may be followed by a last colon. -/
def TwoParts (s : Bytes) : Prop :=
  ∃ eth port : Bytes, 58 ∉ eth ∧ 58 ∉ port ∧
    (s = eth ++ 58 :: port ∧ port ≠ [] ∨ s = eth ++ 58 :: port ++ [58])

theorem listenItemParse_isSome_iff_twoParts (env : ListenEnv) :
    (listenItemParse env s).isSome ↔ TwoParts s := by
  simp only [TwoParts, ← split_eq_pair_iff]
  unfold listenItemParse
  split
  next eth port hsplit => exact iff_of_true rfl ⟨eth, port, hsplit⟩
  next hne =>
    refine iff_of_false Bool.false_ne_true ?_
    rintro ⟨eth, port, hsplit⟩
    exact hne eth port hsplit

theorem IsListenAddress.parse (h : IsListenAddress ifs s eth port ip n) (heth : 58 ∉ eth)
    (stack : Bytes → Nat) (listenOk : Listener → Bool) :
    listenItemParse (ifs.listenEnv stack listenOk) s = some (ip, n) := by
  obtain ⟨rfl, hip, hport, -, hle⟩ := h
  obtain ⟨hlen, hnul⟩ := ifs.name_fits eth (by simp [hip])
  have hsplit : split (eth ++ 58 :: port) 58 = [eth, port] :=
    split_eq_pair_iff.mpr ⟨heth, not_mem_colon_of_readDecimal hport,
      .inl ⟨rfl, (readDecimal_eq_some_iff.mp hport).1⟩⟩
  have hcstr : eth.takeWhile (· ≠ 0) = eth := takeWhile_ne_eq_self hnul
  have haddr : getEthAddr ifs stack eth = ip := by
    rw [getEthAddr, List.take_of_length_le hlen, hip, Option.getD_some]
  have hatoi : atoi port = n := by
    rw [atoi, strtol_of_readDecimal hport hle, toInt32_of_lt (by omega)]
  simp only [listenItemParse, hsplit, hcstr, hatoi, Interfaces.listenEnv, haddr, Option.some.injEq,
    Prod.mk.injEq, true_and]
  omega

/-- A string that `Split` cuts into two parts is a listen address with one colon or none at all. -/
theorem IsListenAddress.not_mem_of_twoParts (h : IsListenAddress ifs s eth port ip n)
    (htwo : TwoParts s) : 58 ∉ eth := by
  obtain ⟨rfl, -, hport, -⟩ := h
  have hcolon := not_mem_colon_of_readDecimal hport
  obtain ⟨e, p, he, hp, ⟨heq, -⟩ | heq⟩ := htwo
  · have hcount := congrArg (List.count 58) heq
    simp only [List.count_append, List.count_cons_self, List.count_eq_zero_of_not_mem hcolon,
      List.count_eq_zero_of_not_mem he, List.count_eq_zero_of_not_mem hp] at hcount
    exact List.count_eq_zero.mp (by omega)
  · have hne := (readDecimal_eq_some_iff.mp hport).1
    have hlast := congrArg List.getLast? heq
    rw [List.getLast?_concat, List.getLast?_append_cons, List.getLast?_cons_of_ne_nil hne] at hlast
    exact absurd (List.mem_of_getLast? hlast) hcolon

/-- `Parse` accepts the listen addresses with what they say, and nothing else, exactly for the
strings that are a listen address with one colon, or neither a listen address nor in two parts. -/
theorem listenItemParse_right_iff (ifs : Interfaces) (stack : Bytes → Nat)
    (listenOk : Listener → Bool) (s : Bytes) :
    (∀ ip n, listenItemParse (ifs.listenEnv stack listenOk) s = some (ip, n) ↔
        ∃ eth port, IsListenAddress ifs s eth port ip n) ↔
      (∃ eth port ip n, IsListenAddress ifs s eth port ip n ∧ 58 ∉ eth) ∨
      (¬ TwoParts s ∧ ∀ eth port ip n, ¬ IsListenAddress ifs s eth port ip n) := by
  have hiff := listenItemParse_isSome_iff_twoParts (s := s) (ifs.listenEnv stack listenOk)
  constructor
  · intro h
    by_cases htwo : TwoParts s
    · obtain ⟨⟨ip, n⟩, hr⟩ := Option.isSome_iff_exists.mp (hiff.mpr htwo)
      obtain ⟨eth, port, hform⟩ := (h ip n).mp hr
      exact .inl ⟨eth, port, ip, n, hform, hform.not_mem_of_twoParts htwo⟩
    · refine .inr ⟨htwo, fun eth port ip n hform => htwo (hiff.mp ?_)⟩
      rw [(h ip n).mpr ⟨eth, port, hform⟩]
      rfl
  · rintro (⟨eth, port, ip, n, hform, heth⟩ | ⟨htwo, hnone⟩) ip' n'
    · have hparse := hform.parse heth stack listenOk
      constructor
      · intro h
        obtain ⟨rfl, rfl⟩ := Prod.mk.inj (Option.some.inj (hparse.symm.trans h))
        exact ⟨eth, port, hform⟩
      · rintro ⟨eth', port', hform'⟩
        have htwo := hiff.mp (by rw [hparse]; rfl)
        exact hform'.parse (hform'.not_mem_of_twoParts htwo) stack listenOk
    · refine iff_of_false (fun h => htwo (hiff.mp (by rw [h]; rfl))) ?_
      rintro ⟨eth, port, hform⟩
      exact hnone eth port ip' n' hform

def loopbackOnly : Interfaces where
  addr name := if name = bytes "lo" then some 0x0100007f else none
  name_fits name h := by
    have hname : name = bytes "lo" := by
      by_contra hne
      simp [hne] at h
    subst hname
    decide

/-- A port that is not a number is taken as port 0. -/
theorem port_name_accepted :
    ¬ ∀ ip n, listenItemParse (loopbackOnly.listenEnv (fun _ => 0) fun _ => true) (bytes "lo:http") =
        some (ip, n) ↔ ∃ eth port, IsListenAddress loopbackOnly (bytes "lo:http") eth port ip n := by
  intro h
  obtain ⟨eth, port, hs, -, hport, -⟩ := (h 0x0100007f 0).mp (by decide)
  have hcolon := not_mem_colon_of_readDecimal hport
  have hsplit : (bytes "lo:http").splitOn 58 = eth.splitOn 58 ++ [port] := by
    rw [hs, List.splitOn_append_cons_self, List.splitOn_eq_singleton hcolon]
  have hlast : ((bytes "lo:http").splitOn 58).getLast? = some (bytes "http") := by decide
  rw [hsplit, List.getLast?_concat, Option.some.injEq] at hlast
  rw [hlast] at hport
  exact absurd hport (by decide)

end Tinyco
