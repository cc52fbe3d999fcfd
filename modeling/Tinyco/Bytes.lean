import Mathlib.Algebra.Order.Ring.Int
import Mathlib.Data.List.Infix

/-! Byte strings and the numbers that count them. -/

namespace Tinyco

/-- The contents of a `std::string`. -/
abbrev Bytes := List UInt8

def bytes (s : String) : Bytes := s.toUTF8.data.toList

/-- A number as an output stream writes it. -/
def decimal (n : Nat) : Bytes := (Nat.toDigits 10 n).map fun c => UInt8.ofNat c.toNat

theorem decimal_ne_nil (n : Nat) : decimal n ≠ [] := by simp [decimal, Nat.toDigits_ne_nil]

def crlf : Bytes := [13, 10]

/-- `::tolower` in the C locale. -/
def tolower (c : UInt8) : UInt8 := if 65 ≤ c ∧ c ≤ 90 then c + 32 else c

/-- A number that is stored in an `int`. -/
def toInt32 (n : Int) : Int := Int.bmod n (2 ^ 32)

theorem toInt32_of_lt {n : Nat} (h : n < 2 ^ 31) : toInt32 n = n :=
  Int.bmod_eq_of_le (by omega) (by omega)

theorem toInt32_of_ge {n : Nat} (h : 2 ^ 31 ≤ n) (hlt : n < 2 ^ 32) : toInt32 n = n - 2 ^ 32 := by
  have hb := Int.bmod_eq_of_le (n := (n : Int) - 2 ^ 32) (m := 2 ^ 32) (by omega) (by omega)
  rw [toInt32, ← hb]
  exact (Int.sub_bmod_right n (2 ^ 32)).symm

theorem toInt32_lt (n : Int) : toInt32 n < 2 ^ 31 := by
  have h : Int.bmod n (2 ^ 32) < ((2 ^ 32 : Nat) + 1) / 2 := Int.bmod_lt (by decide)
  have h2 : (((2 ^ 32 : Nat) : Int) + 1) / 2 = 2 ^ 31 := by decide
  rw [toInt32]
  omega

/-- A number that is converted to an `unsigned long long`. -/
def toUInt64 (n : Int) : Nat := (n % 2 ^ 64).toNat

/-- A number that is stored in a `long`. -/
def toInt64 (n : Int) : Int := Int.bmod n (2 ^ 64)

theorem toUInt64_of_lt {n : Nat} (h : n < 2 ^ 64) : toUInt64 n = n := by
  have hh : (n : Int) % 2 ^ 64 = n := Int.emod_eq_of_lt (by omega) (by omega)
  rw [toUInt64, hh, Int.toNat_natCast]

theorem toUInt64_of_neg {n : Int} (hneg : n < 0) (h : -2 ^ 64 ≤ n) :
    (toUInt64 n : Int) = n + 2 ^ 64 := by
  have hh : n % 2 ^ 64 = n + 2 ^ 64 := by
    rw [← Int.add_emod_right, Int.emod_eq_of_lt (by omega) (by omega)]
  rw [toUInt64, hh]
  omega

theorem toInt64_of_lt {n : Nat} (h : n < 2 ^ 63) : toInt64 n = n :=
  Int.bmod_eq_of_le (by omega) (by omega)

end Tinyco
