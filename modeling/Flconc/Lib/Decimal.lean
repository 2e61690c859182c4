/-
Decimal numerals as bytes: the digits of a number, and the number that a row of digits stands for.
-/
import Flconc.Lib.Wire
import Mathlib.Tactic.Ring

namespace Decimal

open Wire

def IsDigit (c : UInt8) : Prop := 0x30 ≤ c ∧ c ≤ 0x39

instance (c : UInt8) : Decidable (IsDigit c) := inferInstanceAs (Decidable (_ ∧ _))

/-- The number a row of digits stands for. -/
def value (ds : Bytes) : Nat := ds.foldl (fun n c => 10 * n + (c.toNat - 0x30)) 0

/-- The digit of `n` in the last place. -/
def digit (n : Nat) : UInt8 := UInt8.ofNat (0x30 + n % 10)

/-- The digits of `n`, as far as the fuel goes. -/
def digitsFrom : Nat → Nat → Bytes
  | 0, n => [digit n]
  | fuel + 1, n => if n < 10 then [digit n] else digitsFrom fuel (n / 10) ++ [digit n]

/-- The digits of `n`, without leading zeros. -/
def digits (n : Nat) : Bytes := digitsFrom n n

theorem value_concat (ds : Bytes) (c : UInt8) : value (ds ++ [c]) = 10 * value ds + (c.toNat - 0x30) := by
  unfold value
  rw [List.foldl_append]
  rfl

/-- Zeros behind a number. -/
theorem value_zeros (ds : Bytes) (k : Nat) : value (ds ++ List.replicate k 0x30) = 10 ^ k * value ds := by
  induction k with
  | zero => simp
  | succ k ih =>
    rw [List.replicate_succ', ← List.append_assoc, value_concat, ih, Nat.pow_succ]
    show 10 * (10 ^ k * value ds) + 0 = _
    ring

/-- Nines behind a number: one more carries through all of them. -/
theorem value_nines (ds : Bytes) (k : Nat) :
    value (ds ++ List.replicate k 0x39) + 1 = 10 ^ k * (value ds + 1) := by
  induction k with
  | zero => simp
  | succ k ih =>
    rw [List.replicate_succ', ← List.append_assoc, value_concat, Nat.pow_succ]
    calc 10 * value (ds ++ List.replicate k 0x39) + 9 + 1
        = 10 * (value (ds ++ List.replicate k 0x39) + 1) := by ring
      _ = 10 ^ k * 10 * (value ds + 1) := by rw [ih]; ring

theorem digit_toNat (n : Nat) : (digit n).toNat = 0x30 + n % 10 := by
  have := Nat.mod_lt n (show 0 < 10 by decide)
  unfold digit
  rw [UInt8.toNat_ofNat']
  omega

theorem digit_isDigit (n : Nat) : IsDigit (digit n) := by
  have := Nat.mod_lt n (show 0 < 10 by decide)
  have h := digit_toNat n
  unfold IsDigit
  rw [UInt8.le_iff_toNat_le, UInt8.le_iff_toNat_le, h]
  exact ⟨Nat.le_add_right _ _, by show 0x30 + n % 10 ≤ 0x39; omega⟩

theorem value_digit {n : Nat} (h : n < 10) : value [digit n] = n := by
  show 10 * 0 + ((digit n).toNat - 0x30) = n
  rw [digit_toNat]
  omega

theorem value_digitsFrom : ∀ {fuel n : Nat}, n ≤ fuel → value (digitsFrom fuel n) = n
  | 0, n, h => by
    obtain rfl : n = 0 := by omega
    exact value_digit (by decide)
  | fuel + 1, n, h => by
    unfold digitsFrom
    split
    · rename_i hn
      exact value_digit hn
    · rw [value_concat, value_digitsFrom (by omega), digit_toNat]
      omega

/-- The digits of a number stand for it. -/
theorem value_digits (n : Nat) : value (digits n) = n := value_digitsFrom (Nat.le_refl n)

theorem digitsFrom_isDigit : ∀ (fuel n : Nat), ∀ c ∈ digitsFrom fuel n, IsDigit c
  | 0, n, c, hc => by
    rw [List.mem_singleton.1 hc]
    exact digit_isDigit n
  | fuel + 1, n, c, hc => by
    unfold digitsFrom at hc
    split at hc
    · rw [List.mem_singleton.1 hc]
      exact digit_isDigit n
    · rcases List.mem_append.1 hc with hc | hc
      · exact digitsFrom_isDigit fuel _ c hc
      · rw [List.mem_singleton.1 hc]
        exact digit_isDigit n

theorem digits_isDigit (n : Nat) : ∀ c ∈ digits n, IsDigit c := digitsFrom_isDigit n n

theorem digits_ne_nil (n : Nat) : digits n ≠ [] := by
  unfold digits
  cases n with
  | zero => nofun
  | succ n =>
    unfold digitsFrom
    split
    · nofun
    · simp

end Decimal
