/-
The pace of a list of times: each one at least, or at most, a given distance behind the one before it. Over any
number of steps the distances add up.
-/
import Mathlib.Algebra.Order.Group.Defs
import Mathlib.Data.List.Chain

namespace Pace

/-! ## Chains -/

section Chain

variable {α : Type*} {R : α → α → Prop} {ts : List α}

theorem concat (h : ts.IsChain R) {b : α} (hb : ∀ a ∈ ts.getLast?, R a b) : (ts ++ [b]).IsChain R := by
  refine List.isChain_append.2 ⟨h, List.isChain_singleton b, fun a ha c hc => ?_⟩
  cases hc
  exact hb a ha

theorem getElem?_next (h : ts.IsChain R) {k : Nat} {b : α} (hb : ts[k + 1]? = some b) :
    ∃ a, ts[k]? = some a ∧ R a b := by
  obtain ⟨hk, rfl⟩ := List.getElem?_eq_some_iff.1 hb
  exact ⟨ts[k], List.getElem?_eq_getElem (by omega), h.getElem k hk⟩

end Chain

/-! ## Distances -/

variable {α : Type*} [AddCommGroup α] [LinearOrder α] [IsOrderedAddMonoid α]

def AtLeast (d : α) (ts : List α) : Prop := ts.IsChain fun a b => a + d ≤ b

def AtMost (d : α) (ts : List α) : Prop := ts.IsChain fun a b => b ≤ a + d

variable {d : α} {ts : List α}

theorem AtLeast.nsmul_le (h : AtLeast d ts) {k : Nat} {a : α} (ha : ts[k]? = some a) {j : Nat} {b : α}
    (hb : ts[k + j]? = some b) : a + j • d ≤ b := by
  induction j generalizing b with
  | zero =>
    rw [Nat.add_zero, ha] at hb
    cases hb
    rw [zero_nsmul, add_zero]
  | succ j ih =>
    obtain ⟨c, hc, hcb⟩ := getElem?_next h (k := k + j) hb
    calc a + (j + 1) • d = a + j • d + d := by rw [succ_nsmul, add_assoc]
      _ ≤ c + d := add_le_add_left (ih hc) d
      _ ≤ b := hcb

theorem AtMost.le_nsmul (h : AtMost d ts) {k : Nat} {a : α} (ha : ts[k]? = some a) {j : Nat} {b : α}
    (hb : ts[k + j]? = some b) : b ≤ a + j • d := by
  induction j generalizing b with
  | zero =>
    rw [Nat.add_zero, ha] at hb
    cases hb
    rw [zero_nsmul, add_zero]
  | succ j ih =>
    obtain ⟨c, hc, hcb⟩ := getElem?_next h (k := k + j) hb
    calc b ≤ c + d := hcb
      _ ≤ a + j • d + d := add_le_add_left (ih hc) d
      _ = a + (j + 1) • d := by rw [succ_nsmul, add_assoc]

end Pace
