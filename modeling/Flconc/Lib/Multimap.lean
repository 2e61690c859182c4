/-
Multimaps over a linear order, as the sorted list of their entries, with positions for iterators:
insertion at the upper bound, the equal range of a key, a search through a range of positions,
and erasure. The end position is the number of entries.
-/
import Mathlib.Order.Lattice
import Mathlib.Data.List.Basic

universe u v

/-- A multimap: its entries in the order of their keys, equal keys in the order of insertion. -/
structure Multimap (κ : Type u) (ν : Type v) [LinearOrder κ] where
  entries : List (κ × ν)
  sorted : entries.Pairwise fun p q => p.1 ≤ q.1

namespace Multimap

variable {κ : Type u} {ν : Type v} [LinearOrder κ]

def empty : Multimap κ ν := ⟨[], .nil⟩

@[simp] theorem empty_entries : (empty : Multimap κ ν).entries = [] := rfl

/-! ## Positions -/

/-- The first position whose key is not less than `k`. -/
def lowerBound (m : Multimap κ ν) (k : κ) : Nat := m.entries.findIdx fun p => decide (k ≤ p.1)

/-- The first position whose key is greater than `k`. -/
def upperBound (m : Multimap κ ν) (k : κ) : Nat := m.entries.findIdx fun p => decide (k < p.1)

/-- The first position in `[first, last)` that holds `v`, and `last` when there is none. -/
def find [DecidableEq ν] (m : Multimap κ ν) (first last : Nat) (v : ν) : Nat :=
  first + ((m.entries.drop first).take (last - first)).findIdx fun p => decide (p.2 = v)

/-- The entries with a smaller, the same and a greater key. -/
def below (m : Multimap κ ν) (k : κ) : List (κ × ν) := m.entries.filter fun p => decide (p.1 < k)
def equal (m : Multimap κ ν) (k : κ) : List (κ × ν) := m.entries.filter fun p => decide (p.1 = k)
def above (m : Multimap κ ν) (k : κ) : List (κ × ν) := m.entries.filter fun p => decide (k < p.1)

theorem filter_split (k : κ) : ∀ {l : List (κ × ν)}, l.Pairwise (fun p q => p.1 ≤ q.1) →
    l = l.filter (fun p => decide (p.1 < k)) ++ l.filter (fun p => decide (p.1 = k)) ++
      l.filter (fun p => decide (k < p.1))
  | [], _ => rfl
  | p :: l, h => by
    obtain ⟨hp, hl⟩ := List.pairwise_cons.1 h
    have ih := filter_split k hl
    have hnil : ∀ f : κ × ν → Bool, (∀ q ∈ l, f q = false) → l.filter f = [] := by
      intro f hf
      exact List.filter_eq_nil_iff.2 fun q hq => by simp [hf q hq]
    rcases lt_trichotomy p.1 k with hk | hk | hk
    · simp only [List.filter_cons, hk, hk.ne, not_lt_of_gt hk, decide_true, decide_false, if_true,
        Bool.false_eq_true, if_false, List.cons_append]
      rw [← ih]
    · -- everything after an entry with the key has at least the key
      have hb := hnil (fun q => decide (q.1 < k)) fun q hq =>
        decide_eq_false (not_lt_of_ge (hk ▸ hp q hq))
      rw [hb, List.nil_append] at ih
      simp only [List.filter_cons, hk, lt_irrefl, decide_true, decide_false, if_true,
        Bool.false_eq_true, if_false, hb, List.nil_append, List.cons_append]
      rw [← ih]
    · have hb := hnil (fun q => decide (q.1 < k)) fun q hq =>
        decide_eq_false (not_lt_of_ge (hk.le.trans (hp q hq)))
      have he := hnil (fun q => decide (q.1 = k)) fun q hq =>
        decide_eq_false (hk.trans_le (hp q hq)).ne'
      rw [hb, he, List.nil_append, List.nil_append] at ih
      simp only [List.filter_cons, hk, hk.ne', not_lt_of_gt hk, decide_true, decide_false, if_true,
        Bool.false_eq_true, if_false, hb, he, List.nil_append]
      rw [← ih]

/-- A multimap is its smaller, equal and greater entries, in that order. -/
theorem split (m : Multimap κ ν) (k : κ) : m.entries = m.below k ++ m.equal k ++ m.above k :=
  filter_split k m.sorted

theorem mem_below {m : Multimap κ ν} {k : κ} {p : κ × ν} : p ∈ m.below k ↔ p ∈ m.entries ∧ p.1 < k := by
  simp [below]

theorem mem_equal {m : Multimap κ ν} {k : κ} {p : κ × ν} : p ∈ m.equal k ↔ p ∈ m.entries ∧ p.1 = k := by
  simp [equal]

theorem mem_above {m : Multimap κ ν} {k : κ} {p : κ × ν} : p ∈ m.above k ↔ p ∈ m.entries ∧ k < p.1 := by
  simp [above]

theorem findIdx_append_of_false {α : Type*} {f : α → Bool} {l l' : List α} (h : ∀ x ∈ l, f x = false) :
    (l ++ l').findIdx f = l.length + l'.findIdx f := by
  rw [List.findIdx_append, if_neg, Nat.add_comm]
  rw [List.findIdx_eq_length_of_false h]
  exact Nat.lt_irrefl _

theorem findIdx_eq_zero_of_true {α : Type*} {f : α → Bool} {l : List α} (h : ∀ x ∈ l, f x = true) :
    l.findIdx f = 0 := by
  cases l with
  | nil => rfl
  | cons x l => rw [List.findIdx_cons, h x (List.mem_cons_self ..)]; rfl

/-- The lower bound of a key stands right after the smaller entries. -/
theorem lowerBound_eq (m : Multimap κ ν) (k : κ) : m.lowerBound k = (m.below k).length := by
  unfold lowerBound
  rw [m.split k, List.append_assoc, findIdx_append_of_false, findIdx_eq_zero_of_true, Nat.add_zero]
  · intro p hp
    rcases List.mem_append.1 hp with hp | hp
    · exact decide_eq_true (mem_equal.1 hp).2.ge
    · exact decide_eq_true (mem_above.1 hp).2.le
  · exact fun p hp => decide_eq_false (not_le_of_gt (mem_below.1 hp).2)

/-- The upper bound of a key stands right after the equal entries. -/
theorem upperBound_eq (m : Multimap κ ν) (k : κ) :
    m.upperBound k = (m.below k).length + (m.equal k).length := by
  unfold upperBound
  rw [m.split k, findIdx_append_of_false, findIdx_eq_zero_of_true, Nat.add_zero, List.length_append]
  · exact fun p hp => decide_eq_true (mem_above.1 hp).2
  · intro p hp
    rcases List.mem_append.1 hp with hp | hp
    · exact decide_eq_false (not_lt_of_gt (mem_below.1 hp).2)
    · exact decide_eq_false (not_lt_of_ge (mem_equal.1 hp).2.le)

/-- The search through the equal range of a key is the search through the equal entries. -/
theorem find_equalRange [DecidableEq ν] (m : Multimap κ ν) (k : κ) (v : ν) :
    m.find (m.lowerBound k) (m.upperBound k) v =
      (m.below k).length + (m.equal k).findIdx fun p => decide (p.2 = v) := by
  unfold find
  rw [lowerBound_eq, upperBound_eq, Nat.add_sub_cancel_left]
  congr 2
  conv_lhs => rw [m.split k]
  rw [List.append_assoc, List.drop_left, List.take_left]

theorem entries_length (m : Multimap κ ν) (k : κ) :
    m.entries.length = (m.below k).length + (m.equal k).length + (m.above k).length := by
  conv_lhs => rw [m.split k]
  simp only [List.length_append]

/-- The entries with greater keys lose their first one unless there are none. -/
theorem above_tail_eq_iff {m : Multimap κ ν} {k : κ} :
    (m.above k).tail = m.above k ↔ ∀ p ∈ m.entries, p.1 ≤ k := by
  constructor
  · intro htail p hm
    by_contra hlt
    have hmem : p ∈ m.above k := mem_above.2 ⟨hm, lt_of_not_ge hlt⟩
    have hlen := congrArg List.length htail
    rw [List.length_tail] at hlen
    have hpos := List.length_pos_of_mem hmem
    omega
  · intro hle
    have hnil : m.above k = [] := by
      refine List.eq_nil_iff_forall_not_mem.2 fun p hm => ?_
      obtain ⟨hm, hlt⟩ := mem_above.1 hm
      exact not_lt_of_ge (hle p hm) hlt
    rw [hnil]; rfl

/-! ## Insertion and erasure -/

/-- Insertion after the entries with the same key. -/
def emplace (m : Multimap κ ν) (k : κ) (v : ν) : Multimap κ ν where
  entries := m.entries.take (m.upperBound k) ++ (k, v) :: m.entries.drop (m.upperBound k)
  sorted := by
    have htake : m.entries.take (m.upperBound k) = m.below k ++ m.equal k := by
      rw [upperBound_eq, ← List.length_append]
      conv_lhs => rw [m.split k]
      exact List.take_left
    have hdrop : m.entries.drop (m.upperBound k) = m.above k := by
      rw [upperBound_eq, ← List.length_append]
      conv_lhs => rw [m.split k]
      exact List.drop_left
    have hs := m.sorted
    rw [m.split k, List.pairwise_append] at hs
    rw [htake, hdrop, List.pairwise_append, List.pairwise_cons]
    refine ⟨hs.1, ⟨fun q hq => (mem_above.1 hq).2.le, hs.2.1⟩, fun p hp q hq => ?_⟩
    rcases List.mem_cons.1 hq with rfl | hq
    · rcases List.mem_append.1 hp with hp | hp
      · exact (mem_below.1 hp).2.le
      · exact (mem_equal.1 hp).2.le
    · exact hs.2.2 p hp q hq

/-- Erasure of one position. -/
def erase (m : Multimap κ ν) (i : Nat) : Multimap κ ν where
  entries := m.entries.eraseIdx i
  sorted := m.sorted.sublist (List.eraseIdx_sublist _ i)

/-- Erasure of the positions before `i`. -/
def eraseBefore (m : Multimap κ ν) (i : Nat) : Multimap κ ν where
  entries := m.entries.drop i
  sorted := m.sorted.sublist (List.drop_sublist i _)

@[simp] theorem erase_entries (m : Multimap κ ν) (i : Nat) : (m.erase i).entries = m.entries.eraseIdx i := rfl

theorem emplace_perm (m : Multimap κ ν) (k : κ) (v : ν) :
    (m.emplace k v).entries.Perm ((k, v) :: m.entries) := by
  have h : (m.emplace k v).entries.Perm
      ((k, v) :: (m.entries.take (m.upperBound k) ++ m.entries.drop (m.upperBound k))) :=
    List.perm_middle
  rwa [List.take_append_drop] at h

theorem mem_emplace {m : Multimap κ ν} {k : κ} {v : ν} {p : κ × ν} :
    p ∈ (m.emplace k v).entries ↔ p = (k, v) ∨ p ∈ m.entries := by
  rw [(m.emplace_perm k v).mem_iff, List.mem_cons]

end Multimap
