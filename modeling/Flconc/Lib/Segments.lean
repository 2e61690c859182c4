/-
A sequence kept in segments: an item goes behind the last one, in a new segment if the last segment has outgrown
a bound. So every segment but the last one has outgrown it, and none had before its last item.
-/
import Mathlib.Algebra.BigOperators.Group.List.Basic
import Mathlib.Data.List.Induction
import Mathlib.Tactic.Ring

namespace Segments

universe u

variable {β : Type u}

/-- The segments behind which nothing goes any more, and the one that items go to. -/
structure Chain (β : Type u) where
  closed : List (List β) := []
  last : List β := []

variable (size : β → Nat) (bound : Int)

def weight (seg : List β) : Nat := (seg.map size).sum

namespace Chain

def place (s : Chain β) (b : β) : Chain β :=
  if bound < weight size s.last then ⟨s.closed ++ [s.last], [b]⟩ else ⟨s.closed, s.last ++ [b]⟩

/-- The segments that the items make, one after the other. -/
def ofItems (bs : List β) : Chain β := bs.foldl (place size bound) {}

def all (s : Chain β) : List (List β) := s.closed ++ [s.last]

/-- Every closed segment has outgrown the bound, and no segment had before its last item. -/
structure Fits (s : Chain β) : Prop where
  full : ∀ seg ∈ s.closed, bound < weight size seg
  small : ∀ seg ∈ s.all, seg.length ≤ 1 ∨ weight size seg.dropLast ≤ bound

variable {size bound} {s : Chain β}

@[simp] theorem ofItems_nil : ofItems size bound [] = {} := rfl

theorem ofItems_concat (bs : List β) (b : β) :
    ofItems size bound (bs ++ [b]) = (ofItems size bound bs).place size bound b := by
  unfold ofItems
  rw [List.foldl_append]
  rfl

theorem place_full (h : bound < weight size s.last) (b : β) : s.place size bound b = ⟨s.closed ++ [s.last], [b]⟩ :=
  if_pos h

theorem place_small (h : ¬ bound < weight size s.last) (b : β) : s.place size bound b = ⟨s.closed, s.last ++ [b]⟩ :=
  if_neg h

theorem all_place (s : Chain β) (b : β) : (s.place size bound b).all.flatten = s.all.flatten ++ [b] := by
  unfold place all
  split
  · simp
  · simp

/-- Nothing gets lost and nothing changes places. -/
theorem flatten_ofItems (bs : List β) : (ofItems size bound bs).all.flatten = bs := by
  induction bs using List.reverseRecOn with
  | nil => rfl
  | append_singleton bs b ih => rw [ofItems_concat, all_place, ih]

theorem Fits.place (hf : s.Fits size bound) (b : β) : (s.place size bound b).Fits size bound := by
  unfold Chain.place
  split
  · rename_i hfull
    constructor
    · intro seg hseg
      rcases List.mem_append.1 hseg with hseg | hseg
      · exact hf.full seg hseg
      · rw [List.mem_singleton.1 hseg]
        exact hfull
    · intro seg hseg
      rcases List.mem_append.1 hseg with hseg | hseg
      · exact hf.small seg hseg
      · rw [List.mem_singleton.1 hseg]
        exact .inl (Nat.le_refl 1)
  · rename_i hsmall
    constructor
    · exact hf.full
    · intro seg hseg
      rcases List.mem_append.1 hseg with hseg | hseg
      · exact hf.small seg (List.mem_append_left _ hseg)
      · rw [List.mem_singleton.1 hseg, List.dropLast_concat]
        exact .inr (by omega)

theorem fits_ofItems (bs : List β) : (ofItems size bound bs).Fits size bound := by
  induction bs using List.reverseRecOn with
  | nil => exact ⟨by simp, by simp [all]⟩
  | append_singleton bs b ih =>
    rw [ofItems_concat]
    exact ih.place b

theorem getElem?_all_last : s.all[s.closed.length]? = some s.last := by
  unfold all
  rw [List.getElem?_append_right (Nat.le_refl _), Nat.sub_self]
  rfl

theorem getElem?_all_gt {k : Nat} (h : s.closed.length < k) : s.all[k]? = none := by
  unfold all
  rw [List.getElem?_eq_none_iff, List.length_append, List.length_singleton]
  omega

theorem getElem?_all_lt {k : Nat} (h : k < s.closed.length) : s.all[k]? = s.closed[k]? :=
  List.getElem?_append_left h

/-- An item goes to the last segment, and the other ones stay. -/
theorem getElem?_place (b : β) (k : Nat) : (s.place size bound b).all[k]?.getD [] =
    s.all[k]?.getD [] ++ if k = (s.place size bound b).closed.length then [b] else [] := by
  rcases Nat.lt_trichotomy k (s.place size bound b).closed.length with hk | rfl | hk
  · rw [if_neg (Nat.ne_of_lt hk), List.append_nil, getElem?_all_lt hk]
    unfold place at hk ⊢
    split
    · rfl
    · rename_i hsmall
      rw [if_neg hsmall] at hk
      rw [getElem?_all_lt (s := s) hk]
  · rw [if_pos rfl, getElem?_all_last]
    unfold place
    split
    · rw [getElem?_all_gt (by simp)]
      rfl
    · rw [getElem?_all_last]
      rfl
  · have hle : s.closed.length ≤ (s.place size bound b).closed.length := by
      unfold place
      split <;> simp
    rw [if_neg (Nat.ne_of_gt hk), List.append_nil, getElem?_all_gt hk, getElem?_all_gt (by omega)]

end Chain

end Segments
