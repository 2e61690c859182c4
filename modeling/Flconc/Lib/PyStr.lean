/-
The strings of Python, over any characters: `find`, slices whose bounds may count from the end, and `replace`. A
pattern that does not overlap itself is found behind every text without it, and a character that is not in a
pattern keeps what stands on its two sides apart.
-/
import Mathlib.Data.List.Infix

namespace PyStr

variable {α : Type*} [DecidableEq α]

/-! ## The methods -/

/-- `s.find(pat)`: the first position of the pattern, or -1. -/
def find (s pat : List α) : Int :=
  match s.tails.findIdx? pat.isPrefixOf with
  | some i => i
  | none => -1

/-- A bound of a slice of `n` characters. -/
def bound (n : Nat) (i : Int) : Nat := min (if i < 0 then i + n else i).toNat n

omit [DecidableEq α] in
/-- `s[i:j]`. -/
def slice (s : List α) (i j : Int) : List α :=
  (s.drop (bound s.length i)).take (bound s.length j - bound s.length i)

omit [DecidableEq α] in
/-- `s[i:]`. -/
def sliceFrom (s : List α) (i : Int) : List α := s.drop (bound s.length i)

/-- What is left of a pattern that was replaced is skipped. -/
def replaceFrom (old new : List α) : Nat → List α → List α
  | _, [] => []
  | k + 1, _ :: s => replaceFrom old new k s
  | 0, c :: s =>
    if old.isPrefixOf (c :: s) then new ++ replaceFrom old new (old.length - 1) s
    else c :: replaceFrom old new 0 s

/-- `s.replace(old, new)`, for a pattern that is not empty. -/
def replace (s old new : List α) : List α := replaceFrom old new 0 s

/-! ## Slices -/

variable {s pat a b : List α}

omit [DecidableEq α] in
theorem sliceFrom_natCast (s : List α) (i : Nat) : sliceFrom s i = s.drop i := by
  unfold sliceFrom bound
  rw [if_neg (by omega), Int.toNat_natCast]
  rcases Nat.le_total i s.length with h | h
  · rw [Nat.min_eq_left h]
  · rw [Nat.min_eq_right h, List.drop_length, List.drop_eq_nil_of_le h]

omit [DecidableEq α] in
theorem slice_natCast (s : List α) (i j : Nat) : slice s i j = (s.take j).drop i := by
  unfold slice bound
  rw [if_neg (by omega), if_neg (by omega), Int.toNat_natCast, Int.toNat_natCast, List.drop_take]
  rcases Nat.le_total i s.length with h | h
  · rw [Nat.min_eq_left h]
    rcases Nat.le_total j s.length with h' | h'
    · rw [Nat.min_eq_left h']
    · rw [Nat.min_eq_right h', List.take_of_length_le (by simp), List.take_of_length_le (by simp; omega)]
  · rw [Nat.min_eq_right h, List.drop_length, List.drop_eq_nil_of_le h, List.take_nil, List.take_nil]

omit [DecidableEq α] in
/-- What stands between two texts. -/
theorem slice_middle (a b c : List α) : slice (a ++ (b ++ c)) a.length (a.length + b.length : Nat) = b := by
  rw [slice_natCast, ← List.append_assoc, ← List.length_append, List.take_left, List.drop_left]

omit [DecidableEq α] in
/-- `s[0:-1]`. -/
theorem slice_zero_neg_one (s : List α) : slice s 0 (-1) = s.dropLast := by
  have hback : bound s.length (-1) = s.length - 1 := by
    unfold bound
    rw [if_pos (by decide)]
    omega
  have hfront : bound s.length 0 = 0 := by
    unfold bound
    rw [if_neg (by decide), Int.toNat_zero, Nat.zero_min]
  unfold slice
  rw [hback, hfront, List.drop_zero, Nat.sub_zero, List.dropLast_eq_take]

/-! ## Occurrences -/

/-- What stands at a place of a text does not overlap itself. -/
def Borderless (pat : List α) : Prop := ∀ n < pat.length, 0 < n → pat.take n ≠ pat.drop (pat.length - n)

instance (pat : List α) : Decidable (Borderless pat) := by
  unfold Borderless
  infer_instance

theorem find_eq_iff {i : Nat} :
    find s pat = i ↔ i ≤ s.length ∧ pat <+: s.drop i ∧ ∀ j < i, ¬ pat <+: s.drop j := by
  have hfind : find s pat = i ↔ s.tails.findIdx? pat.isPrefixOf = some i := by
    unfold find
    split
    · rename_i j hj
      rw [hj, Option.some_inj, Int.natCast_inj]
    · rename_i hnone
      rw [hnone]
      exact iff_of_false (by omega) (by simp)
  rw [hfind, List.findIdx?_eq_some_iff_getElem]
  constructor
  · rintro ⟨hlt, hat, hbefore⟩
    rw [List.length_tails] at hlt
    refine ⟨by omega, ?_, fun j hj hpre => ?_⟩
    · simpa using hat
    · exact hbefore j hj (by simpa using hpre)
  · rintro ⟨hle, hat, hbefore⟩
    refine ⟨by rw [List.length_tails]; omega, by simpa using hat, fun j hj hpre => hbefore j hj ?_⟩
    simpa using hpre

theorem find_eq_neg_one_iff : find s pat = -1 ↔ ¬ pat <:+: s := by
  have hfind : find s pat = -1 ↔ s.tails.findIdx? pat.isPrefixOf = none := by
    unfold find
    split
    · rename_i j hj
      rw [hj]
      exact iff_of_false (by omega) (by simp)
    · rename_i hnone
      exact iff_of_true rfl hnone
  rw [hfind, List.findIdx?_eq_none_iff, List.infix_iff_prefix_suffix]
  simp only [List.mem_tails, List.isPrefixOf_iff_prefix, Bool.eq_false_iff, ne_eq, not_exists, not_and]
  exact ⟨fun h t hp hs => h t hs hp, fun h t hs hp => h t hp hs⟩

/-- It is nowhere, or somewhere in the text. -/
theorem find_cases (s pat : List α) : find s pat = -1 ∨ ∃ i : Nat, find s pat = i ∧ i + pat.length ≤ s.length := by
  by_cases h : find s pat = -1
  · exact .inl h
  · have hi : ∃ i : Nat, find s pat = i := by
      unfold find at h ⊢
      split
      · exact ⟨_, rfl⟩
      · rename_i hnone
        rw [hnone] at h
        exact absurd rfl h
    obtain ⟨i, hi⟩ := hi
    obtain ⟨hle, hpre, -⟩ := find_eq_iff.1 hi
    have hlen := hpre.length_le
    rw [List.length_drop] at hlen
    exact .inr ⟨i, hi, by omega⟩

omit [DecidableEq α] in
theorem infix_append_cons {c : α} (hc : c ∉ pat) : pat <:+: a ++ c :: b ↔ pat <:+: a ∨ pat <:+: b := by
  have hnil : ∀ p, p <+: c :: b → (∀ d ∈ p, d ∈ pat) → p = [] := by
    intro p hp hsub
    cases p with
    | nil => rfl
    | cons d p =>
      rw [(List.cons_prefix_cons.1 hp).1] at hsub
      exact absurd (hsub c List.mem_cons_self) hc
  rw [List.infix_append_iff, List.infix_cons_iff]
  constructor
  · rintro (h | (h | h) | ⟨p, q, rfl, hp, hq⟩)
    · exact .inl h
    · rw [hnil pat h fun _ => id]
      exact .inl List.nil_infix
    · exact .inr h
    · rw [hnil q hq fun d hd => List.mem_append_right p hd, List.append_nil]
      exact .inl hp.isInfix
  · rintro (h | h)
    · exact .inl h
    · exact .inr (.inl (.inr h))

omit [DecidableEq α] in
theorem infix_append_free (hp : pat ≠ []) (ha : ∀ c ∈ a, c ∉ pat) : pat <:+: a ++ b ↔ pat <:+: b := by
  induction a with
  | nil => exact Iff.rfl
  | cons c a ih =>
    obtain ⟨hc, ha⟩ := List.forall_mem_cons.1 ha
    rw [← ih ha]
    refine (infix_append_cons (a := []) hc).trans (or_iff_right fun h => hp ?_)
    exact List.infix_nil.1 h

omit [DecidableEq α] in
theorem not_infix_of_not_mem {c : α} (hc : c ∈ pat) (hs : c ∉ s) : ¬ pat <:+: s := fun h => hs (h.subset hc)

/-- It is found behind a text without it. -/
theorem find_behind (hb : Borderless pat) (ha : ¬ pat <:+: a) (b : List α) : find (a ++ (pat ++ b)) pat = a.length := by
  refine find_eq_iff.2 ⟨by simp, ?_, fun j hj hpre => ?_⟩
  · rw [List.drop_left]
    exact List.prefix_append pat b
  · rw [List.drop_append_of_le_length hj.le] at hpre
    have hdrop : (a.drop j).length = a.length - j := List.length_drop
    rcases Nat.le_total pat.length (a.drop j).length with hle | hle
    · have hin : pat <+: a.drop j := List.prefix_of_prefix_length_le hpre (List.prefix_append _ _) hle
      exact ha (hin.isInfix.trans (List.drop_suffix j a).isInfix)
    · -- it would begin in the text and end in itself
      obtain ⟨r, hr⟩ := List.prefix_of_prefix_length_le (List.prefix_append _ _) hpre hle
      have hlen := congrArg List.length hr
      rw [List.length_append] at hlen
      have hrpat : r <+: pat := by
        have hboth : a.drop j ++ r <+: a.drop j ++ (pat ++ b) := by
          rw [hr]
          exact hpre
        rw [List.prefix_append_right_inj] at hboth
        exact List.prefix_of_prefix_length_le hboth (List.prefix_append pat b) (by omega)
      by_cases hr0 : r = []
      · refine ha ?_
        rw [← hr, hr0, List.append_nil]
        exact (List.drop_suffix j a).isInfix
      · refine hb r.length (by omega) (List.length_pos_of_ne_nil hr0) ?_
        have hdropped : pat.drop (pat.length - r.length) = r := by
          rw [show pat.length - r.length = (a.drop j).length by omega]
          conv_lhs => rw [← hr]
          exact List.drop_left
        rw [hdropped, ← List.prefix_iff_eq_take.1 hrpat]

/-- A pattern that occurs has a first occurrence. -/
theorem exists_first (hp : pat ≠ []) (h : pat <:+: s) : ∃ a b, s = a ++ (pat ++ b) ∧ ¬ pat <:+: a := by
  obtain ⟨i, hi, hle⟩ := (find_cases s pat).resolve_left fun hnone => find_eq_neg_one_iff.1 hnone h
  obtain ⟨-, ⟨b, hb⟩, hbefore⟩ := find_eq_iff.1 hi
  refine ⟨s.take i, b, by rw [hb, List.take_append_drop], ?_⟩
  rintro ⟨u, v, huv⟩
  have hlen := congrArg List.length huv
  have hpos := List.length_pos_of_ne_nil hp
  simp only [List.length_append, List.length_take] at hlen
  refine hbefore u.length (by omega) ⟨v ++ s.drop i, ?_⟩
  conv_rhs => rw [← List.take_append_drop i s, ← huv]
  simp only [List.append_assoc, List.drop_left]

/-- A single character is found behind a text without it. -/
theorem find_char {c : α} (ha : c ∉ a) (b : List α) : find (a ++ c :: b) [c] = a.length := by
  have hb : Borderless [c] := fun n hn h0 => by
    rw [List.length_singleton] at hn
    omega
  exact find_behind hb (not_infix_of_not_mem (List.mem_singleton_self c) ha) b

/-! ## Replacing -/

variable {old new : List α}

theorem replaceFrom_skip (old new a s : List α) : replaceFrom old new a.length (a ++ s) = replace s old new := by
  induction a with
  | nil => rfl
  | cons c a ih => exact ih

theorem replace_cons {c : α} (h : ¬ old <+: c :: s) :
    replace (c :: s) old new = c :: replace s old new := by
  unfold replace
  rw [replaceFrom, if_neg (by simpa using h)]

/-- A text without the pattern stays as it is. -/
theorem replace_free (h : ¬ old <:+: s) : replace s old new = s := by
  induction s with
  | nil => rfl
  | cons c s ih =>
    rw [List.infix_cons_iff, not_or] at h
    rw [replace_cons h.1, ih h.2]

theorem replace_old (h : old ≠ []) (s : List α) : replace (old ++ s) old new = new ++ replace s old new := by
  obtain ⟨c, rest, rfl⟩ := List.exists_cons_of_ne_nil h
  unfold replace
  rw [List.cons_append, replaceFrom, if_pos (by simp)]
  exact congrArg (new ++ ·) (replaceFrom_skip _ _ rest s)

/-- The first occurrence is replaced. -/
theorem replace_behind (hb : Borderless old) (hold : old ≠ []) (ha : ¬ old <:+: a) (s : List α) :
    replace (a ++ (old ++ s)) old new = a ++ (new ++ replace s old new) := by
  induction a with
  | nil => exact replace_old hold s
  | cons c a ih =>
    have hfirst : ¬ old <+: c :: (a ++ (old ++ s)) :=
      (find_eq_iff.1 (find_behind hb ha s)).2.2 0 (Nat.succ_pos _)
    rw [List.infix_cons_iff, not_or] at ha
    rw [List.cons_append, replace_cons hfirst, ih ha.2]
    rfl

omit [DecidableEq α] in
theorem prefix_append_cons {c : α} (hc : c ∉ old) : old <+: a ++ c :: b ↔ old <+: a := by
  refine ⟨fun h => ?_, fun h => h.trans (List.prefix_append a _)⟩
  rcases Nat.le_total old.length a.length with hle | hle
  · exact List.prefix_of_prefix_length_le h (List.prefix_append a _) hle
  · obtain ⟨r, rfl⟩ := List.prefix_of_prefix_length_le (List.prefix_append a _) h hle
    rw [List.prefix_append_right_inj] at h
    cases r with
    | nil => rw [List.append_nil]
    | cons d r =>
      rw [(List.cons_prefix_cons.1 h).1] at hc
      exact absurd (List.mem_append_right a List.mem_cons_self) hc

theorem replaceFrom_append_cons {c : α} (hc : c ∉ old) (hold : old ≠ []) (s : List α) :
    ∀ {a : List α} {k : Nat}, k ≤ a.length →
      replaceFrom old new k (a ++ c :: s) = replaceFrom old new k a ++ c :: replace s old new
  | [], k, hk => by
    obtain rfl : k = 0 := Nat.le_zero.1 hk
    refine replace_cons fun h => hold ?_
    exact List.prefix_nil.1 ((prefix_append_cons (a := []) hc).1 h)
  | d :: a, k + 1, hk => replaceFrom_append_cons hc hold s (a := a) (Nat.le_of_succ_le_succ hk)
  | d :: a, 0, _ => by
    have hpre : old.isPrefixOf (d :: (a ++ c :: s)) = old.isPrefixOf (d :: a) := by
      rw [Bool.eq_iff_iff, List.isPrefixOf_iff_prefix, List.isPrefixOf_iff_prefix]
      exact prefix_append_cons (a := d :: a) hc
    rw [List.cons_append, replaceFrom, replaceFrom, hpre]
    split
    · rename_i h
      have hlen := (List.isPrefixOf_iff_prefix.1 h).length_le
      rw [List.length_cons] at hlen
      rw [replaceFrom_append_cons hc hold s (by omega), List.append_assoc]
    · rw [replaceFrom_append_cons hc hold s (Nat.zero_le _)]
      rfl

/-- A character that is not in the pattern keeps its two sides apart. -/
theorem replace_append_cons {c : α} (hc : c ∉ old) (hold : old ≠ []) (a s : List α) :
    replace (a ++ c :: s) old new = replace a old new ++ c :: replace s old new :=
  replaceFrom_append_cons hc hold s (Nat.zero_le _)

theorem replace_append_free (hold : old ≠ []) (ha : ∀ c ∈ a, c ∉ old) (s : List α) :
    replace (a ++ s) old new = a ++ replace s old new := by
  induction a with
  | nil => rfl
  | cons c a ih =>
    obtain ⟨hc, ha⟩ := List.forall_mem_cons.1 ha
    exact (replace_append_cons hc hold [] (a ++ s)).trans (congrArg (c :: ·) (ih ha))

/-- A single character is taken out. -/
theorem replace_char (c : α) (s : List α) : replace s [c] [] = s.filter (· ≠ c) := by
  induction s with
  | nil => rfl
  | cons d s ih =>
    by_cases hd : d = c
    · subst hd
      rw [List.filter_cons_of_neg (by simp), ← ih]
      exact replace_old (List.cons_ne_nil d []) s
    · rw [List.filter_cons_of_pos (by simpa using hd), ← ih]
      exact replace_cons fun h => hd (List.cons_prefix_cons.1 h).1.symm

theorem replaceFrom_sublist (old : List α) : ∀ (k : Nat) (s : List α), (replaceFrom old [] k s).Sublist s
  | _, [] => by rw [replaceFrom]
  | k + 1, _ :: s => (replaceFrom_sublist old k s).cons _
  | 0, c :: s => by
    rw [replaceFrom]
    split
    · exact (replaceFrom_sublist old _ s).cons _
    · exact (replaceFrom_sublist old 0 s).cons_cons c

theorem replace_sublist (s old : List α) : (replace s old []).Sublist s := replaceFrom_sublist old 0 s

theorem mem_replaceFrom {c : α} : ∀ {k : Nat} {s : List α}, c ∈ replaceFrom old new k s → c ∈ s ∨ c ∈ new
  | _, [], h => by
    rw [replaceFrom] at h
    cases h
  | k + 1, _ :: s, h => (mem_replaceFrom (k := k) (s := s) h).imp_left (List.mem_cons_of_mem _)
  | 0, d :: s, h => by
    rw [replaceFrom] at h
    split at h
    · rcases List.mem_append.1 h with h | h
      · exact .inr h
      · exact (mem_replaceFrom h).imp_left (List.mem_cons_of_mem _)
    · rcases List.mem_cons.1 h with rfl | h
      · exact .inl List.mem_cons_self
      · exact (mem_replaceFrom h).imp_left (List.mem_cons_of_mem _)

theorem mem_replace {c : α} (h : c ∈ replace s old new) : c ∈ s ∨ c ∈ new := mem_replaceFrom h

end PyStr
