/-
The searches and the slicing of `std::string`: first occurrence of a pattern, first and last
position of a character out of a set, and `substr`, which throws behind the end. Positions are
lengths of prefixes, so a search result splits the text.
-/
import Flconc.Lib.Wire

namespace Text

open Wire

/-- The bytes of an ASCII literal. -/
def ascii (s : String) : Bytes := s.toList.map fun c => UInt8.ofNat c.toNat

/-! ## Searching -/

/-- `find`: where `pat` first occurs in the text. -/
def find (pat : Bytes) : Bytes → Option Nat
  | [] => if pat = [] then some 0 else none
  | c :: s => if pat.isPrefixOf (c :: s) then some 0 else (find pat s).map (· + 1)

/-- `find_first_of`: the first position of one of `cs`. -/
def findFirstOf (cs s : Bytes) : Option Nat := s.findIdx? fun c => c ∈ cs

/-- `find_last_of`: the last position of one of `cs`. -/
def findLastOf (cs s : Bytes) : Option Nat :=
  (s.reverse.findIdx? fun c => c ∈ cs).map (s.length - 1 - ·)

/-- `substr`: at most `n` characters from `pos` on; a position behind the end throws. -/
def substr (s : Bytes) (pos n : Nat) : Except Fault Bytes :=
  if pos ≤ s.length then .ok ((s.drop pos).take n) else .error .thrown

/-- A found pattern splits the text. -/
theorem find_split {pat : Bytes} : ∀ {s : Bytes} {i : Nat}, find pat s = some i →
    ∃ a b, s = a ++ (pat ++ b) ∧ i = a.length
  | [], i, h => by
    unfold find at h
    split at h
    · rename_i hp
      cases h
      exact ⟨[], [], by simp [hp], rfl⟩
    · cases h
  | c :: s, i, h => by
    unfold find at h
    split at h
    · rename_i hp
      cases h
      obtain ⟨b, hb⟩ := List.isPrefixOf_iff_prefix.1 hp
      exact ⟨[], b, hb.symm, rfl⟩
    · obtain ⟨j, hj, rfl⟩ := Option.map_eq_some_iff.1 h
      obtain ⟨a, b, rfl, rfl⟩ := find_split hj
      exact ⟨c :: a, b, rfl, rfl⟩

theorem find_bound {pat s : Bytes} {i : Nat} (h : find pat s = some i) : i + pat.length ≤ s.length := by
  obtain ⟨a, b, rfl, rfl⟩ := find_split h
  simp only [List.length_append]
  omega

/-- A single character is found behind the longest prefix free of it. -/
theorem find_char {c : UInt8} {a b : Bytes} (h : c ∉ a) : find [c] (a ++ c :: b) = some a.length := by
  induction a with
  | nil =>
    show find [c] (c :: b) = _
    unfold find
    rw [if_pos (by simp)]
    rfl
  | cons d a ih =>
    obtain ⟨hd, ha⟩ := not_or.1 (List.mem_cons.not.1 h)
    show find [c] (d :: (a ++ c :: b)) = _
    unfold find
    rw [if_neg (by simpa [List.isPrefixOf] using hd), ih ha]
    rfl

theorem find_cons (pat : Bytes) (c : UInt8) (s : Bytes) : find pat (c :: s) =
    if pat.isPrefixOf (c :: s) then some 0 else (find pat s).map (· + 1) := rfl

theorem find_self (pat s : Bytes) : find pat (pat ++ s) = some 0 := by
  cases hp : pat ++ s with
  | nil =>
    obtain ⟨rfl, rfl⟩ := List.append_eq_nil_iff.1 hp
    rfl
  | cons c t => rw [find_cons, if_pos (List.isPrefixOf_iff_prefix.2 ⟨s, hp⟩)]

/-- A pattern that occurs is found. -/
theorem exists_find (pat : Bytes) : ∀ a b : Bytes, ∃ i, find pat (a ++ (pat ++ b)) = some i
  | [], b => ⟨0, find_self pat b⟩
  | d :: a, b => by
    obtain ⟨i, hi⟩ := exists_find pat a b
    rw [List.cons_append, find_cons]
    split
    · exact ⟨0, rfl⟩
    · exact ⟨i + 1, by rw [hi]; rfl⟩

/-- What is found in a text is found there when more follows. -/
theorem find_append {pat : Bytes} : ∀ {s : Bytes} {i : Nat} (t : Bytes), find pat s = some i →
    find pat (s ++ t) = some i
  | [], i, t, h => by
    unfold find at h
    split at h
    · rename_i hp
      cases h
      subst hp
      cases t <;> rfl
    · cases h
  | c :: s, i, t, h => by
    rw [List.cons_append, find_cons]
    rw [find_cons] at h
    split at h
    · rename_i hp
      rw [if_pos]
      · exact h
      · rw [List.isPrefixOf_iff_prefix] at hp ⊢
        exact hp.trans (List.prefix_append (c :: s) t)
    · rename_i hp
      obtain ⟨j, hj, rfl⟩ := Option.map_eq_some_iff.1 h
      rw [if_neg, find_append t hj]
      · rfl
      · intro hp'
        rw [List.isPrefixOf_iff_prefix] at hp hp'
        have hlen : pat.length ≤ (c :: s).length := by
          have := find_bound hj
          rw [List.length_cons]
          omega
        exact hp (List.prefix_of_prefix_length_le hp' (List.prefix_append (c :: s) t) hlen)

/-- A prefix of a text has the first occurrence when it is long enough, and none otherwise. -/
theorem find_of_isPrefix {pat s t : Bytes} {i : Nat} (hpre : s <+: t) (h : find pat t = some i) :
    find pat s = if i + pat.length ≤ s.length then some i else none := by
  obtain ⟨u, rfl⟩ := hpre
  cases hs : find pat s with
  | some j =>
    have hj := find_append u hs
    rw [h] at hj
    cases hj
    rw [if_pos (find_bound hs)]
  | none =>
    rw [if_neg]
    intro hle
    -- the occurrence lies in the prefix
    obtain ⟨a, b, hab, rfl⟩ := find_split h
    have hpre : a ++ pat <+: s ++ u := ⟨b, by rw [hab, List.append_assoc]⟩
    have hlen : (a ++ pat).length ≤ s.length := by
      rw [List.length_append]
      exact hle
    obtain ⟨b', rfl⟩ := List.prefix_of_prefix_length_le hpre (List.prefix_append s u) hlen
    obtain ⟨i, hi⟩ := exists_find pat a b'
    rw [List.append_assoc, hi] at hs
    cases hs

/-- A text free of the first character of the pattern is skipped. -/
theorem find_skip {c : UInt8} {pat : Bytes} (s : Bytes) : ∀ {a : Bytes}, c ∉ a →
    find (c :: pat) (a ++ s) = (find (c :: pat) s).map (a.length + ·)
  | [], _ => by simp
  | d :: a, h => by
    obtain ⟨hd, ha⟩ := not_or.1 (List.mem_cons.not.1 h)
    rw [List.cons_append, find_cons, if_neg (by simp [List.isPrefixOf, hd]), find_skip s ha, Option.map_map]
    congr 1
    funext n
    show a.length + n + 1 = (d :: a).length + n
    rw [List.length_cons]
    omega

/-- A pattern is found behind a text free of its first character. -/
theorem find_behind {c : UInt8} {pat : Bytes} {a : Bytes} (h : c ∉ a) (s : Bytes) :
    find (c :: pat) (a ++ (c :: pat ++ s)) = some a.length := by
  rw [find_skip _ h, find_self]
  rfl

/-! ## Characters out of a set -/

theorem findFirstOf_behind {cs a : Bytes} {c : UInt8} (ha : ∀ d ∈ a, d ∉ cs) (hc : c ∈ cs) (s : Bytes) :
    findFirstOf cs (a ++ c :: s) = some a.length := by
  unfold findFirstOf
  rw [List.findIdx?_append, List.findIdx?_eq_none_iff.2 (by simpa using ha), List.findIdx?_cons]
  simp [hc]

theorem findFirstOf_eq_none {cs s : Bytes} : findFirstOf cs s = none ↔ ∀ d ∈ s, d ∉ cs := by
  unfold findFirstOf
  rw [List.findIdx?_eq_none_iff]
  simp

/-- A character that is found splits the text. -/
theorem findFirstOf_split {cs s : Bytes} {i : Nat} (h : findFirstOf cs s = some i) :
    ∃ a c b, s = a ++ c :: b ∧ i = a.length ∧ c ∈ cs ∧ ∀ d ∈ a, d ∉ cs := by
  obtain ⟨hlt, hc, hbefore⟩ := List.findIdx?_eq_some_iff_getElem.1 h
  refine ⟨s.take i, s[i], s.drop (i + 1), ?_, ?_, by simpa using hc, fun d hd => ?_⟩
  · rw [List.getElem_cons_drop, List.take_append_drop]
  · rw [List.length_take]
    omega
  · obtain ⟨j, hj, rfl⟩ := List.mem_take_iff_getElem.1 hd
    have := hbefore j (by omega)
    simpa using this

theorem findLastOf_behind {cs a s : Bytes} {c : UInt8} (hs : ∀ d ∈ s, d ∉ cs) (hc : c ∈ cs) :
    findLastOf cs (a ++ c :: s) = some a.length := by
  have hrev : (a ++ c :: s).reverse = s.reverse ++ c :: a.reverse := by simp
  unfold findLastOf
  have h := findFirstOf_behind (a := s.reverse) (fun d hd => hs d (List.mem_reverse.1 hd)) hc a.reverse
  unfold findFirstOf at h
  rw [hrev, h]
  simp only [Option.map_some, List.length_append, List.length_cons, List.length_reverse]
  congr 1
  omega

/-- Every text with the character in it splits at its first occurrence. -/
theorem exists_first {c : UInt8} : ∀ {s : Bytes}, c ∈ s → ∃ a b, s = a ++ c :: b ∧ c ∉ a
  | d :: s, h => by
    by_cases hd : d = c
    · subst hd
      exact ⟨[], s, rfl, nofun⟩
    · obtain ⟨a, b, rfl, ha⟩ := exists_first (List.mem_of_ne_of_mem (Ne.symm hd) h)
      exact ⟨d :: a, b, rfl, by simp [ha, Ne.symm hd]⟩

/-- What is left behind a text and the pattern that ends it. -/
theorem drop_behind (a b s : Bytes) : (a ++ (b ++ s)).drop (a.length + b.length) = s := by
  rw [← List.drop_drop, List.drop_left, List.drop_left]

theorem substr_of_le {s : Bytes} {pos n : Nat} (h : pos ≤ s.length) :
    substr s pos n = .ok ((s.drop pos).take n) := by
  unfold substr
  rw [if_pos h]

theorem substr_front (s : Bytes) (n : Nat) : substr s 0 n = .ok (s.take n) := by
  rw [substr_of_le (Nat.zero_le _), List.drop_zero]

theorem substr_back {s : Bytes} {pos n : Nat} (h : pos ≤ s.length) (hn : s.length - pos ≤ n) :
    substr s pos n = .ok (s.drop pos) := by
  rw [substr_of_le h, List.take_of_length_le (by rw [List.length_drop]; exact hn)]

/-! ## Splitting at a pattern -/

/-- What stands between the occurrences of a pattern, which are taken from the front and do not
overlap. -/
def between (pat : Bytes) (hp : pat ≠ []) (s : Bytes) : List Bytes :=
  match _h : find pat s with
  | none => [s]
  | some i => s.take i :: between pat hp (s.drop (i + pat.length))
termination_by s.length
decreasing_by
  have := find_bound _h
  have := List.length_pos_of_ne_nil hp
  simp only [List.length_drop]
  omega

/-- The texts between the occurrences that are not empty, in order. -/
def pieces (pat : Bytes) (hp : pat ≠ []) (s : Bytes) : List Bytes := (between pat hp s).filter (· ≠ [])

/-- A text made of whole separators and of characters that no separator has. -/
inductive Whole (sep : Bytes) : Bytes → Prop
  | nil : Whole sep []
  | separator {s : Bytes} : Whole sep s → Whole sep (sep ++ s)
  | other {c : UInt8} {s : Bytes} : c ∉ sep → Whole sep s → Whole sep (c :: s)

/-- A text made of parts without characters of the separator, each with a separator behind it. -/
inductive Ended (sep : Bytes) : Bytes → Prop
  | nil : Ended sep []
  | part {a b : Bytes} (ha : ∀ c ∈ a, c ∉ sep) (hb : Ended sep b) : Ended sep (a ++ (sep ++ b))

section

variable {sep : Bytes} (hs : sep ≠ [])

theorem pieces_none {s : Bytes} (h : find sep s = none) : pieces sep hs s = if s = [] then [] else [s] := by
  unfold pieces
  rw [between]
  split
  · by_cases hnil : s = [] <;> simp [hnil]
  · rename_i i hi
    rw [h] at hi
    cases hi

theorem pieces_some {s : Bytes} {i : Nat} (h : find sep s = some i) : pieces sep hs s =
    if s.take i = [] then pieces sep hs (s.drop (i + sep.length))
    else s.take i :: pieces sep hs (s.drop (i + sep.length)) := by
  unfold pieces
  conv_lhs => rw [between]
  split
  · rename_i hi
    rw [h] at hi
    cases hi
  · rename_i j hj
    rw [h] at hj
    cases hj
    rw [List.filter_cons]
    by_cases hnil : s.take i = [] <;> simp [hnil]

/-- A pattern is not found in a text without its characters. -/
theorem find_free (hs : sep ≠ []) {s : Bytes} (h : ∀ c ∈ s, c ∉ sep) : find sep s = none := by
  cases hf : find sep s with
  | none => rfl
  | some i =>
    obtain ⟨a, b, rfl, -⟩ := find_split hf
    obtain ⟨c, rest, hc⟩ := List.exists_cons_of_ne_nil hs
    have hmem : c ∈ sep := hc ▸ List.mem_cons_self
    exact absurd hmem (h c (by simp [hmem]))

theorem whole_of_free : ∀ {s : Bytes}, (∀ c ∈ s, c ∉ sep) → Whole sep s
  | [], _ => .nil
  | _ :: _, h => .other (h _ List.mem_cons_self) (whole_of_free fun c hc => h c (List.mem_cons_of_mem _ hc))

theorem Whole.append {s : Bytes} (h : Whole sep s) : ∀ {a : Bytes}, (∀ c ∈ a, c ∉ sep) → Whole sep (a ++ s)
  | [], _ => h
  | _ :: _, ha =>
    .other (ha _ List.mem_cons_self) (Whole.append h fun c hc => ha c (List.mem_cons_of_mem _ hc))

/-- The first separator of such a text has none of its characters in front. -/
theorem Whole.first {s : Bytes} (h : Whole sep s) : (∀ c ∈ s, c ∉ sep) ∨
    ∃ a b, s = a ++ (sep ++ b) ∧ (∀ c ∈ a, c ∉ sep) ∧ Whole sep b := by
  induction h with
  | nil => exact .inl nofun
  | separator hb _ => exact .inr ⟨[], _, rfl, nofun, hb⟩
  | other hc hb ih =>
    rcases ih with hfree | ⟨a, b, rfl, ha, hb⟩
    · exact .inl (List.forall_mem_cons.2 ⟨hc, hfree⟩)
    · exact .inr ⟨_ :: a, b, rfl, List.forall_mem_cons.2 ⟨hc, ha⟩, hb⟩

theorem Whole.concat {s t : Bytes} (h : Whole sep s) (ht : Whole sep t) : Whole sep (s ++ t) := by
  induction h with
  | nil => exact ht
  | separator _ ih =>
    rw [List.append_assoc]
    exact ih.separator
  | other hc _ ih => exact ih.other hc

theorem whole_copies (k : Nat) : Whole sep (List.replicate k sep).flatten := by
  induction k with
  | zero => exact .nil
  | succ k ih => exact ih.separator

theorem length_behind_lt (hs : sep ≠ []) (a b : Bytes) : b.length < (a ++ (sep ++ b)).length := by
  have hpos := List.length_pos_of_ne_nil hs
  simp only [List.length_append]
  omega

/-- Such a text is ended when nothing stands behind its last separator. -/
theorem Whole.ended (hs : sep ≠ []) {s : Bytes} (hw : Whole sep s) (hend : s = [] ∨ sep <:+ s) : Ended sep s := by
  induction hn : s.length using Nat.strong_induction_on generalizing s with
  | _ n ih =>
    rcases hend with rfl | hend
    · exact .nil
    rcases hw.first with hfree | ⟨a, b, rfl, ha, hb⟩
    · obtain ⟨c, hc⟩ := List.exists_mem_of_ne_nil sep hs
      exact absurd hc (hfree c (hend.subset hc))
    refine .part ha (ih _ (hn ▸ length_behind_lt hs a b) hb ?_ rfl)
    -- what is behind the first separator ends with one, too
    have hbs : b <:+ a ++ (sep ++ b) := ⟨a ++ sep, List.append_assoc _ _ _⟩
    rcases Nat.le_total sep.length b.length with hle | hle
    · exact .inr (List.suffix_of_suffix_length_le hend hbs hle)
    · have hsub : b <:+ sep := List.suffix_of_suffix_length_le hbs hend hle
      rcases hb.first with hfree | ⟨a', b', rfl, -, -⟩
      · exact .inl (List.eq_nil_iff_forall_not_mem.2 fun c hc => hfree c hc (hsub.subset hc))
      · have heq := hsub.eq_of_length_le (by simp only [List.length_append]; omega)
        exact .inr ⟨[], heq.symm⟩

theorem pieces_behind {a b : Bytes} (ha : ∀ c ∈ a, c ∉ sep) : pieces sep hs (a ++ (sep ++ b)) =
    if a = [] then pieces sep hs b else a :: pieces sep hs b := by
  obtain ⟨c, rest, rfl⟩ := List.exists_cons_of_ne_nil hs
  have hfind : find (c :: rest) (a ++ (c :: rest ++ b)) = some a.length :=
    find_behind (fun hc => ha c hc List.mem_cons_self) b
  rw [pieces_some hs hfind, drop_behind, List.take_left]

theorem pieces_nil : pieces sep hs [] = [] := by
  rw [pieces_none hs (find_free hs (by simp)), if_pos rfl]

theorem pieces_copies (k : Nat) : pieces sep hs (List.replicate k sep).flatten = [] := by
  induction k with
  | zero => exact pieces_nil hs
  | succ k ih =>
    have h := pieces_behind hs (a := []) (b := (List.replicate k sep).flatten) nofun
    rw [if_pos rfl, ih] at h
    exact h

/-- Separators at the end make no piece. -/
theorem pieces_append_copies {s : Bytes} (hw : Whole sep s) (k : Nat) :
    pieces sep hs (s ++ (List.replicate k sep).flatten) = pieces sep hs s := by
  induction hn : s.length using Nat.strong_induction_on generalizing s with
  | _ n ih =>
    rcases hw.first with hfree | ⟨a, b, rfl, ha, hb⟩
    · rw [pieces_none hs (find_free hs hfree)]
      cases k with
      | zero => rw [List.replicate_zero, List.flatten_nil, List.append_nil, pieces_none hs (find_free hs hfree)]
      | succ k => rw [List.replicate_succ, List.flatten_cons, pieces_behind hs hfree, pieces_copies]
    · have hlt := length_behind_lt hs a b
      rw [List.append_assoc, List.append_assoc, pieces_behind hs ha, pieces_behind hs ha, ih _ (hn ▸ hlt) hb rfl]

/-- A text without pieces consists of separators. -/
theorem copies_of_pieces {s : Bytes} (h : pieces sep hs s = []) : ∃ k, s = (List.replicate k sep).flatten := by
  induction hn : s.length using Nat.strong_induction_on generalizing s with
  | _ n ih =>
    cases hf : find sep s with
    | none =>
      rw [pieces_none hs hf] at h
      by_cases hnil : s = []
      · exact ⟨0, hnil⟩
      · rw [if_neg hnil] at h
        cases h
    | some i =>
      obtain ⟨a, b, rfl, rfl⟩ := find_split hf
      have hlt := length_behind_lt hs a b
      rw [pieces_some hs hf, List.take_left, drop_behind] at h
      by_cases hnil : a = []
      · rw [if_pos hnil] at h
        obtain ⟨k, rfl⟩ := ih _ (hn ▸ hlt) h rfl
        exact ⟨k + 1, by rw [hnil]; rfl⟩
      · rw [if_neg hnil] at h
        cases h

/-- A text is such a one when its pieces have no character of the separator. -/
theorem whole_of_pieces : ∀ {s : Bytes}, (∀ piece ∈ pieces sep hs s, ∀ c ∈ piece, c ∉ sep) → Whole sep s := by
  intro s
  induction hn : s.length using Nat.strong_induction_on generalizing s with
  | _ n ih =>
    intro h
    cases hf : find sep s with
    | none =>
      rw [pieces_none hs hf] at h
      by_cases hnil : s = []
      · rw [hnil]
        exact .nil
      · rw [if_neg hnil] at h
        exact whole_of_free (h s (List.mem_singleton_self s))
    | some i =>
      obtain ⟨a, b, rfl, rfl⟩ := find_split hf
      have hlt := length_behind_lt hs a b
      rw [pieces_some hs hf, List.take_left, drop_behind] at h
      have hb : Whole sep b := by
        refine ih _ (hn ▸ hlt) rfl fun piece hp => h piece ?_
        split
        · exact hp
        · exact List.mem_cons_of_mem _ hp
      refine hb.separator.append ?_
      by_cases hnil : a = []
      · simp [hnil]
      · rw [if_neg hnil] at h
        exact h a List.mem_cons_self

end

end Text
