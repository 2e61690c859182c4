/-
What the splitting of comm/string_util.cc gives: pieces free of every character of the separator, a
result for each text when separator and joiner are single characters, and maps whose values come
out of the pieces.

The search is for any character of the separator and the skip is by its whole length. So the text is
split at the separator as a substring exactly when no character of the separator stands alone in it.
-/
import Flconc.Http.Codec

namespace Flconc.Http

open Wire Text

/-! ## Maps -/

namespace StringMap

theorem get_nil (k : Bytes) : get [] k = [] := rfl

theorem lookup_cons (k' v : Bytes) (m : StringMap) (k : Bytes) :
    List.lookup k ((k', v) :: m) = if k = k' then some v else m.lookup k := by
  rw [List.lookup_cons]
  by_cases h : k = k'
  · rw [if_pos h, beq_iff_eq.2 h]
  · rw [if_neg h, beq_eq_false_iff_ne.2 h]

theorem get_cons (k' v : Bytes) (m : StringMap) (k : Bytes) :
    get ((k', v) :: m) k = if k = k' then v else get m k := by
  unfold get
  rw [lookup_cons]
  split <;> rfl

theorem lookup_set (key value : Bytes) : ∀ (m : StringMap) (k : Bytes),
    (m.set key value).lookup k = if k = key then some value else m.lookup k
  | [], k => lookup_cons key value [] k
  | (k', v) :: m, k => by
    unfold set
    split
    · rename_i hk
      subst hk
      rw [lookup_cons, lookup_cons]
      split <;> rfl
    split
    · rw [lookup_cons]
    · rename_i hne _
      rw [lookup_cons, lookup_cons, lookup_set key value m k]
      by_cases hk : k = k'
      · rw [if_pos hk, if_pos hk, if_neg (by rintro rfl; exact hne hk)]
      · rw [if_neg hk, if_neg hk]

theorem get_set (key value : Bytes) (m : StringMap) (k : Bytes) :
    get (m.set key value) k = if k = key then value else get m k := by
  unfold get
  rw [lookup_set]
  split <;> rfl

theorem mem_set {key value : Bytes} : ∀ {m : StringMap} {p : Bytes × Bytes}, p ∈ m.set key value →
    p = (key, value) ∨ p ∈ m
  | [], p, h => .inl (List.mem_singleton.1 h)
  | (k', v) :: m, p, h => by
    unfold set at h
    split at h
    · rcases List.mem_cons.1 h with h | h
      · exact .inl h
      · exact .inr (List.mem_cons_of_mem _ h)
    split at h
    · exact List.mem_cons.1 h
    · rcases List.mem_cons.1 h with h | h
      · exact .inr (h ▸ List.mem_cons_self)
      · rcases mem_set h with h | h
        · exact .inl h
        · exact .inr (List.mem_cons_of_mem _ h)

/-- The entries stand in key order, each key once. -/
def Sorted (m : StringMap) : Prop := (m.map Prod.fst).Pairwise (· < ·)

theorem sorted_set (key value : Bytes) : ∀ {m : StringMap}, m.Sorted → (m.set key value).Sorted
  | [], _ => List.pairwise_singleton _ _
  | (k, v) :: m, h => by
    obtain ⟨hk, hm⟩ := List.pairwise_cons.1 h
    unfold set
    split
    · rename_i he
      exact List.pairwise_cons.2 ⟨he ▸ hk, hm⟩
    split
    · rename_i hlt
      refine List.pairwise_cons.2 ⟨fun k' hk' => ?_, h⟩
      rcases List.mem_cons.1 hk' with rfl | hk'
      · exact hlt
      · exact List.lt_trans hlt (hk k' hk')
    · rename_i hne hnlt
      refine List.pairwise_cons.2 ⟨fun k' hk' => ?_, sorted_set key value hm⟩
      obtain ⟨p, hp, rfl⟩ := List.mem_map.1 hk'
      rcases mem_set hp with rfl | hp
      · exact (List.le_iff_lt_or_eq.1 (List.not_lt.1 hnlt)).resolve_right (Ne.symm hne)
      · exact hk p.1 (List.mem_map_of_mem hp)

theorem Sorted.nodup {m : StringMap} (h : m.Sorted) : (m.map Prod.fst).Nodup := by
  unfold Sorted at h
  refine h.imp fun {a b} hlt he => ?_
  subst he
  exact List.lt_irrefl a hlt

/-- What is found is a value of the map, or empty. -/
theorem get_cases (m : StringMap) (k : Bytes) : get m k = [] ∨ (k, get m k) ∈ m := by
  induction m with
  | nil => exact .inl rfl
  | cons p m ih =>
    obtain ⟨k', v⟩ := p
    rw [get_cons]
    split
    · rename_i hk
      subst hk
      exact .inr List.mem_cons_self
    · rcases ih with h | h
      · exact .inl h
      · exact .inr (List.mem_cons_of_mem _ h)

end StringMap

/-! ## Pieces -/

section

variable {split : Bytes} (hs : split ≠ [])

theorem splitLoop_none {tmp : Bytes} (h : findFirstOf split tmp = none) : splitLoop split hs tmp = .ok [] := by
  rw [splitLoop, h]

/-- One round: a piece, unless it is empty, and the text behind the separator. -/
theorem splitLoop_some {tmp : Bytes} {i : Nat} (h : findFirstOf split tmp = some i)
    (hi : i + split.length ≤ tmp.length) : splitLoop split hs tmp =
      (do
        let rest ← splitLoop split hs (restBehind tmp (i + split.length))
        return if tmp.take i = [] then rest else tmp.take i :: rest) := by
  rw [splitLoop, h]
  dsimp only
  rw [dif_pos hi]

/-- A round that would skip past the end. -/
theorem splitLoop_thrown {tmp : Bytes} {i : Nat} (h : findFirstOf split tmp = some i)
    (hi : ¬ i + split.length ≤ tmp.length) : splitLoop split hs tmp = .error .thrown := by
  rw [splitLoop, h]
  dsimp only
  rw [dif_neg hi]

/-- The pieces are free of the characters of the separator. -/
theorem splitLoop_free : ∀ {tmp : Bytes} {vec : List Bytes}, splitLoop split hs tmp = .ok vec →
    ∀ piece ∈ vec, ∀ c ∈ piece, c ∉ split := by
  intro tmp
  induction hn : tmp.length using Nat.strong_induction_on generalizing tmp with
  | _ n ih =>
    intro vec h
    cases hf : findFirstOf split tmp with
    | none =>
      rw [splitLoop_none hs hf] at h
      cases h
      nofun
    | some i =>
      by_cases hi : i + split.length ≤ tmp.length
      · rw [splitLoop_some hs hf hi] at h
        obtain ⟨rest, hrest, h⟩ := bind_eq_ok.1 h
        have hpos := List.length_pos_of_ne_nil hs
        have hle := (restBehind_isPrefix tmp (i + split.length)).length_le
        rw [List.length_drop] at hle
        have ih := ih _ (by omega) rfl hrest
        cases h
        split
        · exact ih
        · refine List.forall_mem_cons.2 ⟨?_, ih⟩
          obtain ⟨a, c, b, rfl, rfl, -, ha⟩ := findFirstOf_split hf
          rw [List.take_left]
          exact ha
      · rw [splitLoop_thrown hs hf hi] at h
        cases h

end

/-- A separator of one character always fits. -/
theorem splitLoop_single (c : UInt8) (tmp : Bytes) : ∃ vec, splitLoop [c] (by simp) tmp = .ok vec := by
  induction hn : tmp.length using Nat.strong_induction_on generalizing tmp with
  | _ n ih =>
    cases hf : findFirstOf [c] tmp with
    | none => exact ⟨[], splitLoop_none _ hf⟩
    | some i =>
      obtain ⟨a, d, b, rfl, rfl, -, -⟩ := findFirstOf_split hf
      have hi : a.length + [c].length ≤ (a ++ d :: b).length := by simp
      have hle := (restBehind_isPrefix (a ++ d :: b) (a.length + [c].length)).length_le
      rw [List.length_drop] at hle
      have hone : [c].length = 1 := rfl
      obtain ⟨rest, hrest⟩ := ih _ (by omega) (restBehind (a ++ d :: b) (a.length + [c].length)) rfl
      rw [splitLoop_some _ hf hi, hrest]
      exact ⟨_, rfl⟩

theorem splitStrToVector_free {str split : Bytes} {vec : List Bytes} (h : splitStrToVector str split = .ok vec) :
    ∀ piece ∈ vec, ∀ c ∈ piece, c ∉ split := by
  unfold splitStrToVector at h
  split at h
  · cases h
    nofun
  split at h
  · cases h
    nofun
  split at h
  · cases h
  · exact splitLoop_free _ h

theorem splitStrToVector_single (str : Bytes) (c : UInt8) : ∃ vec, splitStrToVector str [c] = .ok vec := by
  unfold splitStrToVector
  split
  · exact ⟨[], rfl⟩
  · rename_i hstr
    rw [dif_neg (by simp), if_neg]
    · exact splitLoop_single c _
    · have := List.length_pos_of_ne_nil hstr
      simp only [List.length_singleton]
      omega

/-! ## Substrings -/

section

variable {split : Bytes} (hs : split ≠ [])

theorem findFirstOf_sep {a : Bytes} (ha : ∀ c ∈ a, c ∉ split) {t b : Bytes} (ht : t <+: split) (hne : t ≠ []) :
    findFirstOf split (a ++ (t ++ b)) = some a.length := by
  obtain ⟨c, rest, rfl⟩ := List.exists_cons_of_ne_nil hne
  exact findFirstOf_behind ha (ht.subset List.mem_cons_self) (rest ++ b)

/-- The round of a text whose first separator is whole. -/
theorem splitLoop_behind {a : Bytes} (ha : ∀ c ∈ a, c ∉ split) (b : Bytes) :
    splitLoop split hs (a ++ (split ++ b)) =
      (do
        let rest ← splitLoop split hs (restBehind (a ++ (split ++ b)) (a.length + split.length))
        return if a = [] then rest else a :: rest) := by
  have hfind := findFirstOf_sep ha (b := b) (List.prefix_refl split) hs
  rw [splitLoop_some hs hfind (by simp only [List.length_append]; omega), List.take_left]

/-- The texts of whole separators and other characters that end with a separator, and of which the
length that the loop computes cuts off separators at most. -/
inductive Kept (split : Bytes) : Bytes → Prop
  | nil : Kept split []
  | round {a b rest : Bytes} (k : Nat) (ha : ∀ c ∈ a, c ∉ split)
      (hrest : restBehind (a ++ (split ++ b)) (a.length + split.length) = rest)
      (hb : b = rest ++ (List.replicate k split).flatten) (h : Kept split rest) : Kept split (a ++ (split ++ b))

theorem Kept.whole {s : Bytes} (h : Kept split s) : Whole split s := by
  induction h with
  | nil => exact .nil
  | round k ha _ hb _ ih =>
    rw [hb]
    exact ((ih.concat (whole_copies k)).separator).append ha

/-- Such a text falls into its pieces. -/
theorem Kept.splitLoop_eq {s : Bytes} (h : Kept split s) : splitLoop split hs s = .ok (pieces split hs s) := by
  induction h with
  | nil => rw [splitLoop_none hs rfl, pieces_nil]
  | @round a b rest k ha hrest hb h ih =>
    have hpieces : pieces split hs b = pieces split hs rest := by
      rw [hb, pieces_append_copies hs h.whole]
    rw [splitLoop_behind hs ha, hrest, ih, ok_bind, pieces_behind hs ha, hpieces]
    rfl

/-- Below four gigabytes nothing is cut off. -/
theorem kept_of_lt (hs : split ≠ []) {s : Bytes} (he : Ended split s) (hlen : s.length < 2 ^ 32) : Kept split s := by
  induction he with
  | nil => exact .nil
  | @part a b ha _ ih =>
    have hrest : restBehind (a ++ (split ++ b)) (a.length + split.length) = b := by
      rw [restBehind_of_lt hlen, drop_behind]
    exact .round 0 ha hrest (List.append_nil b).symm (ih ((length_behind_lt hs a b).trans hlen))

/-- The round of a text whose pieces the loop gives gives the first of them. -/
theorem splitLoop_rest {a s rest b : Bytes} (ha : ∀ c ∈ a, c ∉ split)
    (hrest : restBehind (a ++ (split ++ s)) (a.length + split.length) = rest)
    (h : splitLoop split hs (a ++ (split ++ s)) = .ok (pieces split hs (a ++ (split ++ b)))) :
    splitLoop split hs rest = .ok (pieces split hs b) := by
  rw [splitLoop_behind hs ha, hrest] at h
  obtain ⟨vec, hvec, h⟩ := bind_eq_ok.1 h
  rw [hvec]
  rw [pieces_behind hs ha] at h
  replace h := Except.ok.inj h
  by_cases hnil : a = []
  · rw [if_pos hnil, if_pos hnil] at h
    rw [h]
  · rw [if_neg hnil, if_neg hnil] at h
    rw [(List.cons.inj h).2]

/-- A text of which the loop gives all pieces although it is cut off has lost separators only. -/
theorem kept_of_isPrefix {rest b : Bytes} (he : Ended split b) (hlen : rest.length < 2 ^ 32) (hpre : rest <+: b)
    (h : splitLoop split hs rest = .ok (pieces split hs b)) :
    ∃ k, b = rest ++ (List.replicate k split).flatten ∧ Kept split rest := by
  induction he generalizing rest with
  | nil =>
    rw [List.prefix_nil.1 hpre]
    exact ⟨0, rfl, .nil⟩
  | @part a b ha _ ih =>
    by_cases hshort : rest.length ≤ a.length
    · -- no separator is left, so there were no pieces
      have hsub : rest <+: a := List.prefix_of_prefix_length_le hpre (List.prefix_append _ _) hshort
      rw [splitLoop_none hs (findFirstOf_eq_none.2 fun c hc => ha c (hsub.subset hc))] at h
      injection h with h
      have hnil : a = [] := by
        by_contra hne
        rw [pieces_behind hs ha, if_neg hne] at h
        cases h
      obtain ⟨k, hk⟩ := copies_of_pieces hs h.symm
      obtain rfl : rest = [] := List.prefix_nil.1 (hnil ▸ hsub)
      exact ⟨k, hk, .nil⟩
    obtain ⟨t, rfl⟩ : a <+: rest := List.prefix_of_prefix_length_le (List.prefix_append _ _) hpre (by omega)
    have ht : t <+: split ++ b := (List.prefix_append_right_inj _).1 hpre
    rw [List.length_append] at hshort
    have hne : t ≠ [] := by
      rintro rfl
      exact hshort (Nat.le_refl _)
    by_cases hcut : t.length < split.length
    · -- the separator is cut off
      have hsub : t <+: split := List.prefix_of_prefix_length_le ht (List.prefix_append _ _) hcut.le
      have hfind := findFirstOf_sep ha (b := []) hsub hne
      rw [List.append_nil] at hfind
      rw [splitLoop_thrown hs hfind (by rw [List.length_append]; omega)] at h
      cases h
    obtain ⟨s, rfl⟩ : split <+: t := List.prefix_of_prefix_length_le (List.prefix_append _ _) ht (not_lt.1 hcut)
    have hrest : restBehind (a ++ (split ++ s)) (a.length + split.length) = s := by
      rw [restBehind_of_lt hlen, drop_behind]
    have hlt := (length_behind_lt hs a s).trans hlen
    obtain ⟨k, rfl, hk⟩ := ih hlt ((List.prefix_append_right_inj _).1 ht) (splitLoop_rest hs ha hrest h)
    refine ⟨k, ?_, .round 0 ha hrest (List.append_nil s).symm hk⟩
    simp only [List.append_assoc]

theorem length_restBehind_lt {tmp : Bytes} {pos : Nat} (h : restBehind tmp pos ≠ tmp.drop pos) :
    (restBehind tmp pos).length < 2 ^ 32 := by
  have hl := (wrap32_inInt32 tmp.length).2
  unfold restBehind at h ⊢
  dsimp only at h ⊢
  split at h
  · exact absurd rfl h
  · rename_i hpos
    rw [if_neg hpos, List.length_take]
    omega

theorem kept_of_splitLoop {s : Bytes} (he : Ended split s) (h : splitLoop split hs s = .ok (pieces split hs s)) :
    Kept split s := by
  induction he with
  | nil => exact .nil
  | @part a b ha hb ih =>
    have hrest := splitLoop_rest hs ha rfl h
    have hpre := restBehind_isPrefix (a ++ (split ++ b)) (a.length + split.length)
    rw [drop_behind] at hpre
    by_cases hcut : restBehind (a ++ (split ++ b)) (a.length + split.length) = b
    · rw [hcut] at hrest
      exact .round 0 ha hcut (List.append_nil b).symm (ih hrest)
    · -- from the first cut on the text is short
      have hshort := length_restBehind_lt (ne_of_ne_of_eq hcut (drop_behind a split b).symm)
      obtain ⟨k, hk, hkept⟩ := kept_of_isPrefix hs hb hshort hpre hrest
      exact .round k ha rfl hk hkept

/-! ## The separator at the end -/

theorem terminated_cases (str split : Bytes) :
    terminated str split = str ++ split ∨ (terminated str split = str ∧ split <:+ str) := by
  unfold terminated
  split
  · exact .inl rfl
  · rename_i hend
    refine .inr ⟨rfl, ?_⟩
    rw [← not_ne_iff.1 hend]
    exact List.drop_suffix _ _

theorem ended_terminated (hs : split ≠ []) {str : Bytes} (hw : Whole split str) :
    Ended split (terminated str split) := by
  rcases terminated_cases str split with h | ⟨h, hend⟩
  · have hsep : Whole split (split ++ []) := .separator .nil
    rw [List.append_nil] at hsep
    rw [h]
    exact (hw.concat hsep).ended hs (.inr (List.suffix_append _ _))
  · rw [h]
    exact hw.ended hs (.inr hend)

/-- It makes no piece. -/
theorem pieces_terminated {str : Bytes} (hw : Whole split str) :
    pieces split hs (terminated str split) = pieces split hs str := by
  rcases terminated_cases str split with h | ⟨h, -⟩
  · have hpieces := pieces_append_copies hs hw 1
    rw [List.replicate_one, List.flatten_singleton] at hpieces
    rw [h, hpieces]
  · rw [h]

/-- The strings appended are the pieces between the occurrences of the separator, and nothing is thrown,
exactly for the empty text and for texts no shorter than the separator that are made of whole separators
and other characters and of which, with the separator at the end, the loop cuts off separators at most. -/
theorem splitStrToVector_iff (str : Bytes) : splitStrToVector str split = .ok (pieces split hs str) ↔
    str = [] ∨ (split.length ≤ str.length ∧ Whole split str ∧ Kept split (terminated str split)) := by
  unfold splitStrToVector
  by_cases hnil : str = []
  · rw [if_pos hnil, hnil, pieces_nil]
    exact iff_of_true rfl (.inl rfl)
  rw [if_neg hnil, dif_neg hs]
  split
  · rename_i hshort
    refine iff_of_false (fun h => ?_) fun h => ?_
    · cases h
    · obtain ⟨hle, -⟩ := h.resolve_left hnil
      omega
  · rename_i hle
    constructor
    · intro h
      have hw := whole_of_pieces hs (splitLoop_free _ h)
      rw [← pieces_terminated hs hw] at h
      exact .inr ⟨not_lt.1 hle, hw, kept_of_splitLoop hs (ended_terminated hs hw) h⟩
    · intro h
      obtain ⟨-, hw, hkept⟩ := h.resolve_left hnil
      rw [hkept.splitLoop_eq hs, pieces_terminated hs hw]

end

/-- Two header lines. -/
theorem splitStrToVector_lines : splitStrToVector (ascii "a:b\r\nc:d") CRLF =
    .ok (pieces CRLF (by decide) (ascii "a:b\r\nc:d")) := by
  have hw : Whole CRLF (ascii "a:b" ++ (CRLF ++ ascii "c:d")) :=
    (whole_of_free (by decide +kernel)).separator.append (by decide +kernel)
  have hkept := kept_of_lt (by decide) (ended_terminated (by decide) hw) (by decide)
  exact (splitStrToVector_iff (by decide) _).2 (.inr ⟨by decide, hw, hkept⟩)

/-- A carriage return at the end is skipped with that of the line break, and the line feed left over
with a character that is not there. -/
theorem splitStrToVector_loneCR : splitStrToVector (ascii "a:b\r") CRLF = .error .thrown := by
  unfold splitStrToVector
  rw [if_neg (by decide), dif_neg (by decide), if_neg (by decide),
    splitLoop_some (i := 3) _ (by decide) (by decide)]
  have hrest : splitLoop CRLF (by decide) (restBehind (terminated (ascii "a:b\r") CRLF) (3 + CRLF.length)) =
      .error .thrown := splitLoop_thrown _ (i := 0) (by decide) (by decide)
  rw [hrest]
  rfl

theorem not_splitStrToVector_loneCR : ¬ ∀ (str split : Bytes) (hs : split ≠ []),
    splitStrToVector str split = .ok (pieces split hs str) := by
  intro h
  have hok := h (ascii "a:b\r") CRLF (by decide)
  rw [splitStrToVector_loneCR] at hok
  cases hok

/-! ## Pairs -/

/-- The text of a pair gives the pair. -/
theorem insertPair_pair {d : UInt8} {key : Bytes} (hne : key ≠ []) (hd : d ∉ key) (h0 : (0 : UInt8) ∉ key)
    (value : Bytes) (res : StringMap) : insertPair [d] res (key ++ d :: value) = .ok (res.set key value) := by
  have hfree : ∀ c ∈ key, c ∉ [d] := fun c hc hm => hd (List.mem_singleton.1 hm ▸ hc)
  have hfind : findFirstOf [d] (key ++ d :: value) = some key.length :=
    findFirstOf_behind hfree (List.mem_singleton_self d) value
  obtain ⟨j, hj⟩ := Nat.exists_eq_succ_of_ne_zero (List.length_pos_of_ne_nil hne).ne'
  have hlen : (key ++ d :: value).length = key.length + (value.length + 1) := by
    simp only [List.length_append, List.length_cons]
  have hdrop : (key ++ d :: value).drop (key.length + 1) = value := by
    rw [← List.drop_drop, List.drop_left]
    rfl
  unfold insertPair
  rw [hfind, hj]
  dsimp only
  rw [← Nat.succ_eq_add_one, ← hj, substr_front, ok_bind, List.take_left, List.length_singleton,
    substr_back (by omega) (by omega), ok_bind, hdrop, cString_eq h0]
  rfl

/-- A piece gives no pair, or a pair whose value is the end of it. -/
theorem insertPair_single (d : UInt8) (res : StringMap) (piece : Bytes) : insertPair [d] res piece = .ok res ∨
    ∃ key value, insertPair [d] res piece = .ok (res.set (cString key) value) ∧ piece = key ++ d :: value := by
  unfold insertPair
  split
  · rename_i j hf
    obtain ⟨a, c, b, rfl, hj, hc, -⟩ := findFirstOf_split hf
    obtain rfl := List.mem_singleton.1 hc
    have hj : j + 1 = a.length := hj
    refine .inr ⟨a, b, ?_, rfl⟩
    have hlen : (a ++ c :: b).length = a.length + (b.length + 1) := by simp
    rw [hj, substr_front, ok_bind, List.take_left, List.length_singleton, substr_back (by omega) (by omega), ok_bind]
    rw [← List.drop_drop, List.drop_left]
    rfl
  · exact .inl rfl

theorem foldlM_insertPair_single (vec : List Bytes) (d : UInt8) (res : StringMap) :
    ∃ res', vec.foldlM (insertPair [d]) res = .ok res' := by
  induction vec generalizing res with
  | nil => exact ⟨res, rfl⟩
  | cons piece vec ih =>
    rw [List.foldlM_cons]
    rcases insertPair_single d res piece with h | ⟨key, value, h, -⟩
    · rw [h]
      exact ih res
    · rw [h]
      exact ih _

theorem splitStrToMap_single (str : Bytes) (c d : UInt8) (res : StringMap) :
    ∃ res', splitStrToMap str [c] [d] res = .ok res' := by
  unfold splitStrToMap
  split
  · exact ⟨res, rfl⟩
  · obtain ⟨vec, hvec⟩ := splitStrToVector_single str c
    rw [hvec, ok_bind]
    exact foldlM_insertPair_single vec d res

/-- A value is part of the piece it comes from. -/
theorem foldlM_insertPair_free {split : Bytes} {d : UInt8} {vec : List Bytes} {res res' : StringMap}
    (hfold : vec.foldlM (insertPair [d]) res = .ok res') (hvec : ∀ piece ∈ vec, ∀ c ∈ piece, c ∉ split)
    (hres : ∀ p ∈ res, ∀ c ∈ p.2, c ∉ split) : ∀ p ∈ res', ∀ c ∈ p.2, c ∉ split := by
  induction vec generalizing res with
  | nil =>
    cases hfold
    exact hres
  | cons piece vec ih =>
    rw [List.foldlM_cons] at hfold
    obtain ⟨hpiece, hrest⟩ := List.forall_mem_cons.1 hvec
    rcases insertPair_single d res piece with hins | ⟨key, value, hins, rfl⟩
    · rw [hins] at hfold
      exact ih hfold hrest hres
    · rw [hins] at hfold
      refine ih hfold hrest fun p hp c hc => ?_
      rcases StringMap.mem_set hp with rfl | hp
      · exact hpiece c (by simp [show c ∈ value from hc])
      · exact hres p hp c hc

/-- The values of the map are free of the separator's characters. -/
theorem splitStrToMap_free {str split : Bytes} {d : UInt8} {res res' : StringMap}
    (h : splitStrToMap str split [d] res = .ok res') (hres : ∀ p ∈ res, ∀ c ∈ p.2, c ∉ split) :
    ∀ p ∈ res', ∀ c ∈ p.2, c ∉ split := by
  unfold splitStrToMap at h
  split at h
  · cases h
    exact hres
  · obtain ⟨vec, hvec, hfold⟩ := bind_eq_ok.1 h
    exact foldlM_insertPair_free hfold (splitStrToVector_free hvec) hres

end Flconc.Http
