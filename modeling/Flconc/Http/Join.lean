/-
`SplitStrToMap` on a text made by joining: pairs as key, joiner and value, with the separator between
them. The length of the text that is left is kept in an `int`, so that a text of four gigabytes or more
can be cut off once on the way.
-/
import Flconc.Http.Split

namespace Flconc.Http

open Wire Text

/-! ## Joining -/

/-- The two places `SplitStrToMap` is called at. -/
inductive Pairs
  | query
  | header
  deriving DecidableEq

namespace Pairs

def split : Pairs → Bytes
  | .query => ascii "&"
  | .header => CRLF

def joiner : Pairs → UInt8
  | .query => 0x3D
  | .header => 0x3A

theorem split_ne_nil (s : Pairs) : s.split ≠ [] := by cases s <;> decide

theorem split_length (s : Pairs) : s.split.length ≤ 2 := by cases s <;> decide

theorem joiner_not_mem (s : Pairs) : s.joiner ∉ s.split := by cases s <;> decide

/-- A pair as a text. -/
def text (s : Pairs) (p : Bytes × Bytes) : Bytes := p.1 ++ s.joiner :: p.2

def join (s : Pairs) (ps : List (Bytes × Bytes)) : Bytes := s.split.intercalate (ps.map s.text)

/-- The key and the value can be told from what stands around them. -/
structure Clean (s : Pairs) (p : Bytes × Bytes) : Prop where
  nonempty : p.1 ≠ []
  key : ∀ c ∈ p.1, c ≠ 0 ∧ c ≠ s.joiner ∧ c ∉ s.split
  value : ∀ c ∈ p.2, c ∉ s.split

end Pairs

/-- The value of the last pair with the key. -/
def lastOf (key : Bytes) : List (Bytes × Bytes) → Option Bytes
  | [] => none
  | p :: ps => lastOf key ps <|> if p.1 = key then some p.2 else none

/-- One entry for each key, with its last value. -/
structure Inverts (res : StringMap) (ps : List (Bytes × Bytes)) : Prop where
  once : (res.map Prod.fst).Nodup
  last : ∀ key, res.lookup key = lastOf key ps

/-! ## What is left of the text -/

/-- How many of the parts of these lengths, each with a separator of length `w` behind it, lie in the
first `n` characters; `none` when the end is inside a separator. -/
def fitting (w : Nat) : List Nat → Nat → Option Nat
  | [], _ => some 0
  | p :: ps, n =>
    if p + w ≤ n then (fitting w ps (n - (p + w))).map (· + 1) else if n ≤ p then some 0 else none

/-- How many parts the rounds of the loop reach. The length is an `int`; one that is too small for the
count to be positive leaves the whole rest. -/
def survivors (w : Nat) : List Nat → Option Nat
  | [] => some 0
  | p :: ps =>
    let l := wrap32 ((p :: ps).map (· + w)).sum
    (if l < (p + w : Nat) then survivors w ps else fitting w ps (l - (p + w : Nat)).toNat).map (· + 1)

/-- The parts, each with the separator behind it. -/
def ended (split : Bytes) (parts : List Bytes) : Bytes := parts.flatMap (· ++ split)

/-- The first parts, or the exception of a separator that is cut. -/
def reached (parts : List Bytes) : Option Nat → Except Fault (List Bytes)
  | some k => .ok (parts.take k)
  | none => .error .thrown

section

variable {split : Bytes} (hs : split ≠ [])

/-- The parts are not empty and free of the separator's characters. -/
def CleanParts (split : Bytes) (parts : List Bytes) : Prop := ∀ p ∈ parts, p ≠ [] ∧ ∀ c ∈ p, c ∉ split

theorem ended_length (split : Bytes) (parts : List Bytes) :
    (ended split parts).length = ((parts.map List.length).map (· + split.length)).sum := by
  unfold ended
  rw [List.length_flatMap, List.map_map]
  congr 1
  exact List.map_congr_left fun p _ => List.length_append

theorem reached_cons (p : Bytes) (parts : List Bytes) (o : Option Nat) :
    reached (p :: parts) (o.map (· + 1)) = (do
      let rest ← reached parts o
      return p :: rest) := by
  cases o <;> rfl

/-- The loop on the front of such a text, short enough not to be cut again. -/
theorem splitLoop_fitting : ∀ {parts : List Bytes} {n : Nat}, CleanParts split parts → n < 2 ^ 32 →
    splitLoop split hs ((ended split parts).take n) =
      reached parts (fitting split.length (parts.map List.length) n)
  | [], n, _, _ => by
    have hnil : (ended split []).take n = [] := List.take_nil
    rw [hnil, splitLoop_none hs rfl]
    rfl
  | p :: parts, n, h, hn => by
    obtain ⟨⟨hne, hfree⟩, hparts⟩ := List.forall_mem_cons.1 h
    have htext : ended split (p :: parts) = p ++ (split ++ ended split parts) := by
      unfold ended
      rw [List.flatMap_cons, List.append_assoc]
    have hpos := List.length_pos_of_ne_nil hs
    rw [htext, List.map_cons]
    unfold fitting
    split
    · rename_i hle
      have htake : (p ++ (split ++ ended split parts)).take n =
          p ++ (split ++ (ended split parts).take (n - (p.length + split.length))) := by
        rw [List.take_append, List.take_of_length_le (by omega), List.take_append,
          List.take_of_length_le (by omega), Nat.sub_sub]
      have hrest : restBehind (p ++ (split ++ (ended split parts).take (n - (p.length + split.length))))
          (p.length + split.length) = (ended split parts).take (n - (p.length + split.length)) := by
        rw [restBehind_of_lt, drop_behind]
        rw [← htake, List.length_take]
        omega
      rw [htake, splitLoop_behind hs hfree, hrest, splitLoop_fitting hparts (by omega), reached_cons]
      simp only [if_neg hne]
    split
    · rename_i hle
      have htake : (p ++ (split ++ ended split parts)).take n = p.take n :=
        List.take_append_of_le_length hle
      rw [htake, splitLoop_none hs (findFirstOf_eq_none.2 fun c hc => hfree c (List.mem_of_mem_take hc))]
      rfl
    · -- the end is inside the separator, which is skipped by its whole length
      have htake : (p ++ (split ++ ended split parts)).take n = p ++ (split.take (n - p.length) ++ []) := by
        rw [List.take_append, List.take_of_length_le (by omega), List.take_append_of_le_length (by omega),
          List.append_nil]
      have hcut : split.take (n - p.length) ≠ [] := by
        intro hnil
        have := congrArg List.length hnil
        rw [List.length_take, List.length_nil] at this
        omega
      have hfind := findFirstOf_sep hfree (b := []) (List.take_prefix (n - p.length) split) hcut
      rw [htake, splitLoop_thrown hs hfind]
      · rfl
      · simp only [List.length_append, List.length_take, List.length_nil]
        omega

/-- The loop reaches the parts that survive the cut. -/
theorem splitLoop_ended : ∀ {parts : List Bytes}, CleanParts split parts →
    splitLoop split hs (ended split parts) = reached parts (survivors split.length (parts.map List.length))
  | [], _ => splitLoop_none hs rfl
  | p :: parts, h => by
    obtain ⟨⟨hne, hfree⟩, hparts⟩ := List.forall_mem_cons.1 h
    have hlength := ended_length split (p :: parts)
    have htext : ended split (p :: parts) = p ++ (split ++ ended split parts) := by
      unfold ended
      rw [List.flatMap_cons, List.append_assoc]
    rw [htext] at hlength ⊢
    have hl := wrap32_inInt32 (((p :: parts).map List.length).map (· + split.length)).sum
    rw [splitLoop_behind hs hfree]
    unfold restBehind
    rw [hlength, drop_behind, List.map_cons, survivors, reached_cons]
    rw [List.map_cons] at hl
    generalize wrap32 ((p.length :: parts.map List.length).map (· + split.length)).sum = l at hl ⊢
    dsimp only
    obtain ⟨-, hl⟩ := hl
    split
    · rw [splitLoop_ended hparts]
    · rw [splitLoop_fitting hs hparts (by omega)]

end

theorem fitting_of_le (w : Nat) : ∀ {lens : List Nat} {n : Nat}, (lens.map (· + w)).sum ≤ n →
    fitting w lens n = some lens.length
  | [], _, _ => rfl
  | p :: ps, n, h => by
    rw [List.map_cons, List.sum_cons] at h
    unfold fitting
    rw [if_pos (by omega), fitting_of_le w (by omega)]
    rfl

/-- Below four gigabytes every part survives. -/
theorem survivors_of_lt (w : Nat) : ∀ {lens : List Nat}, (lens.map (· + w)).sum < 2 ^ 32 →
    survivors w lens = some lens.length
  | [], _ => rfl
  | p :: ps, h => by
    have hsum : ((p :: ps).map (· + w)).sum = p + w + (ps.map (· + w)).sum := by
      rw [List.map_cons, List.sum_cons]
    have hps := survivors_of_lt w (show (ps.map (· + w)).sum < 2 ^ 32 by omega)
    unfold survivors
    dsimp only
    split
    · rw [hps]
      rfl
    · rename_i hl
      have hwrap : wrap32 (((p :: ps).map (· + w)).sum : Nat) = (((p :: ps).map (· + w)).sum : Nat) := by
        refine wrap32_of_inInt32 ⟨by omega, ?_⟩
        by_contra hge
        rw [wrap32_overflow (by omega) (by omega)] at hl
        omega
      rw [hwrap, fitting_of_le w (by omega)]
      rfl

/-! ## The map -/

/-- The pairs put in one after the other. -/
def readPairs (res : StringMap) (ps : List (Bytes × Bytes)) : StringMap :=
  ps.foldl (fun res p => res.set p.1 p.2) res

theorem readPairs_sorted : ∀ {ps : List (Bytes × Bytes)} {res : StringMap}, res.Sorted →
    (readPairs res ps).Sorted
  | [], _, h => h
  | p :: ps, res, h => by
    show (readPairs (res.set p.1 p.2) ps).Sorted
    exact readPairs_sorted (StringMap.sorted_set p.1 p.2 h)

theorem readPairs_lookup (key : Bytes) : ∀ (ps : List (Bytes × Bytes)) (res : StringMap),
    (readPairs res ps).lookup key = (lastOf key ps <|> res.lookup key)
  | [], _ => rfl
  | p :: ps, res => by
    show (readPairs (res.set p.1 p.2) ps).lookup key = _
    rw [readPairs_lookup key ps, StringMap.lookup_set, lastOf]
    cases lastOf key ps with
    | some v => rfl
    | none =>
      by_cases hk : p.1 = key
      · simp [hk]
      · simp [hk, Ne.symm hk]

theorem readPairs_inverts_iff (qs ps : List (Bytes × Bytes)) :
    Inverts (readPairs [] qs) ps ↔ ∀ key, lastOf key qs = lastOf key ps := by
  have hlookup : ∀ key, (readPairs [] qs).lookup key = lastOf key qs := by
    intro key
    rw [readPairs_lookup]
    cases lastOf key qs <;> rfl
  constructor
  · intro h key
    rw [← hlookup, h.last]
  · intro h
    have hempty : StringMap.Sorted [] := List.Pairwise.nil
    exact ⟨(readPairs_sorted hempty).nodup, fun key => (hlookup key).trans (h key)⟩

namespace Pairs

variable {s : Pairs}

theorem text_cleanParts {ps : List (Bytes × Bytes)} (h : ∀ p ∈ ps, s.Clean p) : CleanParts s.split (ps.map s.text) := by
  intro t ht
  obtain ⟨p, hp, rfl⟩ := List.mem_map.1 ht
  have hp := h p hp
  refine ⟨by simp [text], fun c hc => ?_⟩
  rcases List.mem_append.1 hc with hc | hc
  · exact (hp.key c hc).2.2
  · rcases List.mem_cons.1 hc with rfl | hc
    · exact s.joiner_not_mem
    · exact hp.value c hc

theorem foldlM_insertPair {ps : List (Bytes × Bytes)} (h : ∀ p ∈ ps, s.Clean p) (res : StringMap) :
    (ps.map s.text).foldlM (insertPair [s.joiner]) res = .ok (readPairs res ps) := by
  induction ps generalizing res with
  | nil => rfl
  | cons p ps ih =>
    obtain ⟨hp, hps⟩ := List.forall_mem_cons.1 h
    rw [List.map_cons, List.foldlM_cons, text,
      insertPair_pair hp.nonempty (fun hc => (hp.key _ hc).2.1 rfl) (fun hc => (hp.key 0 hc).1 rfl), ok_bind]
    exact ih hps _

theorem intercalate_ended (split : Bytes) : ∀ (p : Bytes) (parts : List Bytes),
    split.intercalate (p :: parts) ++ split = ended split (p :: parts)
  | p, [] => by simp [ended]
  | p, q :: parts => by
    rw [List.intercalate_cons_cons, List.append_assoc, intercalate_ended split q parts]
    simp [ended]

theorem exists_suffix (split : Bytes) : ∀ (p : Bytes) (parts : List Bytes),
    ∃ t ∈ p :: parts, t <:+ split.intercalate (p :: parts)
  | p, [] => ⟨p, List.mem_cons_self, by simp⟩
  | p, q :: parts => by
    obtain ⟨t, ht, hsuffix⟩ := exists_suffix split q parts
    refine ⟨t, List.mem_cons_of_mem p ht, hsuffix.trans ?_⟩
    rw [List.intercalate_cons_cons]
    exact List.suffix_append _ _

/-- A joined text lacks the separator at its end. -/
theorem terminated_join {p : Bytes × Bytes} {ps : List (Bytes × Bytes)} (h : ∀ q ∈ p :: ps, s.Clean q) :
    terminated (s.join (p :: ps)) s.split = ended s.split ((p :: ps).map s.text) := by
  rcases terminated_cases (s.join (p :: ps)) s.split with hend | ⟨-, hend⟩
  · rw [hend]
    exact intercalate_ended s.split (s.text p) (ps.map s.text)
  · -- the last pair and the separator would end alike
    obtain ⟨t, ht, hsuffix⟩ := exists_suffix s.split (s.text p) (ps.map s.text)
    obtain ⟨hne, hfree⟩ := text_cleanParts h t ht
    obtain ⟨c, hc⟩ := List.exists_mem_of_ne_nil t hne
    obtain ⟨d, hd⟩ := List.exists_mem_of_ne_nil s.split s.split_ne_nil
    rcases List.suffix_or_suffix_of_suffix hsuffix hend with hsub | hsub
    · exact absurd (hsub.subset hc) (hfree c hc)
    · exact absurd hd (hfree d (hsub.subset hd))

/-- The lengths of the pairs' texts. -/
def lens (ps : List (Bytes × Bytes)) : List Nat := ps.map fun p => p.1.length + 1 + p.2.length

theorem lens_eq (ps : List (Bytes × Bytes)) : (ps.map s.text).map List.length = lens ps := by
  rw [List.map_map]
  refine List.map_congr_left fun p _ => ?_
  show (p.1 ++ s.joiner :: p.2).length = _
  rw [List.length_append, List.length_cons]
  omega

theorem two_le_length {p : Bytes × Bytes} {ps : List (Bytes × Bytes)} (h : ∀ q ∈ p :: ps, s.Clean q) :
    2 ≤ (s.join (p :: ps)).length := by
  obtain ⟨t, ht, hsuffix⟩ := exists_suffix s.split (s.text p) (ps.map s.text)
  obtain ⟨q, hq, rfl⟩ := List.mem_map.1 (show t ∈ (p :: ps).map s.text from ht)
  have hpos := List.length_pos_of_ne_nil (h q hq).nonempty
  have hle := hsuffix.length_le
  rw [text, List.length_append, List.length_cons] at hle
  show 2 ≤ (s.split.intercalate (s.text p :: ps.map s.text)).length
  omega

theorem splitStrToVector_join {ps : List (Bytes × Bytes)} (h : ∀ p ∈ ps, s.Clean p) :
    splitStrToVector (s.join ps) s.split = reached (ps.map s.text) (survivors s.split.length (lens ps)) := by
  cases ps with
  | nil => rfl
  | cons p ps =>
    have htwo := two_le_length h
    have hw := s.split_length
    have hne : s.join (p :: ps) ≠ [] := by
      intro hnil
      rw [hnil] at htwo
      cases htwo
    unfold splitStrToVector
    rw [if_neg hne, dif_neg s.split_ne_nil, if_neg (by omega), terminated_join h,
      splitLoop_ended s.split_ne_nil (text_cleanParts h), lens_eq]

/-- What `SplitStrToMap` makes of a joined text: the pairs that survive, or an exception. -/
theorem splitStrToMap_join {ps : List (Bytes × Bytes)} (h : ∀ p ∈ ps, s.Clean p) :
    splitStrToMap (s.join ps) s.split [s.joiner] [] = match survivors s.split.length (lens ps) with
      | some k => .ok (readPairs [] (ps.take k))
      | none => .error .thrown := by
  have hvec := splitStrToVector_join h
  unfold splitStrToMap
  split
  · rename_i hor
    have hnil : ps = [] := by
      cases ps with
      | nil => rfl
      | cons p ps =>
        have htwo := two_le_length h
        rcases hor with hjoin | hsplit | hjoiner
        · rw [hjoin] at htwo
          cases htwo
        · exact absurd hsplit s.split_ne_nil
        · cases hjoiner
    subst hnil
    rfl
  · rw [hvec]
    cases survivors s.split.length (lens ps) with
    | none => rfl
    | some k =>
      have hk : ∀ p ∈ ps.take k, s.Clean p := fun p hp => h p (List.mem_of_mem_take hp)
      show List.foldlM (insertPair [s.joiner]) [] ((ps.map s.text).take k) = _
      rw [← List.map_take]
      exact foldlM_insertPair hk []

theorem splitStrToMap_some {ps : List (Bytes × Bytes)} (h : ∀ p ∈ ps, s.Clean p) {k : Nat}
    (hk : survivors s.split.length (lens ps) = some k) :
    splitStrToMap (s.join ps) s.split [s.joiner] [] = .ok (readPairs [] (ps.take k)) := by
  rw [splitStrToMap_join h, hk]

end Pairs

/-- Splitting gives the pairs back, the last value of each key, exactly where no other value is the last
one of its key among the pairs that survive the `int` length of the text. -/
theorem splitStrToMap_inverts_iff (s : Pairs) {ps : List (Bytes × Bytes)} (h : ∀ p ∈ ps, s.Clean p) :
    (∃ res, splitStrToMap (s.join ps) s.split [s.joiner] [] = .ok res ∧ Inverts res ps) ↔
      ∃ k, survivors s.split.length (Pairs.lens ps) = some k ∧ ∀ key, lastOf key (ps.take k) = lastOf key ps := by
  rw [Pairs.splitStrToMap_join h]
  cases survivors s.split.length (Pairs.lens ps) with
  | none => exact iff_of_false (by rintro ⟨res, hres, -⟩; cases hres) (by rintro ⟨k, hk, -⟩; cases hk)
  | some k =>
    have hinv := readPairs_inverts_iff (ps.take k) ps
    constructor
    · rintro ⟨res, hres, h⟩
      cases hres
      exact ⟨k, rfl, hinv.1 h⟩
    · rintro ⟨k', hk', h⟩
      cases hk'
      exact ⟨_, rfl, hinv.2 h⟩

/-- Below four gigabytes all pairs survive. -/
theorem splitStrToMap_inverts (s : Pairs) {ps : List (Bytes × Bytes)} (h : ∀ p ∈ ps, s.Clean p)
    (hlen : (s.join ps).length + s.split.length < 2 ^ 32) :
    ∃ res, splitStrToMap (s.join ps) s.split [s.joiner] [] = .ok res ∧ Inverts res ps := by
  have hsum : ((Pairs.lens ps).map (· + s.split.length)).sum ≤ (s.join ps).length + s.split.length := by
    cases ps with
    | nil => exact Nat.zero_le _
    | cons p ps =>
      have hended := ended_length s.split ((p :: ps).map s.text)
      rw [Pairs.lens_eq] at hended
      rw [← hended, ← List.length_append]
      exact (congrArg List.length (Pairs.intercalate_ended s.split (s.text p) (ps.map s.text))).ge
  refine ⟨readPairs [] ps, ?_, (readPairs_inverts_iff ps ps).2 fun _ => rfl⟩
  rw [Pairs.splitStrToMap_some h (survivors_of_lt _ (by omega)), Pairs.lens, List.length_map, List.take_length]

/-- The same key twice: the second value is read back. -/
theorem splitStrToMap_inverts_two :
    ∃ res, splitStrToMap (Pairs.query.join [([0x61], [0x31]), ([0x61], [0x32])]) Pairs.query.split
        [Pairs.query.joiner] [] = .ok res ∧ Inverts res [([0x61], [0x31]), ([0x61], [0x32])] := by
  refine splitStrToMap_inverts .query (fun p hp => ?_) (by decide +kernel)
  simp only [List.mem_cons, List.not_mem_nil, or_false] at hp
  rcases hp with rfl | rfl
  · exact ⟨by decide, by decide +kernel, by decide +kernel⟩
  · exact ⟨by decide, by decide +kernel, by decide +kernel⟩

theorem survivors_cut : survivors 1 [2, 2 ^ 32 - 1] = some 1 := by
  have hwrap : wrap32 (([2, 2 ^ 32 - 1].map (· + 1)).sum : Nat) = 3 := by decide +kernel
  unfold survivors
  dsimp only
  rw [hwrap]
  rfl

/-- A value so long that the length of the text is kept as 3 is cut off with its key. -/
theorem not_inverts_cut {v : Bytes} (hv : v.length = 2 ^ 32 - 3) (hfree : ∀ c ∈ v, c ∉ Pairs.query.split) :
    (∀ p ∈ [([0x61], []), ([0x62], v)], Pairs.query.Clean p) ∧
      ¬ ∃ res, splitStrToMap (Pairs.query.join [([0x61], []), ([0x62], v)]) Pairs.query.split
        [Pairs.query.joiner] [] = .ok res ∧ Inverts res [([0x61], []), ([0x62], v)] := by
  have ha : ∀ c ∈ ([0x61] : Bytes), c ≠ 0 ∧ c ≠ Pairs.query.joiner ∧ c ∉ Pairs.query.split := by decide +kernel
  have hb : ∀ c ∈ ([0x62] : Bytes), c ≠ 0 ∧ c ≠ Pairs.query.joiner ∧ c ∉ Pairs.query.split := by decide +kernel
  have hclean : ∀ p ∈ [([0x61], []), ([0x62], v)], Pairs.query.Clean p := by
    intro p hp
    rcases List.mem_cons.1 hp with rfl | hp
    · exact ⟨List.cons_ne_nil _ _, ha, nofun⟩
    · rw [List.mem_singleton.1 hp]
      exact ⟨List.cons_ne_nil _ _, hb, hfree⟩
  have hsecond : 1 + 1 + v.length = 2 ^ 32 - 1 := by omega
  have hlens : Pairs.lens [([0x61], []), ([0x62], v)] = [2, 2 ^ 32 - 1] :=
    (show Pairs.lens _ = [2, 1 + 1 + v.length] from rfl).trans (by rw [hsecond])
  have hkept : survivors Pairs.query.split.length (Pairs.lens [([0x61], []), ([0x62], v)]) = some 1 :=
    (congrArg (survivors 1) hlens).trans survivors_cut
  refine ⟨hclean, ?_⟩
  rintro ⟨res, hres, hinv⟩
  obtain rfl := Except.ok.inj ((Pairs.splitStrToMap_some hclean hkept).symm.trans hres)
  have hlast := (readPairs_inverts_iff _ _).1 hinv [0x62]
  rw [List.take_succ_cons, List.take_zero] at hlast
  have hnone : lastOf [0x62] [(([0x61], []) : Bytes × Bytes)] = none := rfl
  have hsome : lastOf [0x62] [([0x61], []), ([0x62], v)] = some v := rfl
  rw [hnone, hsome] at hlast
  cases hlast

theorem not_splitStrToMap_inverts : ¬ ∀ (s : Pairs) (ps : List (Bytes × Bytes)), (∀ p ∈ ps, s.Clean p) →
    ∃ res, splitStrToMap (s.join ps) s.split [s.joiner] [] = .ok res ∧ Inverts res ps := by
  intro h
  have hfree : ∀ c ∈ List.replicate (2 ^ 32 - 3) (0x78 : UInt8), c ∉ Pairs.query.split := by
    intro c hc
    rw [List.eq_of_mem_replicate hc]
    decide +kernel
  obtain ⟨hclean, hcut⟩ := not_inverts_cut List.length_replicate hfree
  exact hcut (h .query _ hclean)

end Flconc.Http
