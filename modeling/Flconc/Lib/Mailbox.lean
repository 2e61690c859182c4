/-
A store with one slot for every key, as a map of shared pointers gives it: an item goes into the slot of
its key when that is free and is dropped otherwise, and taking from a slot frees it.

The history is kept beside the slots: the items that were offered (an item's identity is its place in
that list), which of them were stored and which were taken. The slots hold the stored items that
nobody has taken.
-/
import Mathlib.Data.List.Nodup
import Mathlib.Data.List.Pairwise
import Mathlib.Logic.Function.Basic

namespace Mailbox

universe u v

variable {κ : Type u} {α : Type v}

structure Box (κ : Type u) (α : Type v) where
  offered : List α
  slot : κ → Option Nat
  stored : List Nat
  taken : List Nat

namespace Box

def empty : Box κ α := ⟨[], fun _ => none, [], []⟩

section

variable [DecidableEq κ]

/-- `insert` of a new object: an occupied slot keeps what it has. -/
def offer (key : α → κ) (b : Box κ α) (a : α) : Box κ α :=
  let b' := { b with offered := b.offered ++ [a] }
  match b.slot (key a) with
  | some _ => b'
  | none => { b' with slot := Function.update b.slot (key a) (some b.offered.length)
                      stored := b.stored ++ [b.offered.length] }

/-- `find` and `erase`: what the slot holds, if anything. -/
def take (b : Box κ α) (k : κ) : Option (Nat × Box κ α) :=
  (b.slot k).map fun p => (p, { b with slot := Function.update b.slot k none, taken := b.taken ++ [p] })

end

/-! ## What the slots hold -/

variable (key : α → κ)

/-- The item at place `p` was stored under the key and nobody has taken it. -/
structure Waiting (b : Box κ α) (k : κ) (p : Nat) : Prop where
  stored : p ∈ b.stored
  left : p ∉ b.taken
  keyed : ∃ a, b.offered[p]? = some a ∧ key a = k

/-- The slots hold the waiting items, each item was stored and taken once at most, in the order in
which they were offered. -/
structure Ok (b : Box κ α) : Prop where
  slots : ∀ k p, b.slot k = some p ↔ b.Waiting key k p
  order : b.stored.Pairwise (· < ·)
  bound : ∀ p ∈ b.stored, p < b.offered.length
  once : b.taken.Nodup
  took : ∀ p ∈ b.taken, p ∈ b.stored

variable {key}

theorem ok_empty : (empty : Box κ α).Ok key := by
  refine ⟨fun k p => ⟨nofun, fun h => ?_⟩, .nil, by simp [empty], .nil, by simp [empty]⟩
  exact absurd h.stored List.not_mem_nil

variable [DecidableEq κ]

@[simp] theorem offer_offered (b : Box κ α) (a : α) : (b.offer key a).offered = b.offered ++ [a] := by
  unfold offer
  split <;> rfl

@[simp] theorem offer_taken (b : Box κ α) (a : α) : (b.offer key a).taken = b.taken := by
  unfold offer
  split <;> rfl

/-- Offering keeps what is there where it is. -/
theorem Waiting.offer {b : Box κ α} {k : κ} {p : Nat} (h : b.Waiting key k p) (a : α) :
    (b.offer key a).Waiting key k p := by
  obtain ⟨hs, hl, c, hc, hk⟩ := h
  have hlt : p < b.offered.length := (List.getElem?_eq_some_iff.1 hc).1
  have hc' : (b.offered ++ [a])[p]? = some c := by rw [List.getElem?_append_left hlt, hc]
  unfold Box.offer
  split
  · exact ⟨hs, hl, c, hc', hk⟩
  · exact ⟨List.mem_append_left _ hs, hl, c, hc', hk⟩

theorem ok_offer {b : Box κ α} (hb : b.Ok key) (a : α) : (b.offer key a).Ok key := by
  have hnew : (b.offered ++ [a])[b.offered.length]? = some a := by simp
  have hold : ∀ p, p ∈ b.stored → (b.offered ++ [a])[p]? = b.offered[p]? := fun p hp =>
    List.getElem?_append_left (hb.bound p hp)
  have hlen : (b.offered ++ [a]).length = b.offered.length + 1 := by simp
  unfold Box.offer
  split
  · -- the slot is occupied: the item is dropped
    refine ⟨fun k p => ?_, hb.order, fun p hp => ?_, hb.once, hb.took⟩
    · rw [show b.slot k = some p ↔ _ from hb.slots k p]
      constructor
      · rintro ⟨hs, hl, c, hc, hk⟩
        exact ⟨hs, hl, c, (hold p hs).trans hc, hk⟩
      · rintro ⟨hs, hl, c, hc, hk⟩
        exact ⟨hs, hl, c, (hold p hs).symm.trans hc, hk⟩
    · have := hb.bound p hp
      show p < (b.offered ++ [a]).length
      omega
  · rename_i hfree
    refine ⟨fun k p => ?_, ?_, fun p hp => ?_, hb.once, fun p hp => List.mem_append_left _ (hb.took p hp)⟩
    · show Function.update b.slot (key a) (some b.offered.length) k = some p ↔ _
      by_cases hk : k = key a
      · subst hk
        rw [Function.update_self]
        constructor
        · rintro ⟨⟩
          refine ⟨by simp, fun h => ?_, a, hnew, rfl⟩
          exact absurd (hb.bound _ (hb.took _ h)) (Nat.lt_irrefl _)
        · rintro ⟨hs, hl, c, hc, hk⟩
          rcases List.mem_append.1 hs with hs | hs
          · have := (hb.slots (key a) p).2 ⟨hs, hl, c, (hold p hs).symm.trans hc, hk⟩
            rw [hfree] at this
            cases this
          · rw [List.mem_singleton.1 hs]
      · rw [Function.update_of_ne hk, hb.slots k p]
        constructor
        · rintro ⟨hs, hl, c, hc, hk'⟩
          exact ⟨List.mem_append_left _ hs, hl, c, (hold p hs).trans hc, hk'⟩
        · rintro ⟨hs, hl, c, hc, hk'⟩
          rcases List.mem_append.1 hs with hs | hs
          · exact ⟨hs, hl, c, (hold p hs).symm.trans hc, hk'⟩
          · rw [List.mem_singleton.1 hs] at hc
            obtain rfl : a = c := Option.some.inj (hnew.symm.trans hc)
            exact absurd hk'.symm hk
    · refine List.pairwise_append.2 ⟨hb.order, List.pairwise_singleton _ _, ?_⟩
      intro p hp q hq
      rw [List.mem_singleton.1 hq]
      exact hb.bound p hp
    · show p < (b.offered ++ [a]).length
      rw [hlen]
      rcases List.mem_append.1 hp with hp | hp
      · exact Nat.lt_succ_of_lt (hb.bound p hp)
      · rw [List.mem_singleton.1 hp]
        exact Nat.lt_succ_self _

/-- An item that is offered waits at its place unless its slot is occupied. -/
theorem waiting_offer_iff {b : Box κ α} (hb : b.Ok key) (a : α) (k : κ) (p : Nat) :
    (b.offer key a).Waiting key k p ↔
      b.Waiting key k p ∨ (p = b.offered.length ∧ key a = k ∧ ∀ q, ¬ b.Waiting key k q) := by
  rw [← (ok_offer hb a).slots k p, ← hb.slots k p]
  unfold Box.offer
  split
  · rename_i q hq
    refine ⟨.inl, ?_⟩
    rintro (h | ⟨-, rfl, hfree⟩)
    · exact h
    · exact absurd ((hb.slots _ q).1 hq) (hfree q)
  · rename_i hslot
    have hfree : ∀ q, ¬ b.Waiting key (key a) q := by
      intro q hq
      have hslot' := (hb.slots _ q).2 hq
      rw [hslot] at hslot'
      cases hslot'
    show Function.update b.slot (key a) (some b.offered.length) k = some p ↔ _
    by_cases hk : k = key a
    · subst hk
      rw [Function.update_self, hslot]
      constructor
      · rintro ⟨⟩
        exact .inr ⟨rfl, rfl, hfree⟩
      · rintro (h | ⟨rfl, -⟩)
        · cases h
        · rfl
    · rw [Function.update_of_ne hk]
      refine ⟨.inl, ?_⟩
      rintro (h | ⟨-, rfl, -⟩)
      · exact h
      · exact absurd rfl hk

/-- Of several items offered in turn the first with its key stays, if its slot was free. -/
theorem foldl_offer {b : Box κ α} (hb : b.Ok key) (as : List α) :
    (as.foldl (offer key) b).Ok key ∧ (as.foldl (offer key) b).offered = b.offered ++ as ∧
      (as.foldl (offer key) b).taken = b.taken ∧
      ∀ k p, (as.foldl (offer key) b).Waiting key k p ↔ b.Waiting key k p ∨
        (∀ q, ¬ b.Waiting key k q) ∧ ∃ i, as.findIdx? (key · = k) = some i ∧ p = b.offered.length + i := by
  induction as generalizing b with
  | nil => exact ⟨hb, (List.append_nil _).symm, rfl, fun k p => by simp⟩
  | cons a as ih =>
    obtain ⟨hok, hoffered, htaken, hwaits⟩ := ih (ok_offer hb a)
    refine ⟨hok, ?_, htaken.trans (offer_taken b a), fun k p => ?_⟩
    · show (as.foldl (offer key) (b.offer key a)).offered = _
      rw [hoffered, offer_offered, List.append_assoc, List.singleton_append]
    show (as.foldl (offer key) (b.offer key a)).Waiting key k p ↔ _
    rw [hwaits, offer_offered, List.length_append, List.length_singleton, List.findIdx?_cons]
    by_cases hk : key a = k
    · -- this one has the slot unless it was occupied, and what comes behind it is dropped
      have hfull : ¬ ∀ q, ¬ (b.offer key a).Waiting key k q := by
        intro h
        refine h b.offered.length ((waiting_offer_iff hb a k _).2 (.inr ⟨rfl, hk, fun q hq => ?_⟩))
        exact h q (hq.offer a)
      rw [or_iff_left fun h => hfull h.1, waiting_offer_iff hb]
      simp [hk, and_comm]
    · have hsame : ∀ q, (b.offer key a).Waiting key k q ↔ b.Waiting key k q := by
        intro q
        rw [waiting_offer_iff hb]
        exact or_iff_left fun h => hk h.2.1
      simp [hsame, hk, Nat.add_assoc, Nat.add_comm 1]

/-! ## Taking -/

theorem take_eq_some {b b' : Box κ α} {k : κ} {p : Nat} : b.take k = some (p, b') ↔
    b.slot k = some p ∧ b' = { b with slot := Function.update b.slot k none, taken := b.taken ++ [p] } := by
  unfold take
  constructor
  · intro h
    obtain ⟨q, hq, h⟩ := Option.map_eq_some_iff.1 h
    cases h
    exact ⟨hq, rfl⟩
  · rintro ⟨h, rfl⟩
    rw [h]
    rfl

theorem ok_take {b b' : Box κ α} (hb : b.Ok key) {k : κ} {p : Nat} (h : b.take k = some (p, b')) : b'.Ok key := by
  obtain ⟨hp, rfl⟩ := take_eq_some.1 h
  obtain ⟨hs, hl, c, hc, hk⟩ := (hb.slots k p).1 hp
  refine ⟨fun k' q => ?_, hb.order, hb.bound, ?_, fun q hq => ?_⟩
  · show Function.update b.slot k none k' = some q ↔ _
    by_cases hk' : k' = k
    · subst hk'
      rw [Function.update_self]
      refine ⟨nofun, fun ⟨hs', hl', hc'⟩ => ?_⟩
      -- the slot has room for one, which was taken
      have hq := (hb.slots k' q).2 ⟨hs', fun h => hl' (List.mem_append_left _ h), hc'⟩
      rw [hp] at hq
      cases hq
      exact absurd (List.mem_append_right _ (List.mem_singleton_self p)) hl'
    · rw [Function.update_of_ne hk', hb.slots k' q]
      refine ⟨fun ⟨hs', hl', c', hc', hk''⟩ => ⟨hs', fun h => ?_, c', hc', hk''⟩,
        fun ⟨hs', hl', hc'⟩ => ⟨hs', fun h => hl' (List.mem_append_left _ h), hc'⟩⟩
      rcases List.mem_append.1 h with h | h
      · exact hl' h
      · obtain rfl := List.mem_singleton.1 h
        obtain rfl : c = c' := Option.some.inj (hc.symm.trans hc')
        exact hk' (hk''.symm.trans hk)
  · refine List.nodup_append.2 ⟨hb.once, List.nodup_singleton p, ?_⟩
    rintro x hx y hy rfl
    rw [List.mem_singleton.1 hy] at hx
    exact hl hx
  · rcases List.mem_append.1 hq with hq | hq
    · exact hb.took q hq
    · rw [List.mem_singleton.1 hq]
      exact hs

/-- What is taken is the earliest item waiting under its key. -/
theorem take_earliest {b b' : Box κ α} (hb : b.Ok key) {k : κ} {p : Nat} (h : b.take k = some (p, b')) :
    b.Waiting key k p ∧ ∀ q, b.Waiting key k q → p ≤ q := by
  obtain ⟨hp, -⟩ := take_eq_some.1 h
  refine ⟨(hb.slots k p).1 hp, fun q hq => ?_⟩
  have := (hb.slots k q).2 hq
  rw [hp] at this
  cases this
  exact Nat.le_refl _

/-- Whatever else waits goes on waiting. -/
theorem waiting_take_iff {b b' : Box κ α} {k : κ} {p : Nat} (h : b.take k = some (p, b')) (k' : κ) (q : Nat) :
    b'.Waiting key k' q ↔ b.Waiting key k' q ∧ q ≠ p := by
  obtain ⟨-, rfl⟩ := take_eq_some.1 h
  constructor
  · rintro ⟨hs, hl, hk⟩
    refine ⟨⟨hs, fun hmem => hl (List.mem_append_left _ hmem), hk⟩, ?_⟩
    rintro rfl
    exact hl (List.mem_append_right _ (List.mem_singleton_self q))
  · rintro ⟨hq, hne⟩
    refine ⟨hq.stored, fun hmem => ?_, hq.keyed⟩
    rcases List.mem_append.1 hmem with hmem | hmem
    · exact hq.left hmem
    · exact hne (List.mem_singleton.1 hmem)

/-! ## One item at a time -/

omit [DecidableEq κ] in
/-- The slots hold the item at place `n`, once it has been offered, and nothing else. -/
def Only (key : α → κ) (b : Box κ α) (n : Nat) : Prop :=
  ∀ k p, b.slot k = some p ↔ p = n ∧ ∃ a, b.offered[p]? = some a ∧ key a = k

omit [DecidableEq κ] in
theorem only_empty : (empty : Box κ α).Only key 0 :=
  fun _ _ => ⟨nofun, fun ⟨_, _, ha, _⟩ => by simp [empty] at ha⟩

theorem Only.offer {b : Box κ α} {n : Nat} (h : b.Only key n) (hn : b.offered.length = n) (a : α) :
    (b.offer key a).Only key n := by
  have hfree : ∀ k, b.slot k = none := fun k => Option.eq_none_iff_forall_ne_some.2 fun p hp => by
    obtain ⟨rfl, c, hc, -⟩ := (h k p).1 hp
    rw [List.getElem?_eq_none (by omega)] at hc
    cases hc
  have hlast : (b.offered ++ [a])[n]? = some a := by simp [← hn]
  intro k p
  rw [offer_offered]
  unfold Box.offer
  rw [hfree]
  dsimp only
  rw [hn]
  by_cases hk : k = key a
  · subst hk
    rw [Function.update_self]
    constructor
    · rintro ⟨⟩
      exact ⟨rfl, a, hlast, rfl⟩
    · rintro ⟨rfl, -⟩
      rfl
  · rw [Function.update_of_ne hk, hfree]
    refine ⟨nofun, ?_⟩
    rintro ⟨rfl, c, hc, rfl⟩
    rw [hlast] at hc
    cases hc
    exact absurd rfl hk

theorem Only.take {b b' : Box κ α} {n p : Nat} {k : κ} (h : b.Only key n) (hlen : b.offered.length ≤ n + 1)
    (ht : b.take k = some (p, b')) : p = n ∧ (∃ a, b.offered[n]? = some a ∧ key a = k) ∧ b'.Only key (n + 1) ∧
      b'.offered = b.offered := by
  obtain ⟨hp, rfl⟩ := take_eq_some.1 ht
  obtain ⟨rfl, a, ha, hk⟩ := (h k p).1 hp
  refine ⟨rfl, ⟨a, ha, hk⟩, fun k' q => ⟨fun hq => ?_, ?_⟩, rfl⟩
  · -- the slot it was in is free, and the others were
    change Function.update b.slot k none k' = some q at hq
    by_cases hk' : k' = k
    · rw [hk', Function.update_self] at hq
      cases hq
    · rw [Function.update_of_ne hk'] at hq
      obtain ⟨rfl, c, hc, hck⟩ := (h k' q).1 hq
      rw [ha] at hc
      cases hc
      exact absurd (hck.symm.trans hk) hk'
  · rintro ⟨rfl, c, hc, -⟩
    have hlt := (List.getElem?_eq_some_iff.1 hc).1
    change p + 1 < b.offered.length at hlt
    omega

/-- Only another key finds nothing when the item is there. -/
theorem Only.take_none {b : Box κ α} {n : Nat} {k : κ} (h : b.Only key n) (ht : b.take k = none) {a : α}
    (ha : b.offered[n]? = some a) : key a ≠ k := by
  intro hk
  have hslot := (h k n).2 ⟨rfl, a, ha, hk⟩
  unfold Box.take at ht
  rw [hslot] at ht
  cases ht

end Box

end Mailbox
