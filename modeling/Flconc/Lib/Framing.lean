/-
Streams of items: a sender writes items back to back, each as a list of symbols, and the receiver gets the
symbols in pieces cut anywhere. What has arrived splits into the items that were taken off and a rest.

Taking an item off the front of the rest, getting more symbols and the sender's adding an item all keep the
split. A rest that the next item does not stand in front of means that every item that has arrived
completely was taken off.
-/
import Mathlib.Data.List.Basic
import Mathlib.Data.List.Infix

namespace Framing

universe u v

variable {α : Type u} {β : Type v} (enc : α → List β)

/-- The items, back to back. -/
def stream (as : List α) : List β := as.flatMap enc

/-- The first `n` items were taken off what has arrived, and `rest` is left of it. -/
structure Split (as : List α) (arrived : List β) (n : Nat) (rest : List β) : Prop where
  le : n ≤ as.length
  parts : arrived = stream enc (as.take n) ++ rest
  within : arrived <+: stream enc as

/-- The next item has not arrived completely. -/
def Short (as : List α) (n : Nat) (rest : List β) : Prop := ∀ a, as[n]? = some a → ¬ enc a <+: rest

variable {enc}

@[simp] theorem stream_nil : stream enc [] = [] := rfl

theorem stream_cons (a : α) (as : List α) : stream enc (a :: as) = enc a ++ stream enc as := rfl

theorem stream_append (as bs : List α) : stream enc (as ++ bs) = stream enc as ++ stream enc bs :=
  List.flatMap_append

theorem stream_take_succ {as : List α} {n : Nat} {a : α} (h : as[n]? = some a) :
    stream enc (as.take (n + 1)) = stream enc (as.take n) ++ enc a := by
  rw [List.take_add_one, h, stream_append]
  show _ ++ (enc a ++ []) = _
  rw [List.append_nil]

theorem stream_take_mono (as : List α) {m n : Nat} (h : m ≤ n) :
    stream enc (as.take m) <+: stream enc (as.take n) := by
  obtain ⟨c, hc⟩ := List.take_prefix_take_left (l := as) h
  rw [← hc, stream_append]
  exact List.prefix_append _ _

namespace Split

variable {as : List α} {arrived rest : List β} {n : Nat}

theorem nil (as : List α) : Split enc as [] 0 [] := ⟨Nat.zero_le _, rfl, List.nil_prefix⟩

/-- More symbols arrive. -/
theorem feed (h : Split enc as arrived n rest) {bs : List β} (hbs : arrived ++ bs <+: stream enc as) :
    Split enc as (arrived ++ bs) n (rest ++ bs) :=
  ⟨h.le, by rw [h.parts, List.append_assoc], hbs⟩

/-- The next item is taken off. -/
theorem next (h : Split enc as arrived n rest) {a : α} (ha : as[n]? = some a) {rest' : List β}
    (hrest : rest = enc a ++ rest') : Split enc as arrived (n + 1) rest' := by
  refine ⟨(List.getElem?_eq_some_iff.1 ha).1, ?_, h.within⟩
  rw [stream_take_succ ha, h.parts, hrest, List.append_assoc]

/-- The sender adds items. -/
theorem extend (h : Split enc as arrived n rest) (bs : List α) : Split enc (as ++ bs) arrived n rest := by
  refine ⟨?_, ?_, ?_⟩
  · rw [List.length_append]
    exact Nat.le_add_right_of_le h.le
  · rw [List.take_append_of_le_length h.le]
    exact h.parts
  · rw [stream_append]
    exact h.within.trans (List.prefix_append _ _)

theorem rest_prefix (h : Split enc as arrived n rest) : rest <+: stream enc (as.drop n) := by
  have hw := h.within
  rw [← List.take_append_drop n as, stream_append, h.parts] at hw
  exact (List.prefix_append_right_inj _).1 hw

/-- Symbols that are left belong to a next item. -/
theorem exists_next (h : Split enc as arrived n rest) (hne : rest ≠ []) :
    ∃ a, as[n]? = some a ∧ rest <+: enc a ++ stream enc (as.drop (n + 1)) := by
  have hr := h.rest_prefix
  rcases Nat.lt_or_ge n as.length with hlt | hge
  · refine ⟨as[n], List.getElem?_eq_getElem hlt, ?_⟩
    rw [List.drop_eq_getElem_cons hlt] at hr
    exact hr
  · rw [List.drop_eq_nil_of_le hge] at hr
    exact absurd (List.prefix_nil.1 hr) hne

/-- All that have arrived completely were taken off. -/
theorem complete (h : Split enc as arrived n rest) (hs : Short enc as n rest) {k : Nat} (hk : k ≤ as.length)
    (hp : stream enc (as.take k) <+: arrived) : k ≤ n := by
  by_contra hlt
  have hn : n < as.length := by omega
  have ha : as[n]? = some as[n] := List.getElem?_eq_getElem hn
  have hp' : stream enc (as.take (n + 1)) <+: arrived := (stream_take_mono as (by omega)).trans hp
  rw [stream_take_succ ha, h.parts] at hp'
  exact hs _ ha ((List.prefix_append_right_inj _).1 hp')

/-- With everything arrived and nothing left, every item was taken off. -/
theorem all (h : Split enc as arrived n rest) (hs : Short enc as n rest) (ha : arrived = stream enc as) :
    n = as.length := by
  refine Nat.le_antisymm h.le (h.complete hs (Nat.le_refl _) ?_)
  rw [List.take_length, ha]

end Split

theorem Short.nil {as : List α} {n : Nat} (hne : ∀ a, enc a ≠ []) : Short enc as n [] :=
  fun a _ hp => hne a (List.prefix_nil.1 hp)

/-- Items the sender adds have not arrived. -/
theorem Short.extend {as : List α} {arrived rest : List β} {n : Nat} (hs : Short enc as n rest)
    (hne : ∀ a, enc a ≠ []) (h : Split enc as arrived n rest) (bs : List α) : Short enc (as ++ bs) n rest := by
  intro a ha
  rcases Nat.lt_or_ge n as.length with hlt | hge
  · rw [List.getElem?_append_left hlt] at ha
    exact hs a ha
  · -- nothing was left
    have hr := h.rest_prefix
    rw [List.drop_eq_nil_of_le hge, stream_nil, List.prefix_nil] at hr
    rw [hr]
    exact Short.nil hne a ha

end Framing
