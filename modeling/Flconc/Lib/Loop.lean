/-
While loops: a body that either gives the next state or leaves the loop with a result. A loop whose
every round keeps an invariant and decreases a measure ends, and what every round keeps holds of
every state at the head of the loop. A loop over a list that breaks at the first element it refuses
takes all it accepts when these come first.
-/
import Mathlib.Data.List.TakeWhile

namespace Loop

universe u v

variable {σ : Type u} {ρ : Type v} (body : σ → σ ⊕ ρ)

/-- At most `n` rounds of the loop; `none` when it has not ended by then. -/
def run : Nat → σ → Option ρ
  | 0, _ => none
  | n + 1, s =>
    match body s with
    | .inl s' => run n s'
    | .inr r => some r

/-- The loop ends. -/
def Ends (s : σ) : Prop := ∃ n r, run body n s = some r

/-- The states at the head of the loop, when it is entered in `s`. -/
inductive Head (s : σ) : σ → Prop
  | enter : Head s s
  | round {s₁ s₂ : σ} : Head s s₁ → body s₁ = .inl s₂ → Head s s₂

variable {body}

theorem Head.invariant {I : σ → Prop} {s s' : σ} (h : Head body s s') (hs : I s)
    (hI : ∀ s₁ s₂, Head body s s₁ → I s₁ → body s₁ = .inl s₂ → I s₂) : I s' := by
  induction h with
  | enter => exact hs
  | round h' hb ih => exact hI _ _ h' ih hb

theorem Ends.next {s s' : σ} (hb : body s = .inl s') (h : Ends body s') : Ends body s := by
  obtain ⟨n, r, hr⟩ := h
  refine ⟨n + 1, r, ?_⟩
  unfold run
  rw [hb]
  exact hr

theorem Ends.exit {s : σ} {r : ρ} (hb : body s = .inr r) : Ends body s := by
  refine ⟨1, r, ?_⟩
  unfold run
  rw [hb]

/-- The loop, entered in `s`, is left with the result `r`. -/
def Gives (body : σ → σ ⊕ ρ) (s : σ) (r : ρ) : Prop := ∃ n, run body n s = some r

theorem gives_exit {s : σ} {r r' : ρ} (hb : body s = .inr r) : Gives body s r' ↔ r' = r := by
  constructor
  · rintro ⟨n, hn⟩
    cases n with
    | zero => cases hn
    | succ n =>
      unfold run at hn
      rw [hb] at hn
      exact (Option.some.inj hn).symm
  · rintro rfl
    refine ⟨1, ?_⟩
    unfold run
    rw [hb]

theorem gives_next {s s' : σ} {r : ρ} (hb : body s = .inl s') : Gives body s r ↔ Gives body s' r := by
  constructor
  · rintro ⟨n, hn⟩
    cases n with
    | zero => cases hn
    | succ n =>
      unfold run at hn
      rw [hb] at hn
      exact ⟨n, hn⟩
  · rintro ⟨n, hn⟩
    refine ⟨n + 1, ?_⟩
    unfold run
    rw [hb]
    exact hn

/-- The measure rule: every round from a state at the head decreases `μ`. -/
theorem ends_of_measure (μ : σ → Nat) {s : σ}
    (hμ : ∀ s₁ s₂, Head body s s₁ → body s₁ = .inl s₂ → μ s₂ < μ s₁) : Ends body s := by
  have key : ∀ n s₁, Head body s s₁ → μ s₁ ≤ n → Ends body s₁ := by
    intro n
    induction n with
    | zero =>
      intro s₁ h hn
      cases hb : body s₁ with
      | inl s₂ =>
        have := hμ s₁ s₂ h hb
        omega
      | inr r => exact .exit hb
    | succ n ih =>
      intro s₁ h hn
      cases hb : body s₁ with
      | inl s₂ =>
        have := hμ s₁ s₂ h hb
        exact .next hb (ih s₂ (.round h hb) (by omega))
      | inr r => exact .exit hb
  exact key (μ s) s .enter (Nat.le_refl _)

/-- A loop that comes back to the state it was in does not end. -/
theorem not_ends_of_stuck {s : σ} {P : σ → Prop} (hs : P s)
    (hP : ∀ s₁, P s₁ → ∃ s₂, body s₁ = .inl s₂ ∧ P s₂) : ¬ Ends body s := by
  rintro ⟨n, r, hr⟩
  induction n generalizing s with
  | zero => cases hr
  | succ n ih =>
    obtain ⟨s₂, hb, hs₂⟩ := hP s hs
    unfold run at hr
    rw [hb] at hr
    exact ih hs₂ hr

/-! ## Lists read up to the first refusal -/

/-- A list is read to the last element with a property when none without it is in front of one. -/
theorem takeWhile_eq_filter_iff {α : Type*} {f : α → Bool} : ∀ {l : List α},
    l.takeWhile f = l.filter f ↔ l.Pairwise fun a b => f b = true → f a = true
  | [] => by simp
  | a :: l => by
    rw [List.pairwise_cons, List.takeWhile_cons, List.filter_cons]
    cases ha : f a with
    | true =>
      simp only [if_true, List.cons.injEq, true_and, implies_true]
      exact takeWhile_eq_filter_iff
    | false =>
      simp only [Bool.false_eq_true, if_false, imp_false]
      constructor
      · intro h
        have hnil := List.filter_eq_nil_iff.1 h.symm
        exact ⟨hnil, List.pairwise_of_forall_mem_list fun b _ c hc hfc => absurd hfc (hnil c hc)⟩
      · rintro ⟨h, -⟩
        exact (List.filter_eq_nil_iff.2 h).symm

/-- Behind what such a loop takes nothing is accepted, if it takes all that is. -/
theorem not_of_mem_drop {α : Type*} {f : α → Bool} {l : List α} (h : l.takeWhile f = l.filter f) {n : Nat}
    (hn : (l.takeWhile f).length ≤ n) {a : α} (ha : a ∈ l.drop n) : f a = false := by
  have htaken : (l.takeWhile f).filter f = l.takeWhile f := List.filter_eq_self.2 fun _ => List.mem_takeWhile_imp
  have hsplit : l.filter f = l.takeWhile f ++ (l.dropWhile f).filter f := by
    rw [← htaken, ← List.filter_append, List.takeWhile_append_dropWhile]
  rw [h, List.self_eq_append_right, List.filter_eq_nil_iff] at hsplit
  have hdrop : (l.takeWhile f ++ l.dropWhile f).drop (l.takeWhile f).length = l.dropWhile f := List.drop_left
  rw [List.takeWhile_append_dropWhile] at hdrop
  have hmem : a ∈ l.dropWhile f := by
    rw [← hdrop]
    exact (List.drop_sublist_drop_left l hn).mem ha
  simpa using hsplit a hmem

end Loop
