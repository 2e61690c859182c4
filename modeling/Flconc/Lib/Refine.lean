/-
Refinement of a machine whose operations may fail by a total one over the same operations. When
every operation taken in related states, with its precondition met, succeeds, gives the output of
the specification and leaves related states, then so does every list of operations whose
preconditions are met as they are reached.
-/
import Mathlib.Logic.Basic

namespace Refine

universe u v w x y

variable {σ : Type u} {τ : Type v} {Op : Type w} {Out : Type x} {ε : Type y}

/-! ## Lists of operations -/

/-- Every operation meets the precondition in the state it is reached in. -/
def Allowed (exec : σ → Op → Except ε (Out × σ)) (pre : σ → Op → Prop) : σ → List Op → Prop
  | _, [] => True
  | s, op :: ops => pre s op ∧ ∀ out s', exec s op = .ok (out, s') → Allowed exec pre s' ops

/-- No operation fails, each one gives the output of the specification, and the states before the
first and after each one are related. -/
def Follows (exec : σ → Op → Except ε (Out × σ)) (spec : τ → Op → Out × τ) (R : σ → τ → Prop) :
    σ → τ → List Op → Prop
  | s, t, [] => R s t
  | s, t, op :: ops => R s t ∧ ∃ s', exec s op = .ok ((spec t op).1, s') ∧
      Follows exec spec R s' (spec t op).2 ops

variable {exec : σ → Op → Except ε (Out × σ)} {pre pre' : σ → Op → Prop} {spec : τ → Op → Out × τ}
  {R : σ → τ → Prop}

theorem allowed_cons (s : σ) (op : Op) (ops : List Op) : Allowed exec pre s (op :: ops) ↔ pre s op ∧
    match exec s op with
    | .ok (_, s') => Allowed exec pre s' ops
    | .error _ => True := by
  simp only [Allowed]
  refine and_congr_right fun _ => ?_
  cases exec s op with
  | error e => simp
  | ok r =>
    constructor
    · intro h
      exact h _ _ rfl
    · intro h out s' hr
      cases hr
      exact h

instance decidableAllowed [∀ s op, Decidable (pre s op)] :
    (ops : List Op) → (s : σ) → Decidable (Allowed exec pre s ops)
  | [], _ => .isTrue trivial
  | op :: ops, s =>
    have : Decidable (match exec s op with
      | .ok (_, s') => Allowed exec pre s' ops
      | .error _ => True) :=
      match exec s op with
      | .ok (_, s') => decidableAllowed ops s'
      | .error _ => .isTrue trivial
    decidable_of_iff _ (allowed_cons s op ops).symm

theorem Allowed.and : ∀ {ops : List Op} {s : σ}, Allowed exec pre s ops → Allowed exec pre' s ops →
    Allowed exec (fun s op => pre s op ∧ pre' s op) s ops
  | [], _, _, _ => trivial
  | _ :: _, _, h, h' =>
    ⟨⟨h.1, h'.1⟩, fun out s' hs => Allowed.and (h.2 out s' hs) (h'.2 out s' hs)⟩

/-! ## The simulation rule -/

/-- From one operation to every list of them. -/
theorem follows_of_step (hstep : ∀ s t op, R s t → pre s op →
      ∃ s', exec s op = .ok ((spec t op).1, s') ∧ R s' (spec t op).2) :
    ∀ {ops : List Op} {s : σ} {t : τ}, R s t → Allowed exec pre s ops → Follows exec spec R s t ops
  | [], _, _, hr, _ => hr
  | op :: _, s, t, hr, h => by
    obtain ⟨s', hs', hr'⟩ := hstep s t op hr h.1
    exact ⟨hr, s', hs', follows_of_step hstep hr' (h.2 _ s' hs')⟩

/-- The exact rule: where an operation keeps the relation just when its precondition is met, so does a
list of them. -/
theorem follows_iff_allowed (hstep : ∀ s t op, R s t →
      ((∃ s', exec s op = .ok ((spec t op).1, s') ∧ R s' (spec t op).2) ↔ pre s op)) :
    ∀ {ops : List Op} {s : σ} {t : τ}, R s t → (Follows exec spec R s t ops ↔ Allowed exec pre s ops)
  | [], _, _, hr => ⟨fun _ => trivial, fun _ => hr⟩
  | op :: ops, s, t, hr => by
    constructor
    · rintro ⟨-, s', hs', hrest⟩
      have hr' : R s' (spec t op).2 := by
        cases ops with
        | nil => exact hrest
        | cons => exact hrest.1
      refine ⟨(hstep s t op hr).1 ⟨s', hs', hr'⟩, fun out s'' hs'' => ?_⟩
      rw [hs'] at hs''
      cases hs''
      exact (follows_iff_allowed hstep hr').1 hrest
    · rintro ⟨hpre, hrest⟩
      obtain ⟨s', hs', hr'⟩ := (hstep s t op hr).2 hpre
      exact ⟨hr, s', hs', (follows_iff_allowed hstep hr').2 (hrest _ s' hs')⟩

end Refine
