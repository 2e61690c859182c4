/-
Runs of a labelled transition system whose step is a partial function: the state after a list of
actions, the states on the way, and the two run lemmas. A property that every step meeting a
guard preserves holds in every state of a run whose steps all meet the guard; when the guard
is exactly what one step needs, the two are equivalent.
-/
import Mathlib.Logic.Basic
import Mathlib.Data.List.Basic

namespace Lts

universe u v

variable {σ : Type u} {α : Type v} (step : σ → α → Option σ)

/-! ## Runs -/

/-- The state after the actions, in order; `none` when one of them is not enabled. -/
def run : σ → List α → Option σ
  | s, [] => some s
  | s, a :: as => (step s a).bind fun s' => run s' as

/-- `P` holds in every state the actions lead through, the first one included. -/
def Always (P : σ → Prop) : σ → List α → Prop
  | s, [] => P s
  | s, a :: as => P s ∧ ∀ s', step s a = some s' → Always P s' as

/-- Every step taken on the way meets the guard `G` in the state before it. -/
def Along (G : σ → α → Prop) : σ → List α → Prop
  | _, [] => True
  | s, a :: as => ∀ s', step s a = some s' → G s a ∧ Along G s' as

/-- The states some list of actions leads to. -/
def Reachable (s₀ s : σ) : Prop := ∃ as, run step s₀ as = some s

@[simp] theorem run_nil (s : σ) : run step s [] = some s := rfl

@[simp] theorem run_cons (s : σ) (a : α) (as : List α) :
    run step s (a :: as) = (step s a).bind fun s' => run step s' as := rfl

variable {step}

/-! ## Evaluating a run -/

theorem along_cons (G : σ → α → Prop) (s : σ) (a : α) (as : List α) :
    Along step G s (a :: as) ↔ match step s a with
      | none => True
      | some s' => G s a ∧ Along step G s' as := by
  simp only [Along]
  cases step s a <;> simp

instance decidableAlong (G : σ → α → Prop) [∀ s a, Decidable (G s a)] :
    (as : List α) → (s : σ) → Decidable (Along step G s as)
  | [], _ => .isTrue trivial
  | a :: as, s =>
    have : Decidable (match step s a with
      | none => True
      | some s' => G s a ∧ Along step G s' as) :=
      match step s a with
      | none => .isTrue trivial
      | some s' => have := decidableAlong G as s'; inferInstanceAs (Decidable (G s a ∧ Along step G s' as))
    decidable_of_iff _ (along_cons G s a as).symm

/-! ## Invariants of runs -/

theorem run_invariant {I : σ → Prop} (hstep : ∀ s a s', I s → step s a = some s' → I s') :
    ∀ {s s' : σ} {as : List α}, I s → run step s as = some s' → I s'
  | s, s', [], hi, h => by cases h; exact hi
  | s, s', a :: as, hi, h => by
    rw [run_cons] at h
    obtain ⟨s₁, h₁, h₂⟩ := Option.bind_eq_some_iff.1 h
    exact run_invariant hstep (hstep s a s₁ hi h₁) h₂

/-- What holds at the start and is preserved by every step holds in every reachable state. -/
theorem Reachable.invariant {I : σ → Prop} {s₀ s : σ} (h : Reachable step s₀ s) (h₀ : I s₀)
    (hstep : ∀ s a s', I s → step s a = some s' → I s') : I s := by
  obtain ⟨as, has⟩ := h
  exact run_invariant hstep h₀ has

theorem Along.of_forall {G : σ → α → Prop} (h : ∀ s a, G s a) : ∀ (as : List α) (s : σ), Along step G s as
  | [], _ => trivial
  | _ :: as, _ => fun s' _ => ⟨h _ _, Along.of_forall h as s'⟩

theorem Always.head {P : σ → Prop} {s : σ} : ∀ {as : List α}, Always step P s as → P s
  | [], h => h
  | _ :: _, h => h.1

/-- `Always` speaks of every prefix of the actions. -/
theorem Always.after {P : σ → Prop} :
    ∀ {as bs : List α} {s s' : σ}, Always step P s (as ++ bs) → run step s as = some s' →
      Always step P s' bs
  | [], bs, s, s', h, hr => by cases hr; exact h
  | a :: as, bs, s, s', h, hr => by
    rw [run_cons] at hr
    obtain ⟨s₁, h₁, h₂⟩ := Option.bind_eq_some_iff.1 hr
    exact Always.after (h.2 s₁ h₁) h₂

theorem Always.last {P : σ → Prop} {as : List α} {s s' : σ} (h : Always step P s as)
    (hr : run step s as = some s') : P s' := by
  rw [← List.append_nil as] at h
  exact (h.after hr).head

theorem Always.imp {P Q : σ → Prop} (hpq : ∀ s, P s → Q s) :
    ∀ {as : List α} {s : σ}, Always step P s as → Always step Q s as
  | [], _, h => hpq _ h
  | _ :: _, _, h => ⟨hpq _ h.1, fun s' hs => Always.imp hpq (h.2 s' hs)⟩

theorem Always.and {P Q : σ → Prop} :
    ∀ {as : List α} {s : σ}, Always step P s as → Always step Q s as → Always step (fun s => P s ∧ Q s) s as
  | [], _, hp, hq => ⟨hp, hq⟩
  | _ :: _, _, hp, hq => ⟨⟨hp.1, hq.1⟩, fun s' hs => Always.and (hp.2 s' hs) (hq.2 s' hs)⟩

theorem Along.imp {G G' : σ → α → Prop} (hg : ∀ s a, G s a → G' s a) :
    ∀ {as : List α} {s : σ}, Along step G s as → Along step G' s as
  | [], _, _ => trivial
  | _ :: _, _, h => fun s' hs => ⟨hg _ _ (h s' hs).1, Along.imp hg (h s' hs).2⟩

theorem Along.and {G G' : σ → α → Prop} :
    ∀ {as : List α} {s : σ}, Along step G s as → Along step G' s as → Along step (fun s a => G s a ∧ G' s a) s as
  | [], _, _, _ => trivial
  | _ :: _, _, h, h' => fun s' hs => ⟨⟨(h s' hs).1, (h' s' hs).1⟩, Along.and (h s' hs).2 (h' s' hs).2⟩

/-- A condition on the actions alone. -/
theorem Along.of_mem {G : α → Prop} : ∀ {as : List α} {s : σ}, (∀ a ∈ as, G a) → Along step (fun _ => G) s as
  | [], _, _ => trivial
  | a :: _, _, h => fun _ _ => ⟨h a List.mem_cons_self, Along.of_mem fun b hb => h b (List.mem_cons_of_mem a hb)⟩

/-- What `P` says of the step about to be taken holds of every step on the way. -/
theorem Always.along {P : σ → Prop} {Q : σ → α → Prop} (hpq : ∀ s a, P s → Q s a) :
    ∀ {as : List α} {s : σ}, Always step P s as → Along step Q s as
  | [], _, _ => trivial
  | a :: _, s, h => fun s' hs => ⟨hpq s a h.1, Always.along hpq (h.2 s' hs)⟩

/-- What every step preserves holds in every state of every run. -/
theorem always_invariant {I : σ → Prop} (hstep : ∀ s a s', I s → step s a = some s' → I s') :
    ∀ {as : List α} {s : σ}, I s → Always step I s as
  | [], _, hi => hi
  | a :: _, s, hi => ⟨hi, fun s' hs => always_invariant hstep (hstep s a s' hi hs)⟩

/-- The run lemma: an invariant that every step meeting the guard preserves holds in every state
of a run all of whose steps meet it. -/
theorem always_of_along {I : σ → Prop} {G : σ → α → Prop}
    (hstep : ∀ s a s', I s → G s a → step s a = some s' → I s') :
    ∀ {as : List α} {s : σ}, I s → Along step G s as → Always step I s as
  | [], _, hi, _ => hi
  | a :: _, s, hi, hg =>
    ⟨hi, fun s' hs => always_of_along hstep (hstep s a s' hi (hg s' hs).1 hs) (hg s' hs).2⟩

/-- A guard that implies another wherever an invariant holds, and preserves the invariant, implies it along a run. -/
theorem Along.of_invariant {I : σ → Prop} {G G' : σ → α → Prop}
    (hstep : ∀ s a s', I s → G s a → step s a = some s' → I s') (hG : ∀ s a, I s → G s a → G' s a) :
    ∀ {as : List α} {s : σ}, Along step G s as → I s → Along step G' s as
  | [], _, _, _ => trivial
  | a :: _, s, hg, hi => fun s' hs =>
    ⟨hG s a hi (hg s' hs).1, Along.of_invariant hstep hG (hg s' hs).2 (hstep s a s' hi (hg s' hs).1 hs)⟩

/-- The exact run lemma: under an invariant `I` of all runs, if the guard before a step is
equivalent to `P` after it, then `P` holds all along a run exactly when every step meets the
guard. -/
theorem always_iff_along {I P : σ → Prop} {G : σ → α → Prop}
    (hI : ∀ s a s', I s → step s a = some s' → I s')
    (hG : ∀ s a s', I s → P s → step s a = some s' → (P s' ↔ G s a)) :
    ∀ {as : List α} {s : σ}, I s → P s → (Always step P s as ↔ Along step G s as)
  | [], _, _, hp => ⟨fun _ => trivial, fun _ => hp⟩
  | a :: as, s, hi, hp => by
    constructor
    · intro h s' hs
      have hp' : P s' := (h.2 s' hs).head
      exact ⟨(hG s a s' hi hp hs).1 hp', (always_iff_along hI hG (hI s a s' hi hs) hp').1 (h.2 s' hs)⟩
    · intro h
      refine ⟨hp, fun s' hs => ?_⟩
      have hp' : P s' := (hG s a s' hi hp hs).2 (h s' hs).1
      exact (always_iff_along hI hG (hI s a s' hi hs) hp').2 (h s' hs).2

/-- Two conditions on steps that agree wherever an invariant of all runs holds agree along every run. -/
theorem along_congr {I : σ → Prop} {G G' : σ → α → Prop}
    (hI : ∀ s a s', I s → step s a = some s' → I s')
    (hG : ∀ s a s', I s → step s a = some s' → (G s a ↔ G' s a)) :
    ∀ {as : List α} {s : σ}, I s → (Along step G s as ↔ Along step G' s as)
  | [], _, _ => Iff.rfl
  | a :: _, s, hi => forall₂_congr fun s' hs =>
    and_congr (hG s a s' hi hs) (along_congr hI hG (hI s a s' hi hs))

/-- The same for `P` along the run together with a condition `Q` on the steps themselves, in runs
whose steps all meet `E`. -/
theorem always_and_along_iff {I P : σ → Prop} {E Q G : σ → α → Prop}
    (hI : ∀ s a s', I s → E s a → step s a = some s' → I s')
    (hG : ∀ s a s', I s → P s → E s a → step s a = some s' → (P s' ∧ Q s a ↔ G s a)) :
    ∀ {as : List α} {s : σ}, I s → P s → Along step E s as →
      (Always step P s as ∧ Along step Q s as ↔ Along step G s as)
  | [], _, _, hp, _ => ⟨fun _ => trivial, fun _ => ⟨hp, trivial⟩⟩
  | a :: as, s, hi, hp, he => by
    constructor
    · rintro ⟨h, hq⟩ s' hs
      obtain ⟨hea, he'⟩ := he s' hs
      have hp' : P s' := (h.2 s' hs).head
      have hrest := always_and_along_iff hI hG (hI s a s' hi hea hs) hp' he'
      exact ⟨(hG s a s' hi hp hea hs).1 ⟨hp', (hq s' hs).1⟩, hrest.1 ⟨h.2 s' hs, (hq s' hs).2⟩⟩
    · intro h
      have hrest : ∀ s', step s a = some s' → Q s a ∧ Always step P s' as ∧ Along step Q s' as := fun s' hs => by
        obtain ⟨hea, he'⟩ := he s' hs
        obtain ⟨hp', hqa⟩ := (hG s a s' hi hp hea hs).2 (h s' hs).1
        exact ⟨hqa, (always_and_along_iff hI hG (hI s a s' hi hea hs) hp' he').2 (h s' hs).2⟩
      exact ⟨⟨hp, fun s' hs => (hrest s' hs).2.1⟩, fun s' hs => ⟨(hrest s' hs).1, (hrest s' hs).2.2⟩⟩

/-! ## Runs that end -/

/-- Steps that meet the guard cannot go on for ever from this state. -/
def Ends (step : σ → α → Option σ) (G : σ → α → Prop) (s : σ) : Prop :=
  Acc (fun s' s => ∃ a, G s a ∧ step s a = some s') s

/-- Under an invariant, a measure that every step meeting the guard decreases. -/
theorem ends_of_measure {β : Type*} {r : β → β → Prop} (hr : WellFounded r) {I : σ → Prop} {G : σ → α → Prop}
    (hI : ∀ s a s', I s → G s a → step s a = some s' → I s') (μ : σ → β)
    (hμ : ∀ s a s', I s → G s a → step s a = some s' → r (μ s') (μ s)) {s : σ} (hs : I s) : Ends step G s := by
  induction hm : μ s using hr.induction generalizing s with
  | _ m ih =>
    refine .intro _ fun s' ⟨a, ha, h⟩ => ih _ ?_ (hI s a s' hs ha h) rfl
    rw [← hm]
    exact hμ s a s' hs ha h

end Lts
