/-
The coroutines of an async channel: what `addCoroutineToRandomThread` gives to a `CallMethod` is kept in
the one pointer `m_pending_cor`, which the destructor hands to `returnCoroutine`. The calls still going
on share the channel, so it is destroyed after the last completion task.
-/
import Flconc.FlconcPb.AsyncChannel

namespace Flconc.AsyncChannel

/-! ## The model -/

structure Owner (Cor : Type) where
  channel : Channel := {}
  pendingCor : Option Cor := none
  /-- The coroutines taken from the pool, in order. -/
  obtained : List Cor := []
  /-- The arguments of the calls of `returnCoroutine`. -/
  returned : List (Option Cor) := []
  destroyed : Bool := false

inductive OwnerAct (Cor : Type)
  /-- `CallMethod`, for which the pool has `cor`. -/
  | callMethod (cor : Cor)
  | other (a : Act) (h : a ≠ .callMethod)
  | destroy

def Progress.isFinished : Progress → Bool
  | .finished _ _ => true
  | _ => false

variable {Cor : Type}

namespace Owner

def callMethod (s : Owner Cor) (cor : Cor) : Owner Cor :=
  if ¬ s.channel.isPreSet then { s with channel := s.channel.callMethod }
  else { s with
    channel := s.channel.callMethod
    pendingCor := some cor
    obtained := s.obtained ++ [cor] }

/-- `~FlconcPbRpcAsyncChannel`. -/
def destroy (s : Owner Cor) : Owner Cor :=
  { s with returned := s.returned ++ [s.pendingCor], destroyed := true }

/-- No call shares the channel any more. -/
def Released (s : Owner Cor) : Prop := ∀ call ∈ s.channel.calls, call.progress.isFinished = true

instance (s : Owner Cor) : Decidable s.Released := inferInstanceAs (Decidable (∀ _ ∈ _, _))

/-- Every coroutine that was taken is returned once, and nothing else. -/
def Returned (s : Owner Cor) : Prop := s.returned.Perm (s.obtained.map some)

end Owner

def ownerStep (s : Owner Cor) : OwnerAct Cor → Option (Owner Cor)
  | .callMethod cor =>
    if s.destroyed = false ∧ s.channel.caller = .running then some (s.callMethod cor) else none
  | .other a _ =>
    if s.destroyed = false then (step s.channel a).map fun c => { s with channel := c } else none
  | .destroy => if s.destroyed = false ∧ s.Released then some s.destroy else none

/-! ## How many are taken -/

/-- The calls that come behind a `saveCallee`, if `set` says that none has come yet, or all calls. -/
def preparedCalls : Bool → List (OwnerAct Cor) → Nat
  | _, [] => 0
  | set, .callMethod _ :: as => (if set then 1 else 0) + preparedCalls set as
  | set, .other a _ :: as => preparedCalls (set || a = .saveCallee) as
  | set, .destroy :: as => preparedCalls set as

/-- Only `saveCallee` sets the flag, and nothing clears it. -/
theorem step_isPreSet {s s' : Channel} {a : Act} (h : step s a = some s') :
    s'.isPreSet = (s.isPreSet || a = .saveCallee) := by
  cases a with
  | saveCallee =>
    obtain ⟨-, h⟩ := Option.ite_none_right_eq_some.1 h
    cases h
    exact (Bool.or_true _).symm
  | callMethod =>
    obtain ⟨-, h⟩ := Option.ite_none_right_eq_some.1 h
    cases h
    unfold Channel.callMethod
    split <;> simp
  | wait =>
    obtain ⟨-, h⟩ := Option.ite_none_right_eq_some.1 h
    cases h
    unfold Channel.wait
    dsimp only
    split <;> simp [Channel.back]
  | suspend | wake =>
    obtain ⟨-, h⟩ := Option.ite_none_right_eq_some.1 h
    cases h
    simp
  | work i =>
    obtain ⟨callee, -, rfl⟩ := work_cases h
    simp
  | callBack i =>
    obtain ⟨-, h⟩ := Option.ite_none_right_eq_some.1 h
    obtain ⟨callee, res, -, rfl⟩ := callBack_cases h
    dsimp only
    split
    · unfold Channel.resume
      dsimp only
      split <;> simp [Channel.back]
    · simp

/-- The pointer holds the coroutine taken last, and is returned at the end. -/
structure Holds (s : Owner Cor) : Prop where
  last : s.pendingCor = s.obtained.getLast?
  returned : s.returned = if s.destroyed then [s.pendingCor] else []

theorem ownerStep_holds {s s' : Owner Cor} {a : OwnerAct Cor} (h : Holds s) (hs : ownerStep s a = some s') :
    Holds s' := by
  obtain ⟨hlast, hreturned⟩ := h
  cases a with
  | callMethod cor =>
    obtain ⟨hd, hs⟩ := Option.ite_none_right_eq_some.1 hs
    cases hs
    rw [hd.1] at hreturned
    unfold Owner.callMethod
    split
    · exact ⟨hlast, by rw [hd.1]; exact hreturned⟩
    · exact ⟨List.getLast?_concat.symm, by rw [hd.1]; exact hreturned⟩
  | other a ha =>
    obtain ⟨-, hs⟩ := Option.ite_none_right_eq_some.1 hs
    obtain ⟨c, -, rfl⟩ := Option.map_eq_some_iff.1 hs
    exact ⟨hlast, hreturned⟩
  | destroy =>
    obtain ⟨hd, hs⟩ := Option.ite_none_right_eq_some.1 hs
    cases hs
    refine ⟨hlast, ?_⟩
    unfold Owner.destroy
    dsimp only
    rw [hreturned, hd.1]
    rfl

/-- A coroutine is taken for each call that finds the flag set. -/
theorem run_obtained : ∀ {as : List (OwnerAct Cor)} {s s' : Owner Cor}, Lts.run ownerStep s as = some s' →
    s'.obtained.length = s.obtained.length + preparedCalls s.channel.isPreSet as
  | [], s, s', h => by
    cases h
    rfl
  | a :: as, s, s', h => by
    rw [Lts.run_cons] at h
    obtain ⟨s₁, h₁, h₂⟩ := Option.bind_eq_some_iff.1 h
    have ih := run_obtained h₂
    cases a with
    | callMethod cor =>
      obtain ⟨-, h₁⟩ := Option.ite_none_right_eq_some.1 h₁
      cases h₁
      rw [ih, preparedCalls]
      unfold Owner.callMethod Channel.callMethod
      cases hset : s.channel.isPreSet with
      | false => simp
      | true => simp [Nat.add_assoc]
    | other a ha =>
      obtain ⟨-, h₁⟩ := Option.ite_none_right_eq_some.1 h₁
      obtain ⟨c, hc, rfl⟩ := Option.map_eq_some_iff.1 h₁
      rw [ih, preparedCalls, ← step_isPreSet hc]
    | destroy =>
      obtain ⟨-, h₁⟩ := Option.ite_none_right_eq_some.1 h₁
      cases h₁
      exact ih

/-! ## Every history -/

/-- The one pointer returns all coroutines exactly when there was one. -/
theorem Holds.returned_iff {s : Owner Cor} (h : Holds s) (hd : s.destroyed = true) :
    s.Returned ↔ s.obtained.length = 1 := by
  have hreturned : s.returned = [s.obtained.getLast?] := by
    rw [h.returned, if_pos hd, h.last]
  unfold Owner.Returned
  rw [hreturned]
  constructor
  · intro hperm
    have hlength := hperm.length_eq
    rw [List.length_map] at hlength
    exact hlength.symm
  · intro hone
    obtain ⟨cor, hcor⟩ := List.length_eq_one_iff.1 hone
    rw [hcor]
    exact .refl _

/-- A channel that is destroyed when its calls are done has returned what it took, and nothing else,
exactly when one `CallMethod` has come behind a `saveCallee`. -/
theorem returned_iff_one_call {as : List (OwnerAct Cor)} {s : Owner Cor} (h : Lts.run ownerStep {} as = some s)
    (hd : s.destroyed = true) : s.Returned ↔ preparedCalls false as = 1 := by
  have hholds : Holds s := Lts.run_invariant (fun _ _ _ hi hs => ownerStep_holds hi hs) ⟨rfl, rfl⟩ h
  have hobtained := run_obtained h
  rw [hholds.returned_iff hd, hobtained]
  show 0 + preparedCalls false as = 1 ↔ _
  rw [Nat.zero_add]

/-- A call that is waited for. -/
def oneCall (cor : Nat) : List (OwnerAct Nat) :=
  [.other .saveCallee (by decide), .callMethod cor, .other .wait (by decide), .other (.work 0) (by decide),
    .other (.callBack 0) (by decide), .destroy]

theorem returned_iff_one_call_waited : ∃ s : Owner Nat, Lts.run ownerStep {} (oneCall 7) = some s ∧
    (s.Returned ↔ preparedCalls false (oneCall 7) = 1) :=
  ⟨_, rfl, returned_iff_one_call rfl rfl⟩

/-- Without `saveCallee` a call takes nothing, and the destructor returns a null pointer; of two calls
only the second one's coroutine is returned. -/
theorem not_returned : ¬ ∀ (as : List (OwnerAct Nat)) (s : Owner Nat), Lts.run ownerStep {} as = some s →
    s.destroyed = true → s.Returned := by
  intro h
  have hnull := h [.callMethod 7, .destroy] _ rfl rfl
  exact absurd hnull.length_eq (by decide)

end Flconc.AsyncChannel
