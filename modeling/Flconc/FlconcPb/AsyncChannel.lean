/-
`FlconcPbRpcAsyncChannel` of net/flconcpb/flconcpb_rpc_async_channel.cc, used from one coroutine: a
call is made on another thread by a worker coroutine, whose completion task then runs back on the
IO thread of the caller, whenever the caller is not running there. What a call is about is what
`saveCallee` has left in the channel when the worker, and later the task, look there.
-/
import Flconc.Lib.Run
import Mathlib.Data.List.Nodup

namespace Flconc.AsyncChannel

/-! ## The model -/

/-- The controller, the messages and the closure of one `saveCallee`, by its number. -/
abbrev Callee := Nat

inductive Progress
  | pending
  /-- The worker has filled the response of `res` and added the completion task. -/
  | answered (res : Callee)
  /-- The completion task has run, with the closure of `clo`. -/
  | finished (res clo : Callee)
  deriving DecidableEq

/-- A `CallMethod` that went through. -/
structure Call where
  callee : Callee
  progress : Progress := .pending
  deriving DecidableEq

inductive Caller
  | running
  /-- Yielded in `wait`. -/
  | waiting
  /-- Yielded anywhere else. -/
  | elsewhere
  deriving DecidableEq

structure Channel where
  isFinished : Bool := false
  needResume : Bool := false
  isPreSet : Bool := false
  callee : Callee := 0
  calls : List Call := []
  caller : Caller := .running
  /-- The most recent call at each return of `wait`. -/
  returns : List (Option Call) := []
  /-- The call of each completion task that has resumed the caller, with the caller's place. -/
  resumes : List (Nat × Caller) := []
  deriving DecidableEq

namespace Channel

def saveCallee (s : Channel) : Channel := { s with callee := s.callee + 1, isPreSet := true }

/-- Without a callee the call only sets an error. -/
def callMethod (s : Channel) : Channel :=
  if ¬ s.isPreSet then { s with isFinished := true }
  else { s with calls := s.calls ++ [{ callee := s.callee }] }

/-- `wait` goes back to its caller. -/
def back (s : Channel) : Channel := { s with caller := .running, returns := s.calls.getLast? :: s.returns }

def wait (s : Channel) : Channel :=
  let s := { s with needResume := true }
  -- neither flag is ever cleared
  if s.isFinished then s.back else { s with caller := .waiting }

/-- The worker coroutine, up to its `addTask`. -/
def work (s : Channel) (i : Nat) : Option Channel :=
  match s.calls[i]? with
  | some ⟨callee, .pending⟩ => some { s with calls := s.calls.set i ⟨callee, .answered s.callee⟩ }
  | _ => none

/-- `Coroutine::Resume` in the completion task of a call. -/
def resume (s : Channel) (i : Nat) : Channel :=
  let s' := { s with resumes := (i, s.caller) :: s.resumes }
  if s.caller = .waiting then s'.back else { s' with caller := .running }

/-- The completion task. -/
def callBack (s : Channel) (i : Nat) : Option Channel :=
  match s.calls[i]? with
  | some ⟨callee, .answered res⟩ =>
    let s := { s with calls := s.calls.set i ⟨callee, .finished res s.callee⟩, isFinished := true }
    if s.needResume then some (s.resume i) else some s
  | _ => none

end Channel

inductive Act
  | saveCallee
  | callMethod
  | wait
  /-- The caller yields outside `wait`, and what it awaits there comes. -/
  | suspend
  | wake
  | work (i : Nat)
  | callBack (i : Nat)
  deriving DecidableEq

def step (s : Channel) : Act → Option Channel
  | .saveCallee => if s.caller = .running then some s.saveCallee else none
  | .callMethod => if s.caller = .running then some s.callMethod else none
  | .wait => if s.caller = .running then some s.wait else none
  | .suspend => if s.caller = .running then some { s with caller := .elsewhere } else none
  | .wake => if s.caller = .elsewhere then some { s with caller := .running } else none
  | .work i => s.work i
  | .callBack i => if s.caller ≠ .running then s.callBack i else none

/-! ## Waiting for the call -/

/-- The completion task has run, and with the worker it has served the call's own callee. -/
def Call.Done (call : Call) : Prop := call.progress = .finished call.callee call.callee

/-- `wait` has only returned with the most recent call done, and the caller was only resumed in `wait`,
once for a call. -/
structure Sound (s : Channel) : Prop where
  returns : ∀ last ∈ s.returns, ∀ call ∈ last, call.Done
  once : (s.resumes.map Prod.fst).Nodup
  waiting : ∀ r ∈ s.resumes, r.2 = .waiting

/-- A call that has resumed the caller has had its task. -/
def Inv (s : Channel) : Prop :=
  ∀ i ∈ s.resumes.map Prod.fst, ∃ callee res clo, s.calls[i]? = some ⟨callee, .finished res clo⟩

/-- A `wait` that finds `m_is_finished` set comes after the end of the most recent call, and a completion
task that finds `m_need_resume` set finds the caller in `wait`, and the most recent call done or its own. -/
def FlagsFresh (s : Channel) : Act → Prop
  | .wait => s.isFinished = true → ∀ call ∈ s.calls.getLast?, call.Done
  | .callBack i => s.needResume = true → s.caller = .waiting ∧ ∀ call ∈ s.calls.getLast?,
      if i + 1 = s.calls.length then call.progress = .answered call.callee ∧ s.callee = call.callee
      else call.Done
  | _ => True

/-- A call changes to another state only in its worker and its task. -/
theorem Inv.set {s : Channel} (hi : Inv s) {i : Nat} {call : Call} (hcall : s.calls[i]? = some call)
    (hopen : ∀ res clo, call.progress ≠ .finished res clo) (call' : Call) :
    ∀ j ∈ s.resumes.map Prod.fst, j ≠ i ∧
      ∃ callee res clo, (s.calls.set i call')[j]? = some ⟨callee, .finished res clo⟩ := by
  intro j hj
  obtain ⟨callee, res, clo, h⟩ := hi j hj
  have hne : j ≠ i := by
    rintro rfl
    rw [hcall] at h
    cases h
    exact hopen res clo rfl
  exact ⟨hne, callee, res, clo, by rw [List.getElem?_set_ne hne.symm, h]⟩

/-- The last call after one of them has changed. -/
theorem getLast?_set {calls : List Call} {i : Nat} {call call' : Call} (h : calls[i]? = some call) :
    (calls.set i call').getLast? = if i + 1 = calls.length then some call' else calls.getLast? := by
  obtain ⟨hlt, -⟩ := List.getElem?_eq_some_iff.1 h
  rw [List.getLast?_eq_getElem?, List.getLast?_eq_getElem?, List.length_set, List.getElem?_set]
  by_cases hlast : i + 1 = calls.length
  · rw [if_pos (by omega), if_pos (by omega), if_pos hlast]
  · rw [if_neg (by omega), if_neg hlast]

/-! ## Steps -/

theorem work_cases {s s' : Channel} {i : Nat} (h : s.work i = some s') :
    ∃ callee, s.calls[i]? = some ⟨callee, .pending⟩ ∧
      s' = { s with calls := s.calls.set i ⟨callee, .answered s.callee⟩ } := by
  unfold Channel.work at h
  split at h
  · rename_i callee hcall
    exact ⟨callee, hcall, (Option.some.inj h).symm⟩
  · cases h

/-- The call is finished, and the caller is resumed if the flag is set. -/
theorem callBack_cases {s s' : Channel} {i : Nat} (h : s.callBack i = some s') :
    ∃ callee res, s.calls[i]? = some ⟨callee, .answered res⟩ ∧
      s' = let s₁ := { s with calls := s.calls.set i ⟨callee, .finished res s.callee⟩, isFinished := true }
        if s.needResume then s₁.resume i else s₁ := by
  unfold Channel.callBack at h
  split at h
  · rename_i callee res hcall
    refine ⟨callee, res, hcall, ?_⟩
    dsimp only at h ⊢
    split at h
    · rename_i hneed
      rw [if_pos hneed]
      exact (Option.some.inj h).symm
    · rename_i hneed
      rw [if_neg hneed]
      exact (Option.some.inj h).symm
  · cases h

theorem resume_rest (s : Channel) (i : Nat) :
    (s.resume i).calls = s.calls ∧ (s.resume i).resumes = (i, s.caller) :: s.resumes ∧
      (s.resume i).returns = if s.caller = .waiting then s.calls.getLast? :: s.returns else s.returns := by
  unfold Channel.resume
  dsimp only
  split <;> exact ⟨rfl, rfl, rfl⟩

theorem step_inv {s s' : Channel} {a : Act} (hi : Inv s) (h : step s a = some s') : Inv s' := by
  cases a with
  | saveCallee =>
    obtain ⟨-, h⟩ := Option.ite_none_right_eq_some.1 h
    cases h
    exact hi
  | callMethod =>
    obtain ⟨-, h⟩ := Option.ite_none_right_eq_some.1 h
    cases h
    unfold Channel.callMethod
    split
    · exact hi
    · intro i hmem
      obtain ⟨callee, res, clo, hcall⟩ := hi i hmem
      have hlt := (List.getElem?_eq_some_iff.1 hcall).1
      exact ⟨callee, res, clo, by rw [List.getElem?_append_left hlt, hcall]⟩
  | wait =>
    obtain ⟨-, h⟩ := Option.ite_none_right_eq_some.1 h
    cases h
    unfold Channel.wait
    dsimp only
    split <;> exact hi
  | suspend | wake =>
    obtain ⟨-, h⟩ := Option.ite_none_right_eq_some.1 h
    cases h
    exact hi
  | work i =>
    obtain ⟨callee, hcall, rfl⟩ := work_cases h
    exact fun j hj => (hi.set hcall nofun _ j hj).2
  | callBack i =>
    obtain ⟨-, h⟩ := Option.ite_none_right_eq_some.1 h
    obtain ⟨callee, res, hcall, rfl⟩ := callBack_cases h
    have hset := hi.set hcall nofun ⟨callee, .finished res s.callee⟩
    dsimp only
    split
    · intro j hj
      obtain ⟨hcalls, hresumes, -⟩ := resume_rest { s with
        calls := s.calls.set i ⟨callee, .finished res s.callee⟩, isFinished := true } i
      rw [hresumes] at hj
      rw [hcalls]
      rcases List.mem_cons.1 hj with rfl | hj
      · obtain ⟨hlt, -⟩ := List.getElem?_eq_some_iff.1 hcall
        exact ⟨callee, res, s.callee, List.getElem?_set_self hlt⟩
      · exact (hset j hj).2
    · exact fun j hj => (hset j hj).2

/-- A return of `wait` is sound when the most recent call is done. -/
theorem Sound.back_iff {s : Channel} (hp : Sound s) (b : Bool) :
    Sound { s with needResume := b }.back ↔ ∀ call ∈ s.calls.getLast?, call.Done := by
  constructor
  · intro h
    exact h.returns s.calls.getLast? List.mem_cons_self
  · intro h
    refine ⟨fun last hlast => ?_, hp.once, hp.waiting⟩
    rcases List.mem_cons.1 hlast with rfl | hlast
    · exact h
    · exact hp.returns last hlast

/-- A call that is finished is the last one done, or leaves the last one as it was. -/
theorem finished_last {s : Channel} {i : Nat} {callee res : Callee}
    (hcall : s.calls[i]? = some ⟨callee, .answered res⟩) :
    (∀ call ∈ (s.calls.set i ⟨callee, .finished res s.callee⟩).getLast?, call.Done) ↔
      ∀ call ∈ s.calls.getLast?, if i + 1 = s.calls.length then
        call.progress = .answered call.callee ∧ s.callee = call.callee else call.Done := by
  rw [getLast?_set hcall]
  by_cases hlast : i + 1 = s.calls.length
  · have hl : s.calls.getLast? = some ⟨callee, .answered res⟩ := by
      rw [List.getLast?_eq_getElem?, ← hlast, Nat.add_sub_cancel, hcall]
    simp only [if_pos hlast, hl, Option.mem_some_iff, forall_eq', Call.Done, Progress.finished.injEq,
      Progress.answered.injEq]
  · simp only [if_neg hlast]

/-- The caller is resumed soundly in `wait`, with the most recent call done. -/
theorem Sound.resume_iff {s : Channel} (hp : Sound s) {i : Nat} (hnew : i ∉ s.resumes.map Prod.fst) :
    Sound (s.resume i) ↔ s.caller = .waiting ∧ ∀ call ∈ s.calls.getLast?, call.Done := by
  obtain ⟨-, hresumes, hreturns⟩ := resume_rest s i
  constructor
  · intro h
    have hwaiting : s.caller = .waiting := h.waiting (i, s.caller) (by rw [hresumes]; exact List.mem_cons_self)
    rw [if_pos hwaiting] at hreturns
    exact ⟨hwaiting, h.returns s.calls.getLast? (by rw [hreturns]; exact List.mem_cons_self)⟩
  · rintro ⟨hwaiting, hdone⟩
    rw [if_pos hwaiting] at hreturns
    refine ⟨?_, ?_, ?_⟩
    · rw [hreturns]
      exact List.forall_mem_cons.2 ⟨hdone, hp.returns⟩
    · rw [hresumes]
      exact List.nodup_cons.2 ⟨hnew, hp.once⟩
    · rw [hresumes]
      exact List.forall_mem_cons.2 ⟨hwaiting, hp.waiting⟩

theorem step_sound {s s' : Channel} {a : Act} (hi : Inv s) (hp : Sound s) (h : step s a = some s') :
    Sound s' ↔ FlagsFresh s a := by
  cases a with
  | saveCallee =>
    obtain ⟨-, h⟩ := Option.ite_none_right_eq_some.1 h
    cases h
    exact iff_of_true ⟨hp.returns, hp.once, hp.waiting⟩ trivial
  | callMethod =>
    obtain ⟨-, h⟩ := Option.ite_none_right_eq_some.1 h
    cases h
    refine iff_of_true ?_ trivial
    unfold Channel.callMethod
    split <;> exact ⟨hp.returns, hp.once, hp.waiting⟩
  | wait =>
    obtain ⟨-, h⟩ := Option.ite_none_right_eq_some.1 h
    cases h
    unfold Channel.wait
    dsimp only
    split
    · rename_i hfinished
      rw [hp.back_iff true]
      exact ⟨fun h _ => h, fun h => h hfinished⟩
    · rename_i hfinished
      exact iff_of_true ⟨hp.returns, hp.once, hp.waiting⟩ fun h => absurd h hfinished
  | suspend | wake =>
    obtain ⟨-, h⟩ := Option.ite_none_right_eq_some.1 h
    cases h
    exact iff_of_true ⟨hp.returns, hp.once, hp.waiting⟩ trivial
  | work i =>
    obtain ⟨callee, -, rfl⟩ := work_cases h
    exact iff_of_true ⟨hp.returns, hp.once, hp.waiting⟩ trivial
  | callBack i =>
    obtain ⟨-, h⟩ := Option.ite_none_right_eq_some.1 h
    obtain ⟨callee, res, hcall, rfl⟩ := callBack_cases h
    have hnew : i ∉ s.resumes.map Prod.fst := fun hmem =>
      (hi.set hcall nofun ⟨callee, .finished res s.callee⟩ i hmem).1 rfl
    dsimp only
    split
    · rename_i hneed
      -- the flag is set, by the wait for this call or by an earlier one
      have hp' : Sound { s with
          calls := s.calls.set i ⟨callee, .finished res s.callee⟩, isFinished := true } :=
        ⟨hp.returns, hp.once, hp.waiting⟩
      rw [hp'.resume_iff hnew]
      dsimp only
      rw [finished_last hcall]
      exact ⟨fun h _ => h, fun h => h hneed⟩
    · rename_i hneed
      exact iff_of_true ⟨hp.returns, hp.once, hp.waiting⟩ fun h => absurd h hneed

/-! ## Every run -/

/-- `wait` stands for the most recent call done in a run, and the completion tasks resume the caller in
`wait` alone, exactly when no `wait` and no task is misled by a flag that an earlier call has left. -/
theorem sound_iff (as : List Act) : Lts.Always step Sound {} as ↔ Lts.Along step FlagsFresh {} as :=
  Lts.always_iff_along (fun _ _ _ hi h => step_inv hi h) (fun _ _ _ hi hp h => step_sound hi hp h)
    (fun _ => nofun) ⟨nofun, .nil, nofun⟩

/-- The second call of a channel is not waited for: the flag is that of the first. -/
theorem not_sound_reused : ¬ Lts.Always step Sound {}
    [.saveCallee, .callMethod, .wait, .work 0, .callBack 0, .saveCallee, .callMethod, .wait] := by
  intro h
  obtain ⟨s, hs⟩ : ∃ s, Lts.run step {}
      [.saveCallee, .callMethod, .wait, .work 0, .callBack 0, .saveCallee, .callMethod, .wait] = some s := ⟨_, rfl⟩
  have hp := h.last hs
  cases hs
  have hdone : Call.Done ⟨2, .pending⟩ := hp.returns (some ⟨2, .pending⟩) List.mem_cons_self _ rfl
  cases hdone

end Flconc.AsyncChannel
