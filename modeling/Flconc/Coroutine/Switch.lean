/-
Coroutines of one thread: coroutine/coroutine.cc over `coctx_swap`, which is taken as saving the
running context and restoring the other one. A context says whose program it belongs to and how far
that program has come; `CoFunction` is the program of every coroutine whose callback has been set.

`Resume` looks at `m_can_resume` only, and nothing clears it when a callback returns: a finished
coroutine keeps the context of its final `Yield` and is entered there again. So a coroutine is never
entered out of turn exactly when nobody resumes one whose callback is not set or has returned.
-/
import Flconc.Lib.Run
import Flconc.Lib.Wire
import Mathlib.Logic.Function.Basic

namespace Flconc.Switch

open Function Lts Wire

/-! ## Contexts and the thread's state -/

/-- `Coroutine *`: the main coroutines made on the thread, in the order they were made, and the others. -/
inductive Ptr (Cor : Type)
  | main (k : Nat)
  | cor (c : Cor)
  deriving DecidableEq

/-- How far the program of a context has come. -/
inductive Point
  /-- At the first instruction of `CoFunction`. -/
  | entry
  /-- In the callback, or in the thread's own program; `k` counts what has been done there. -/
  | body (k : Nat)
  /-- At the return of the final `Yield` of `CoFunction`. -/
  | final
  deriving DecidableEq

/-- `coctx`: registers nobody has set, or the point at which the program of a coroutine goes on. -/
inductive Context (Cor : Type)
  | garbage
  | at (co : Ptr Cor) (p : Point)
  deriving DecidableEq

/-- `RunTime`. -/
structure RunTime where
  msgNo : Bytes
  interfaceName : Bytes
  deriving DecidableEq

/-- The thread-local pointers and the members of the coroutines. `curRunTime` points to the
`m_run_time` of a coroutine. -/
structure State (Cor : Type) where
  mainCoroutine : Option (Ptr Cor)
  curCoroutine : Option (Ptr Cor)
  curRunTime : Option (Ptr Cor)
  /-- How often `new Coroutine()` has been reached. -/
  mains : Nat
  coctx : Ptr Cor → Context Cor
  isInCoFunc : Ptr Cor → Bool
  canResume : Ptr Cor → Bool
  runTime : Ptr Cor → RunTime
  /-- What runs. -/
  regs : Context Cor
  /-- History: a callback has been set and has not returned since. -/
  live : Ptr Cor → Bool

variable {Cor : Type}

/-- A thread that has not touched a coroutine yet. -/
def blank : State Cor :=
  ⟨none, none, none, 0, fun _ => .garbage, fun _ => false, fun _ => true, fun _ => ⟨[], []⟩, .at (.main 0) (.body 0),
    fun _ => false⟩

variable [DecidableEq Cor]

/-! ## Creation -/

/-- `new Coroutine()`: the constructor of a main coroutine also makes it the current one. -/
def newMain (s : State Cor) : Ptr Cor × State Cor :=
  (.main s.mains, { s with mains := s.mains + 1, curCoroutine := some (.main s.mains) })

def getCurrentCoroutine (s : State Cor) : State Cor :=
  if s.curCoroutine = none then
    let (co, s) := newMain s
    { s with mainCoroutine := some co, curCoroutine := some co }
  else s

def getMainCoroutine (s : State Cor) : State Cor :=
  if s.mainCoroutine = none then
    let (co, s) := newMain s
    { s with mainCoroutine := some co }
  else s

/-- What `Coroutine(size, stack_ptr)` does to the thread; the members of the new object are those every
coroutine begins with. -/
def construct (s : State Cor) : State Cor :=
  if s.mainCoroutine = none then
    let (co, s) := newMain s
    { s with mainCoroutine := some co }
  else s

/-- `setCallBack`: the main coroutine and one inside `CoFunction` are turned away. -/
def setCallBack (s : State Cor) (co : Ptr Cor) : State Cor :=
  if some co = s.mainCoroutine then s
  else if s.isInCoFunc co then s
  else { s with coctx := update s.coctx co (.at co .entry), canResume := update s.canResume co true,
                live := update s.live co true }

/-! ## Switching -/

/-- Control goes to a context. `CoFunction(co)` first sets `m_is_in_cofunc`, then calls the callback. -/
def restore (s : State Cor) : Context Cor → State Cor
  | .at co .entry => { s with isInCoFunc := update s.isInCoFunc co true, regs := .at co (.body 0) }
  | ctx => { s with regs := ctx }

/-- `coctx_swap`. -/
def coctxSwap (s : State Cor) (old new : Ptr Cor) : State Cor :=
  let s := { s with coctx := update s.coctx old s.regs }
  restore s (s.coctx new)

def yield (s : State Cor) : State Cor :=
  match s.mainCoroutine with
  | none => s
  | some main =>
    if s.curCoroutine = some main then s
    else
      match s.curCoroutine with
      | none => s
      | some co => coctxSwap { s with curCoroutine := some main, curRunTime := none } co main

def resume (s : State Cor) (co : Option (Ptr Cor)) : State Cor :=
  if s.curCoroutine ≠ s.mainCoroutine then s
  else
    match s.mainCoroutine with
    | none => s
    | some main =>
      match co with
      | none => s
      | some co =>
        if s.canResume co = false then s
        else if s.curCoroutine = some co then s
        else coctxSwap { s with curCoroutine := some co, curRunTime := some co } main co

/-- The callback of `co` returns: `CoFunction` clears `m_is_in_cofunc` and yields for the last time. -/
def callBackReturns (s : State Cor) (co : Ptr Cor) : State Cor :=
  yield { s with isInCoFunc := update s.isInCoFunc co false, live := update s.live co false, regs := .at co .final }

/-- What a caller can have in its hands. -/
inductive Target (Cor : Type)
  | null
  | main
  | cor (c : Cor)
  deriving DecidableEq

def Target.ptr (s : State Cor) : Target Cor → Option (Ptr Cor)
  | .null => none
  | .main => s.mainCoroutine
  | .cor c => some (.cor c)

/-! ## What a switch does -/

/-- The thread's pointers as `GetCurrentCoroutine` leaves them, whichever context runs. -/
structure Started (s : State Cor) : Prop where
  main : s.mainCoroutine = some (.main 0)
  canResume : ∀ co, s.canResume co = true

omit [DecidableEq Cor] in
theorem Started.getCurrentCoroutine : Started (getCurrentCoroutine (blank : State Cor)) := ⟨rfl, fun _ => rfl⟩

@[simp] theorem restore_body (s : State Cor) (co : Ptr Cor) (k : Nat) :
    restore s (.at co (.body k)) = { s with regs := .at co (.body k) } := rfl

@[simp] theorem restore_entry (s : State Cor) (co : Ptr Cor) :
    restore s (.at co .entry) = { s with isInCoFunc := update s.isInCoFunc co true, regs := .at co (.body 0) } := rfl

theorem restore_started {s : State Cor} (h : Started s) (ctx : Context Cor) : Started (restore s ctx) := by
  unfold restore
  split <;> exact ⟨h.main, h.canResume⟩

theorem restore_curCoroutine (s : State Cor) (ctx : Context Cor) :
    (restore s ctx).curCoroutine = s.curCoroutine := by
  unfold restore
  split <;> rfl

theorem restore_coctx (s : State Cor) (ctx : Context Cor) : (restore s ctx).coctx = s.coctx := by
  unfold restore
  split <;> rfl

section Started

variable {s : State Cor}

/-- `Resume` of a coroutine by the main one. -/
theorem Started.resume_cor (h : Started s) (hcur : s.curCoroutine = some (.main 0)) (c : Cor) :
    resume s (some (.cor c)) = restore { s with
      curCoroutine := some (.cor c)
      curRunTime := some (.cor c)
      coctx := update s.coctx (.main 0) s.regs } (s.coctx (.cor c)) := by
  unfold resume
  rw [hcur, h.main]
  simp [h.canResume, coctxSwap]

/-- `Resume` of the main coroutine by itself, or of nothing. -/
theorem Started.resume_main (h : Started s) (hcur : s.curCoroutine = some (.main 0)) (t : Target Cor)
    (ht : ∀ c, t ≠ .cor c) : resume s (t.ptr s) = s := by
  unfold resume Target.ptr
  rw [hcur, h.main]
  cases t with
  | null => simp
  | main => simp [h.canResume]
  | cor c => exact absurd rfl (ht c)

/-- Outside the main coroutine `Resume` does nothing. -/
theorem Started.resume_outside (h : Started s) {c : Cor} (hcur : s.curCoroutine = some (.cor c))
    (co : Option (Ptr Cor)) : resume s co = s := by
  unfold resume
  rw [hcur, h.main]
  simp

theorem Started.yield_cor (h : Started s) {c : Cor} (hcur : s.curCoroutine = some (.cor c)) :
    yield s = restore { s with
      curCoroutine := some (.main 0)
      curRunTime := none
      coctx := update s.coctx (.cor c) s.regs } (s.coctx (.main 0)) := by
  unfold yield
  rw [hcur, h.main]
  simp [coctxSwap]

/-- In the main coroutine `Yield` does nothing. -/
theorem Started.yield_main (h : Started s) (hcur : s.curCoroutine = some (.main 0)) : yield s = s := by
  unfold yield
  rw [hcur, h.main]
  simp

theorem Started.setCallBack_main (h : Started s) : setCallBack s (.main 0) = s := by
  unfold setCallBack
  rw [h.main]
  simp

/-- `setCallBack` of another coroutine: refused inside `CoFunction`, else it starts over. -/
theorem Started.setCallBack_cor (h : Started s) (c : Cor) :
    Started (setCallBack s (.cor c)) ∧ (setCallBack s (.cor c) = s ∨
      s.isInCoFunc (.cor c) = false ∧ setCallBack s (.cor c) = { s with
        coctx := update s.coctx (.cor c) (.at (.cor c) .entry)
        canResume := update s.canResume (.cor c) true
        live := update s.live (.cor c) true }) := by
  unfold setCallBack
  rw [if_neg (by rw [h.main]; simp)]
  split
  · exact ⟨h, .inl rfl⟩
  · refine ⟨⟨h.main, fun co => ?_⟩, .inr ⟨Bool.eq_false_iff.2 ‹_›, rfl⟩⟩
    by_cases hco : co = .cor c
    · simp [hco]
    · simp [hco, h.canResume]

end Started

/-! ## Runs of a thread -/

/-- What can happen next on the thread. -/
inductive Act (Cor : Type)
  | setCallBack (t : Target Cor)
  /-- The main coroutine calls `Resume`. -/
  | resume (t : Target Cor)
  | yield
  /-- The callback of the running coroutine returns. -/
  | ret
  deriving DecidableEq

/-- Whose callback, or own program, runs. -/
def State.body (s : State Cor) : Option (Ptr Cor) :=
  match s.regs with
  | .at co (.body _) => some co
  | _ => none

/-- One step of the thread, taken by what runs. Once control has gone to a context that is no such
program, nothing more is said. -/
def step (s : State Cor) : Act Cor → Option (State Cor)
  | .setCallBack t =>
    match s.body, t.ptr s with
    | some _, some co => some (setCallBack s co)
    | _, _ => none
  | .resume t =>
    match s.body with
    | some (.main _) => some (resume s (t.ptr s))
    | _ => none
  | .yield => s.body.map fun _ => yield s
  | .ret =>
    match s.body with
    | some (.cor c) => some (callBackReturns s (.cor c))
    | _ => none

/-- The thread once `GetCurrentCoroutine` has been called. -/
def start : State Cor := getCurrentCoroutine blank

/-- A `Resume` of a coroutine whose callback is not set, or has returned, changes nothing. -/
def NotReentered (s : State Cor) : Act Cor → Prop
  | .resume t => ∀ co, t.ptr s = some co → s.live co = false → resume s (some co) = s
  | _ => True

/-- A coroutine is resumed only when its callback has been set and has not returned since. -/
def ResumesLive (s : State Cor) : Act Cor → Prop
  | .resume (.cor c) => s.live (.cor c) = true
  | _ => True

/-! ## Whose turn it is -/

/-- What runs, and what the thread's current pointer and the saved context of the main coroutine say then. -/
inductive Control (s : State Cor) : Prop
  | lost : s.body = none → Control s
  | main (k : Nat) : s.regs = .at (.main 0) (.body k) → s.curCoroutine = some (.main 0) → Control s
  | cor (c : Cor) (k j : Nat) : s.regs = .at (.cor c) (.body k) → s.curCoroutine = some (.cor c) →
      s.coctx (.main 0) = .at (.main 0) (.body j) → Control s

/-- The invariant of every run: the context saved in a coroutine is that coroutine's own. -/
structure Turn (s : State Cor) : Prop extends Started s where
  saved : ∀ c, s.coctx (.cor c) = .garbage ∨ ∃ p, s.coctx (.cor c) = .at (.cor c) p
  control : Control s

omit [DecidableEq Cor] in
theorem Turn.start : Turn (start : State Cor) :=
  ⟨.getCurrentCoroutine, fun _ => .inl rfl, .main 0 rfl rfl⟩

omit [DecidableEq Cor] in
theorem body_eq_some {s : State Cor} {co : Ptr Cor} (h : s.body = some co) : ∃ k, s.regs = .at co (.body k) := by
  unfold State.body at h
  split at h
  · cases h
    exact ⟨_, ‹_›⟩
  · cases h

omit [DecidableEq Cor] in
/-- While the main coroutine runs, it is the current one. -/
theorem Turn.curCoroutine_main {s : State Cor} (h : Turn s) {k : Nat} (hb : s.body = some (.main k)) :
    s.curCoroutine = some (.main 0) := by
  obtain ⟨j, hj⟩ := body_eq_some hb
  cases h.control with
  | lost hl => rw [hl] at hb; cases hb
  | main _ _ hcur => exact hcur
  | cor c _ _ hr => rw [hj] at hr; cases hr

theorem Turn.setCallBack {s : State Cor} (h : Turn s) (c : Cor) : Turn (setCallBack s (.cor c)) := by
  obtain ⟨hstarted, heq | ⟨-, heq⟩⟩ := h.setCallBack_cor c
  · rw [heq]
    exact h
  · rw [heq] at hstarted ⊢
    refine ⟨hstarted, fun d => ?_, ?_⟩
    · by_cases hd : d = c
      · exact .inr ⟨.entry, by simp [hd]⟩
      · simpa [hd] using h.saved d
    · cases h.control with
      | lost hl => exact .lost hl
      | main k hr hcur => exact .main k hr hcur
      | cor d k j hr hcur hm => exact .cor d k j hr hcur (by simpa using hm)

/-- `Resume` by the main coroutine: the coroutine goes on where its context says, or control is lost. -/
theorem Turn.resume {s : State Cor} (h : Turn s) {k : Nat} (hr : s.regs = .at (.main 0) (.body k))
    (hcur : s.curCoroutine = some (.main 0)) (c : Cor) : Turn (resume s (some (.cor c))) := by
  rw [h.resume_cor hcur]
  refine ⟨restore_started ?_ _, fun d => ?_, ?_⟩
  · exact ⟨h.main, h.canResume⟩
  · rw [restore_coctx]
    simpa using h.saved d
  · obtain hg | ⟨p, hp⟩ := h.saved c
    · rw [hg]
      exact .lost rfl
    · rw [hp]
      cases p with
      | entry => exact .cor c 0 k rfl rfl (by simpa using hr)
      | body j => exact .cor c j k rfl rfl (by simpa using hr)
      | final => exact .lost rfl

/-- `Yield` by a coroutine, at whatever point of its program: the main one goes on. -/
theorem Turn.yield {s : State Cor} (h : Started s) {c : Cor} {p : Point} {j : Nat}
    (hr : s.regs = .at (.cor c) p) (hcur : s.curCoroutine = some (.cor c))
    (hm : s.coctx (.main 0) = .at (.main 0) (.body j))
    (hs : ∀ d, s.coctx (.cor d) = .garbage ∨ ∃ p, s.coctx (.cor d) = .at (.cor d) p) : Turn (yield s) := by
  rw [h.yield_cor hcur, hm]
  refine ⟨⟨h.main, h.canResume⟩, fun d => ?_, .main j rfl rfl⟩
  by_cases hd : d = c
  · exact .inr ⟨p, by simp [hd, hr]⟩
  · simpa [hd] using hs d

/-- The same for whatever the main coroutine has in its hands. -/
theorem Turn.resume_target {s : State Cor} (h : Turn s) {k : Nat} (hb : s.body = some (.main k)) (t : Target Cor) :
    Turn (Switch.resume s (t.ptr s)) := by
  have hcur := h.curCoroutine_main hb
  by_cases ht : ∀ c, t ≠ .cor c
  · rw [h.resume_main hcur t ht]
    exact h
  · push Not at ht
    obtain ⟨c, rfl⟩ := ht
    cases h.control with
    | lost hl => rw [hl] at hb; cases hb
    | main j hr _ => exact h.resume hr hcur c
    | cor d _ _ _ hd _ => rw [hd] at hcur; cases hcur

theorem Turn.callBackReturns {s : State Cor} (h : Turn s) {c : Cor} (hb : s.body = some (.cor c)) :
    Turn (callBackReturns s (.cor c)) := by
  obtain ⟨k, hk⟩ := body_eq_some hb
  cases h.control with
  | lost hl => rw [hl] at hb; cases hb
  | main _ hr => rw [hk] at hr; cases hr
  | cor d _ j hr hcur hm =>
    rw [hk] at hr
    cases hr
    exact .yield ⟨h.main, h.canResume⟩ rfl hcur hm h.saved

theorem Turn.step {s s' : State Cor} {a : Act Cor} (h : Turn s) (hs : step s a = some s') : Turn s' := by
  cases a with
  | setCallBack t =>
    simp only [Switch.step] at hs
    split at hs
    · cases hs
      rename_i co _ hco
      cases t with
      | null => cases hco
      | main =>
        have hmain : co = .main 0 := Option.some.inj (hco.symm.trans h.main)
        rw [hmain, h.setCallBack_main]
        exact h
      | cor c =>
        cases hco
        exact h.setCallBack c
    · cases hs
  | resume t =>
    simp only [Switch.step] at hs
    split at hs
    · cases hs
      exact h.resume_target ‹_› t
    · cases hs
  | yield =>
    simp only [Switch.step, Option.map_eq_some_iff] at hs
    obtain ⟨co, hb, rfl⟩ := hs
    cases h.control with
    | lost hl => rw [hl] at hb; cases hb
    | main k _ hcur => rw [h.yield_main hcur]; exact h
    | cor c k j hr hcur hm => exact .yield h.toStarted hr hcur hm h.saved
  | ret =>
    simp only [Switch.step] at hs
    split at hs
    · cases hs
      exact h.callBackReturns ‹_›
    · cases hs

/-! ## Re-entry -/

/-- One step: `Resume` has no guard against a coroutine that is not alive. -/
theorem Turn.notReentered_iff {s s' : State Cor} {a : Act Cor} (h : Turn s) (hs : Switch.step s a = some s') :
    NotReentered s a ↔ ResumesLive s a := by
  cases a with
  | resume t =>
    simp only [Switch.step] at hs
    split at hs
    · rename_i k hb
      have hcur := h.curCoroutine_main hb
      cases t with
      | null => simp [NotReentered, ResumesLive, Target.ptr]
      | main =>
        refine iff_of_true (fun co hco _ => ?_) trivial
        rw [← hco]
        exact h.resume_main hcur .main fun _ => nofun
      | cor c =>
        constructor
        · intro hq
          by_contra hl
          have hsame := hq (.cor c) rfl (Bool.eq_false_iff.2 hl)
          -- the current pointer has moved to `c`
          rw [h.resume_cor hcur] at hsame
          have := congrArg State.curCoroutine hsame
          rw [restore_curCoroutine, hcur] at this
          cases this
        · intro hg co hco hl
          cases hco
          rw [hg] at hl
          cases hl
    · cases hs
  | _ => exact Iff.rfl

/-- A coroutine that is not alive is never entered, in any run of the thread, exactly when the run
resumes no coroutine whose callback has not been set or has returned. -/
theorem notReentered_iff_resumesLive (as : List (Act Cor)) :
    Along step NotReentered start as ↔ Along step ResumesLive start as :=
  along_congr (fun _ _ _ => Turn.step) (fun _ _ _ => Turn.notReentered_iff) Turn.start

/-- A callback that returns and a second `Resume`: the coroutine goes on behind the final `Yield` of
`CoFunction`. -/
theorem finished_reentered :
    ¬ Along step NotReentered start [.setCallBack (.cor ()), .resume (.cor ()), .ret, .resume (.cor ())] ∧
    (run step start [.setCallBack (.cor ()), .resume (.cor ()), .ret, .resume (.cor ())]).map State.regs =
      some (.at (.cor ()) .final) := by
  refine ⟨fun h => ?_, by decide⟩
  have hlast := ((((h _ rfl).2 _ rfl).2 _ rfl).2 _ rfl).1 (.cor ()) rfl rfl
  exact absurd (congrArg State.curCoroutine hlast) (by decide)

end Flconc.Switch
