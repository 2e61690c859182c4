/-
What the switching of coroutines is for: a scheduler of two levels. Either the main coroutine or
one other runs, each program goes on where it was left, and the run time that a coroutine sees is
its own.

The three pointers of a thread that has called `GetCurrentCoroutine` follow that scheduler through
every `Resume`, `Yield` and `dispatch` of whatever context runs, as long as no coroutine is
resumed before its callback has been set and no callback returns.
-/
import Flconc.Coroutine.Switch
import Flconc.Lib.Refine

namespace Flconc.Switch

open Function Refine Wire

variable {Cor : Type}

/-! ## The scheduler -/

/-- The main coroutine is `none`. -/
structure Scheduler (Cor : Type) where
  running : Option Cor
  /-- How far each program has come. -/
  progress : Option Cor → Nat
  runTime : Option Cor → RunTime
  /-- The main coroutine has dispatched a request since control last came to it. -/
  dispatched : Bool

/-- What the running context can do. -/
inductive Op (Cor : Type)
  | setCallBack (t : Target Cor)
  | resume (t : Target Cor)
  | yield
  /-- Anything that touches no coroutine. -/
  | work
  | dispatch (msgReq : Bytes)
  | setInterfaceName (name : Bytes)
  | getCurrentCoroutine
  | getMainCoroutine
  | construct
  deriving DecidableEq

namespace Scheduler

def start : Scheduler Cor := ⟨none, fun _ => 0, fun _ => ⟨[], []⟩, false⟩

/-- The run time shown to what runs. -/
def shown (t : Scheduler Cor) : Option RunTime :=
  match t.running with
  | none => if t.dispatched then some (t.runTime none) else none
  | some c => some (t.runTime (some c))

variable [DecidableEq Cor]

def step (t : Scheduler Cor) : Op Cor → Scheduler Cor
  | .resume (.cor c) =>
    match t.running with
    | none => { t with running := some c }
    | some _ => t
  | .yield =>
    match t.running with
    | none => t
    | some _ => { t with running := none, dispatched := false }
  | .work => { t with progress := update t.progress t.running (t.progress t.running + 1) }
  | .dispatch msgReq =>
    { t with runTime := update t.runTime t.running { t.runTime t.running with msgNo := msgReq }, dispatched := true }
  | .setInterfaceName name =>
    { t with runTime := update t.runTime t.running { t.runTime t.running with interfaceName := name } }
  | _ => t

/-- Control stays, or goes from the main coroutine to one other, or from that one to the main one. -/
def Alternates (t t' : Scheduler Cor) : Prop :=
  t'.running = t.running ∨ ∃ c, (t.running = none ∧ t'.running = some c) ∨ (t.running = some c ∧ t'.running = none)

theorem step_alternates (t : Scheduler Cor) (op : Op Cor) : t.Alternates (t.step op) := by
  unfold step
  split
  · split
    · exact .inr ⟨_, .inl ⟨‹_›, rfl⟩⟩
    · exact .inl rfl
  · split
    · exact .inl rfl
    · exact .inr ⟨_, .inr ⟨‹_›, rfl⟩⟩
  all_goals exact .inl rfl

end Scheduler

/-! ## The thread -/

section Thread

variable [DecidableEq Cor]

/-- The two dispatchers: `GetCurrentCoroutine()->getRunTime()` gets the message number and becomes the
current run time. -/
def dispatch (s : State Cor) (msgReq : Bytes) : State Cor :=
  let s := getCurrentCoroutine s
  match s.curCoroutine with
  | none => s
  | some co => { s with runTime := update s.runTime co { s.runTime co with msgNo := msgReq }, curRunTime := some co }

/-- `GetCurrentCoroutine()->getRunTime()->m_interface_name = name`. -/
def setInterfaceName (s : State Cor) (name : Bytes) : State Cor :=
  let s := getCurrentCoroutine s
  match s.curCoroutine with
  | none => s
  | some co => { s with runTime := update s.runTime co { s.runTime co with interfaceName := name } }

def work (s : State Cor) : State Cor :=
  match s.regs with
  | .at co (.body k) => { s with regs := .at co (.body (k + 1)) }
  | _ => s

def exec (s : State Cor) : Op Cor → State Cor
  | .setCallBack t =>
    match t.ptr s with
    | none => s
    | some co => setCallBack s co
  | .resume t => resume s (t.ptr s)
  | .yield => yield s
  | .work => work s
  | .dispatch msgReq => dispatch s msgReq
  | .setInterfaceName name => setInterfaceName s name
  | .getCurrentCoroutine => getCurrentCoroutine s
  | .getMainCoroutine => getMainCoroutine s
  | .construct => construct s

end Thread

/-- What `getCurrentRunTime()` points to. -/
def getCurrentRunTime (s : State Cor) : Option RunTime := s.curRunTime.map s.runTime

/-- The callback of a coroutine is set before it is resumed. -/
def CallBackSet (s : State Cor) : Op Cor → Prop
  | .resume (.cor c) => s.live (.cor c) = true
  | _ => True

instance (s : State Cor) : (op : Op Cor) → Decidable (CallBackSet s op)
  | .resume (.cor c) => inferInstanceAs (Decidable (s.live (.cor c) = true))
  | .resume .null | .resume .main | .setCallBack _ | .yield | .work | .dispatch _ | .setInterfaceName _
  | .getCurrentCoroutine | .getMainCoroutine | .construct => .isTrue trivial

/-- The context of the scheduler as a coroutine of the thread. -/
def context : Option Cor → Ptr Cor
  | none => .main 0
  | some c => .cor c

theorem context_injective : Injective (context : Option Cor → Ptr Cor)
  | none, none, _ => rfl
  | some _, some _, h => by cases h; rfl

/-! ## The relation -/

/-- The thread's pointers and contexts as the scheduler has them. -/
structure Linked (s : State Cor) (t : Scheduler Cor) : Prop extends Started s where
  /-- The current coroutine is the one that runs. -/
  curCoroutine : s.curCoroutine = some (context t.running)
  regs : s.regs = .at (context t.running) (.body (t.progress t.running))
  savedMain : t.running ≠ none → s.coctx (.main 0) = .at (.main 0) (.body (t.progress none))
  /-- A coroutine that does not run was left at its last `Yield`, or has not been entered. -/
  saved : ∀ c, t.running ≠ some c → s.live (.cor c) = true →
    s.coctx (.cor c) = .at (.cor c) (if s.isInCoFunc (.cor c) then .body (t.progress (some c)) else .entry)
  entered : ∀ c, t.running = some c → s.isInCoFunc (.cor c) = true
  fresh : ∀ c, s.isInCoFunc (.cor c) = false → t.progress (some c) = 0
  runTime : ∀ x, s.runTime (context x) = t.runTime x
  /-- A coroutine has its own run time, the main one none unless it has dispatched itself. -/
  curRunTime : s.curRunTime = if t.running = none ∧ t.dispatched = false then none else some (context t.running)

/-- `Linked`, and neither a `Resume` outside the main coroutine nor a `Yield` in it does anything. -/
structure Refines [DecidableEq Cor] (s : State Cor) (t : Scheduler Cor) : Prop extends Linked s t where
  resumeOutside : t.running ≠ none → ∀ co, resume s co = s
  yieldMain : t.running = none → yield s = s

namespace Linked

variable {s : State Cor} {t : Scheduler Cor}

theorem getCurrentRunTime_eq (h : Linked s t) : getCurrentRunTime s = t.shown := by
  unfold getCurrentRunTime Scheduler.shown
  rw [h.curRunTime]
  cases hr : t.running with
  | none =>
    cases ht : t.dispatched with
    | false => simp
    | true => simp [h.runTime]
  | some c => simp [h.runTime]

theorem getCurrentCoroutine (h : Linked s t) : Switch.getCurrentCoroutine s = s := by
  unfold Switch.getCurrentCoroutine
  rw [h.curCoroutine]
  simp

theorem getMainCoroutine (h : Linked s t) : Switch.getMainCoroutine s = s := by
  unfold Switch.getMainCoroutine
  rw [h.main]
  simp

variable [DecidableEq Cor]

theorem refines (h : Linked s t) : Refines s t := by
  refine ⟨h, fun hr co => ?_, fun hr => ?_⟩
  · obtain ⟨c, hc⟩ := Option.ne_none_iff_exists'.1 hr
    exact h.resume_outside (by rw [h.curCoroutine, hc]; rfl) co
  · exact h.yield_main (by rw [h.curCoroutine, hr]; rfl)

theorem setCallBack (h : Linked s t) (c : Cor) : Linked (setCallBack s (.cor c)) t := by
  obtain ⟨hstarted, heq | ⟨hin, heq⟩⟩ := h.setCallBack_cor c
  · rw [heq]
    exact h
  · rw [heq] at hstarted ⊢
    refine ⟨hstarted, h.curCoroutine, h.regs, fun hr => ?_, fun d hd hl => ?_, h.entered, h.fresh, h.runTime,
      h.curRunTime⟩
    · simpa using h.savedMain hr
    · by_cases hdc : d = c
      · simp [hdc, hin]
      · simpa [hdc] using h.saved d hd (by simpa [hdc] using hl)

/-- The main coroutine resumes one whose callback is set: it goes on where it was left. -/
theorem resume (h : Linked s t) (hr : t.running = none) {c : Cor} (hl : s.live (.cor c) = true) :
    Linked (Switch.resume s (some (.cor c))) { t with running := some c } := by
  have hcur : s.curCoroutine = some (.main 0) := by rw [h.curCoroutine, hr]; rfl
  have hmain : s.regs = .at (.main 0) (.body (t.progress none)) := by rw [h.regs, hr]; rfl
  have hsaved := h.saved c (by rw [hr]; nofun) hl
  rw [h.resume_cor hcur, hsaved]
  cases hin : s.isInCoFunc (.cor c) with
  | true =>
    refine ⟨⟨h.main, h.canResume⟩, rfl, rfl, fun _ => by simpa using hmain, fun d hd hld => ?_, ?_, h.fresh,
      h.runTime, by simp [context]⟩
    · simpa using h.saved d (by rw [hr]; nofun) hld
    · rintro d hd
      cases hd
      exact hin
  | false =>
    refine ⟨⟨h.main, h.canResume⟩, rfl, ?_, fun _ => by simpa using hmain, fun d hd hld => ?_, ?_, fun d hd => ?_,
      h.runTime, by simp [context]⟩
    · simp [h.fresh c hin, context]
    · have hdc : d ≠ c := fun e => hd (by rw [e])
      simpa [hdc] using h.saved d (by rw [hr]; nofun) hld
    · rintro d hd
      cases hd
      simp
    · by_cases hdc : d = c
      · simp [hdc] at hd
      · exact h.fresh d (by simpa [hdc] using hd)

theorem yield (h : Linked s t) {c : Cor} (hr : t.running = some c) :
    Linked (Switch.yield s) { t with running := none, dispatched := false } := by
  have hcur : s.curCoroutine = some (.cor c) := by rw [h.curCoroutine, hr]; rfl
  have hregs : s.regs = .at (.cor c) (.body (t.progress (some c))) := by rw [h.regs, hr]; rfl
  rw [h.yield_cor hcur, h.savedMain (by rw [hr]; nofun)]
  refine ⟨⟨h.main, h.canResume⟩, rfl, rfl, fun hn => absurd rfl hn, fun d _ hld => ?_, nofun, h.fresh, h.runTime,
    by simp⟩
  by_cases hdc : d = c
  · simp [hdc, hregs, h.entered c hr]
  · refine (update_of_ne (by simpa using hdc) _ _).trans (h.saved d ?_ hld)
    rw [hr]
    simpa using Ne.symm hdc

theorem work (h : Linked s t) : Linked (work s) (t.step .work) := by
  unfold Switch.work Scheduler.step
  rw [h.regs]
  refine ⟨⟨h.main, h.canResume⟩, h.curCoroutine, by simp, fun hr => ?_, fun c hc hl => ?_, h.entered, fun c hc => ?_,
    h.runTime, h.curRunTime⟩
  · simpa [hr.symm] using h.savedMain hr
  · simpa [hc.symm] using h.saved c hc hl
  · have hne : t.running ≠ some c := fun hr => by rw [h.entered c hr] at hc; cases hc
    simpa [hne.symm] using h.fresh c hc

/-- A change of the running context's own run time. -/
theorem setRunTime (h : Linked s t) (r : RunTime) (x : Option Cor) :
    update s.runTime (context t.running) r (context x) = update t.runTime t.running r x := by
  by_cases hx : x = t.running
  · simp [hx]
  · have : context x ≠ context t.running := fun e => hx (context_injective e)
    simp [hx, this, h.runTime]

theorem dispatch (h : Linked s t) (msgReq : Bytes) : Linked (dispatch s msgReq) (t.step (.dispatch msgReq)) := by
  have heq : Switch.dispatch s msgReq = { s with
      runTime := update s.runTime (context t.running) { s.runTime (context t.running) with msgNo := msgReq }
      curRunTime := some (context t.running) } := by
    simp only [Switch.dispatch, h.getCurrentCoroutine, h.curCoroutine]
  rw [heq]
  refine ⟨⟨h.main, h.canResume⟩, h.curCoroutine, h.regs, h.savedMain, h.saved, h.entered, h.fresh, fun x => ?_,
    by simp [Scheduler.step]⟩
  rw [h.runTime]
  exact h.setRunTime _ x

theorem setInterfaceName (h : Linked s t) (name : Bytes) :
    Linked (setInterfaceName s name) (t.step (.setInterfaceName name)) := by
  have heq : Switch.setInterfaceName s name = { s with
      runTime := update s.runTime (context t.running)
        { s.runTime (context t.running) with interfaceName := name } } := by
    simp only [Switch.setInterfaceName, h.getCurrentCoroutine, h.curCoroutine]
  rw [heq]
  refine ⟨⟨h.main, h.canResume⟩, h.curCoroutine, h.regs, h.savedMain, h.saved, h.entered, h.fresh, fun x => ?_,
    h.curRunTime⟩
  rw [h.runTime]
  exact h.setRunTime _ x

theorem unchanged (h : Linked s t) {op : Op Cor} (hs : Switch.exec s op = s) (ht : t.step op = t) :
    Linked (Switch.exec s op) (t.step op) := by
  rw [hs, ht]
  exact h

/-- One operation, case by case. -/
theorem exec (h : Linked s t) {op : Op Cor} (hop : CallBackSet s op) : Linked (exec s op) (t.step op) := by
  cases op with
  | setCallBack u =>
    cases u with
    | null => exact h
    | main =>
      refine h.unchanged ?_ rfl
      simp only [Switch.exec, Target.ptr, h.main]
      exact h.setCallBack_main
    | cor c => exact h.setCallBack c
  | resume u =>
    cases hr : t.running with
    | some c =>
      refine h.unchanged (h.refines.resumeOutside (by simp [hr]) _) ?_
      cases u <;> simp [Scheduler.step, hr]
    | none =>
      have hcur : s.curCoroutine = some (.main 0) := by rw [h.curCoroutine, hr]; rfl
      cases u with
      | null => exact h.unchanged (h.resume_main hcur .null (by simp)) rfl
      | main => exact h.unchanged (h.resume_main hcur .main (by simp)) rfl
      | cor c =>
        have : t.step (.resume (.cor c)) = { t with running := some c } := by simp [Scheduler.step, hr]
        rw [this]
        exact h.resume hr hop
  | yield =>
    cases hr : t.running with
    | none => exact h.unchanged (h.refines.yieldMain hr) (by simp [Scheduler.step, hr])
    | some c =>
      have : t.step .yield = { t with running := none, dispatched := false } := by simp [Scheduler.step, hr]
      rw [this]
      exact h.yield hr
  | work => exact h.work
  | dispatch msgReq => exact h.dispatch msgReq
  | setInterfaceName name => exact h.setInterfaceName name
  | getCurrentCoroutine => exact h.unchanged h.getCurrentCoroutine rfl
  | getMainCoroutine => exact h.unchanged h.getMainCoroutine rfl
  | construct => exact h.unchanged h.getMainCoroutine rfl

end Linked

variable [DecidableEq Cor]

omit [DecidableEq Cor] in
theorem Linked.start : Linked (start : State Cor) .start where
  toStarted := .getCurrentCoroutine
  curCoroutine := rfl
  regs := rfl
  savedMain := fun h => absurd rfl h
  saved := fun _ _ => nofun
  entered := nofun
  fresh := fun _ _ => rfl
  runTime := fun _ => rfl
  curRunTime := rfl

/-! ## Every sequence of operations -/

/-- An operation with what `getCurrentRunTime()` points to afterwards. -/
def observe (s : State Cor) (op : Op Cor) : Except Empty (Option RunTime × State Cor) :=
  .ok (getCurrentRunTime (exec s op), exec s op)

/-- The thread's bookkeeping follows control, through any operations of whatever runs: it is related to
the scheduler before and after each one, with the same run time shown, and the scheduler alternates
between the main coroutine and one other. -/
theorem follows_scheduler (ops : List (Op Cor)) (h : Allowed observe CallBackSet start ops) :
    Follows observe (fun t op => ((t.step op).shown, t.step op)) Refines start Scheduler.start ops ∧
    ∀ (t : Scheduler Cor) (op : Op Cor), t.Alternates (t.step op) := by
  refine ⟨follows_of_step (fun s t op hr hop => ?_) Linked.start.refines h, Scheduler.step_alternates⟩
  have hlinked := hr.toLinked.exec hop
  exact ⟨exec s op, by rw [observe, hlinked.getCurrentRunTime_eq], hlinked.refines⟩

/-- Two coroutines, each dispatching its own request and yielding in between. -/
theorem follows_scheduler_two :
    Follows observe (fun t op => ((t.step op).shown, t.step op)) Refines (start : State Bool) Scheduler.start
      [.setCallBack (.cor true), .setCallBack (.cor false), .resume (.cor true), .dispatch [49], .resume (.cor false),
        .yield, .yield, .resume (.cor false), .dispatch [50], .work, .yield, .resume (.cor true), .yield] ∧
    ∀ (t : Scheduler Bool) (op : Op Bool), t.Alternates (t.step op) :=
  follows_scheduler _ (by decide)

end Flconc.Switch
