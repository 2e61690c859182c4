/-
The timer in every run of `sendAndRecvFlconcPb`: what a call leaves in it, and what it takes out.

The exits behind the connect loop and the one with the reply delete the timeout event of the call;
`err_deal` does not. It is reached when the event has fired, and also when the peer is gone before
that: the event, whose task points into the stack of the call, is then left behind. And a deletion that
comes after `onTimer` has taken the event out overshoots onto the next one, whosever that is.
-/
import Flconc.Net.Parked

namespace Flconc.TcpClient

open Function Lts

/-! ## What a call leaves and takes -/

/-- The event is of the running call: its timeout event, or the one of its `connect_hook`. -/
def Client.Own (s : Client) (ev : Ev) : Prop := ev = .rpc s.calls ∨ ev = .connect s.attempts

instance (s : Client) (ev : Ev) : Decidable (s.Own ev) := inferInstanceAs (Decidable (_ ∨ _))

/-- Once a call has returned, its timeout event is not pending. -/
def NoneLeft (s : Client) : Prop := s.pc = .idle → ¬ s.timer.timer.Pending (.rpc s.calls)

/-- No event of others goes out of the timer when the caller does this. -/
def LeavesOthers (s : Client) : Act → Prop
  | .caller a => ∀ s', callerStep s a = some s' →
    ∀ ev, ¬ s.Own ev → s.timer.timer.Pending ev → s'.timer.timer.Pending ev
  | .loop _ => True

/-- The event that the caller deletes. -/
def deletes (s : Client) : CallerAct → Option Ev
  | .connectBack _ => some (.connect s.attempts)
  | .resetFd _ errno => if s.isTimeout = true ∨ errno = .other then none else some (.rpc s.calls)
  | .reply found => if found then some (.rpc s.calls) else none
  | _ => none

/-- At `err_deal` the event of the call is out of the timer already, and a deletion overshoots onto no
event of others. -/
def TimerTidy (s : Client) : Act → Prop
  | .caller (.errDeal _) => ¬ s.timer.timer.Pending (.rpc s.calls)
  | .caller a => ∀ ev ∈ deletes s a, ∀ ev' ∈ s.timer.timer.overshot ev, s.Own ev'
  | .loop _ => True

instance decidableTimerTidy (s : Client) : (a : Act) → Decidable (TimerTidy s a)
  | .caller (.errDeal _) => inferInstanceAs (Decidable (¬ _))
  | .caller (.encode _) | .caller (.call ..) | .caller (.connect _) | .caller (.output _) | .caller (.writeBack _)
  | .caller (.input ..) | .caller (.readBack ..) | .caller (.execute ..) => .isTrue nofun
  | .caller (.connectBack _) | .caller (.resetFd ..) | .caller (.reply _) =>
    inferInstanceAs (Decidable (∀ ev ∈ deletes s _, ∀ ev' ∈ s.timer.timer.overshot ev, s.Own ev'))
  | .loop _ => .isTrue trivial

/-! ## Steps of the caller -/

section

variable {s s₁ s' : Client}

/-- The caller stays in the call and does not touch the timer. -/
structure Busy (s s' : Client) : Prop where
  timer : s'.timer = s.timer
  pc : s'.pc ≠ .idle

theorem Within.toBusy (h : Within s s') : Busy s s' := ⟨h.timer, h.busy⟩

theorem Busy.after (h : Busy s₁ s') (h₁ : s₁.timer = s.timer) : Busy s s' := ⟨h.timer.trans h₁, h.pc⟩

theorem busy_output {rt : IoRt} (h : s.output rt = some s') : Busy s s' := by
  cases rt with
  | returned rt =>
    obtain ⟨-, h⟩ := Option.ite_none_right_eq_some.1 h
    exact .after (within_wrote h).toBusy rfl
  | blocked registered =>
    obtain ⟨-, h⟩ := Option.ite_none_left_eq_some.1 h
    cases h
    exact ⟨rfl, nofun⟩

theorem busy_closeBranch (s : Client) : Busy s s.closeBranch := by
  have hsame := same_clearClient s
  unfold Client.closeBranch
  split
  · exact .after (within_afterInput _).toBusy hsame.timer
  · exact ⟨hsame.timer, nofun⟩

theorem busy_readBack (s : Client) (rt : Int) (full : Bool) : Busy s (s.readBack rt full) := by
  by_cases h : 0 < rt ∨ s.overTime = true
  · exact (within_readBack h full).toBusy
  · obtain ⟨hrt, hover⟩ := not_or.1 h
    unfold Client.readBack
    rw [if_neg hover, if_pos (not_lt.1 hrt)]
    exact busy_closeBranch s

theorem busy_input {full : Bool} {rt : IoRt} (h : s.input full rt = some s') : Busy s s' := by
  cases rt with
  | returned rt =>
    obtain ⟨-, h⟩ := Option.ite_none_right_eq_some.1 h
    cases h
    exact busy_readBack s rt full
  | blocked registered =>
    obtain ⟨-, h⟩ := Option.ite_none_left_eq_some.1 h
    cases h
    exact ⟨rfl, nofun⟩

/-- What the caller does to the timer. -/
inductive Uses (s : Client) : CallerAct → Client → Prop
  | keeps (a : CallerAct) (s' : Client) : (∀ n, a ≠ .errDeal n) → deletes s a = none →
      (∀ ev, s.timer.timer.Pending ev → s'.timer.timer.Pending ev) → (NoneLeft s → NoneLeft s') → Uses s a s'
  | deletes (a : CallerAct) (s' : Client) (ev : Ev) : (∀ n, a ≠ .errDeal n) → deletes s a = some ev → s.Own ev →
      s'.timer.timer = s.timer.timer.delTimerEvent ev → (s'.pc = .idle → ev = .rpc s'.calls) → Uses s a s'
  | leaves (n : Nat) (s' : Client) : s'.timer = s.timer → s'.calls = s.calls → s'.pc = .idle → Uses s (.errDeal n) s'

theorem Busy.uses (h : Busy s s') {a : CallerAct} (ha : ∀ n, a ≠ .errDeal n) (hd : deletes s a = none) :
    Uses s a s' :=
  .keeps a s' ha hd (fun ev hp => by rw [h.timer]; exact hp) fun _ hpc => absurd hpc h.pc

theorem uses_call {main : Bool} {timeout now : Int} (h : s.call main timeout now = some s') :
    Uses s (.call main timeout now) s' := by
  obtain ⟨s₁, h₁, rfl⟩ := Option.map_eq_some_iff.1 h
  obtain ⟨t, rfl, -, hpending⟩ := addTimerEvent_eq_some h₁
  have hbusy := (within_connectLoop
    (s := { s with main := main, calls := s.calls + 1, isTimeout := false, canResume := true, timer := t }) rfl).toBusy
  refine .keeps _ _ nofun rfl (fun ev hp => ?_) fun _ hpc => absurd hpc hbusy.pc
  rw [hbusy.timer]
  exact (hpending ev).2 (.inr hp)

theorem uses_connect {rt : ConnectRt} (h : s.connect rt = some s') : Uses s (.connect rt) s' := by
  cases rt with
  | succ => exact (within_connected h).toBusy.uses nofun rfl
  | failed =>
    cases h
    have hbusy : Busy s { s with pc := .resetFd } := ⟨rfl, nofun⟩
    exact hbusy.uses nofun rfl
  | inProgress registered interval now =>
    obtain ⟨-, h⟩ := Option.ite_none_left_eq_some.1 h
    obtain ⟨t, rfl, -, hpending⟩ := addTimerEvent_eq_some h
    exact .keeps _ _ nofun rfl (fun ev hp => (hpending ev).2 (.inr hp)) fun _ hpc => nomatch hpc

theorem uses_connectBack {succ : Bool} (h : s.connectBack succ = some s') : Uses s (.connectBack succ) s' := by
  have hbusy : Busy (s.delTimerEvent (.connect s.attempts)) s' := by
    unfold Client.connectBack at h
    dsimp only at h
    split at h
    · exact (within_connected h).toBusy
    · cases h
      exact ⟨rfl, nofun⟩
  refine .deletes _ _ _ nofun rfl (.inr rfl) ?_ fun hpc => absurd hpc hbusy.pc
  rw [hbusy.timer]
  rfl

/-- Behind `resetFd` the call returns on two error numbers and deletes its event; else it goes on. -/
theorem uses_resetFd {n : Nat} {errno : Errno} (h₁ : s.resetFd n = some s₁) :
    Uses s (.resetFd n errno) (s₁.afterReset errno) := by
  obtain ⟨hsame, -, htimeout⟩ := resetFd_eq_some h₁
  unfold Client.afterReset
  by_cases hover : s.isTimeout = true
  · have hbusy : Busy s { s₁ with pc := .errDeal } := ⟨hsame.timer, nofun⟩
    have hnone : deletes s (.resetFd n errno) = none := if_pos (Or.inl hover)
    rw [if_pos (htimeout.trans hover)]
    exact hbusy.uses nofun hnone
  · rw [if_neg (by rw [htimeout]; exact hover)]
    have hgone : ∀ ret, errno ≠ .other →
        Uses s (.resetFd n errno) ((s₁.delTimerEvent (.rpc s₁.calls)).returnError ret) := fun ret herrno => by
      refine .deletes _ _ (.rpc s.calls) nofun (if_neg (not_or.2 ⟨hover, herrno⟩)) (.inl rfl) ?_ fun _ => ?_
      · simp [Client.delTimerEvent, Client.returnError, hsame.timer, hsame.calls]
      · simp [Client.delTimerEvent, Client.returnError, hsame.calls]
    cases errno with
    | ECONNREFUSED => exact hgone _ nofun
    | EAFNOSUPPORT => exact hgone _ nofun
    | other =>
      have hin := within_connectLoop (htimeout.trans (Bool.eq_false_iff.2 hover))
      exact (hin.after hsame).toBusy.uses nofun (if_pos (.inr rfl))

theorem uses_reply (found : Bool) : Uses s (.reply found) (s.reply found) := by
  cases found with
  | true => exact .deletes _ _ (.rpc s.calls) nofun rfl (.inl rfl) rfl fun _ => rfl
  | false => exact (within_reply s).toBusy.uses nofun rfl

theorem uses_errDeal {n : Nat} (h : s.errDeal n = some s') : Uses s (.errDeal n) s' := by
  obtain ⟨s₁, h₁, rfl⟩ := Option.map_eq_some_iff.1 h
  obtain ⟨hsame, -, -⟩ := resetFd_eq_some h₁
  split
  · exact .leaves n _ hsame.timer hsame.calls rfl
  · exact .leaves n _ hsame.timer hsame.calls rfl

theorem uses_caller {a : CallerAct} (h : callerStep s a = some s') : Uses s a s' := by
  cases a with
  | encode n =>
    obtain ⟨hpc, h⟩ := Option.ite_none_right_eq_some.1 h
    cases h
    exact .keeps _ _ nofun rfl (fun _ => id) fun hn _ => hn hpc
  | call main timeout now =>
    obtain ⟨-, h⟩ := Option.ite_none_right_eq_some.1 h
    exact uses_call h
  | connect rt =>
    obtain ⟨-, h⟩ := Option.ite_none_right_eq_some.1 h
    exact uses_connect h
  | connectBack succ =>
    obtain ⟨-, h⟩ := Option.ite_none_right_eq_some.1 h
    exact uses_connectBack h
  | resetFd n errno =>
    obtain ⟨-, h⟩ := Option.ite_none_right_eq_some.1 h
    obtain ⟨s₁, h₁, rfl⟩ := Option.map_eq_some_iff.1 h
    exact uses_resetFd h₁
  | output rt =>
    obtain ⟨-, h⟩ := Option.ite_none_right_eq_some.1 h
    split at h
    · exact (busy_output h).uses nofun rfl
    · cases h
      exact (within_afterOutput s).toBusy.uses nofun rfl
  | writeBack rt =>
    obtain ⟨-, h⟩ := Option.ite_none_right_eq_some.1 h
    have hbusy : Busy s s' := .after (within_wrote h).toBusy rfl
    exact hbusy.uses nofun rfl
  | reply found =>
    obtain ⟨-, h⟩ := Option.ite_none_right_eq_some.1 h
    cases h
    exact uses_reply found
  | input full rt =>
    obtain ⟨-, h⟩ := Option.ite_none_right_eq_some.1 h
    exact (busy_input h).uses nofun rfl
  | readBack rt full =>
    obtain ⟨-, h⟩ := Option.ite_none_right_eq_some.1 h
    cases h
    exact (busy_readBack s rt full).uses nofun rfl
  | execute n succ =>
    obtain ⟨-, h⟩ := Option.ite_none_right_eq_some.1 h
    exact (within_execute h).toBusy.uses nofun rfl
  | errDeal n =>
    obtain ⟨-, h⟩ := Option.ite_none_right_eq_some.1 h
    exact uses_errDeal h

/-! ## Steps of the loop -/

/-- The loop returns from no call and puts no event of one into the timer. -/
structure Idles (s s' : Client) : Prop where
  pc : s'.pc = .idle → s.pc = .idle
  calls : s'.calls = s.calls
  pending : ∀ call, s'.timer.timer.Pending (.rpc call) → s.timer.timer.Pending (.rpc call)

theorem Idles.noneLeft (h : Idles s s') (hn : NoneLeft s) : NoneLeft s' := fun hpc hp => by
  rw [h.calls] at hp
  exact hn (h.pc hpc) (h.pending _ hp)

theorem idles_resume (s : Client) : Idles s s.resume := by
  unfold Client.resume
  split
  · split
    · exact ⟨nofun, rfl, fun _ => id⟩
    · have hin := within_afterInput s
      exact ⟨fun hpc => absurd hpc hin.busy, hin.calls, fun _ hp => by rwa [hin.timer] at hp⟩
    · exact ⟨id, rfl, fun _ => id⟩
  · exact ⟨id, rfl, fun _ => id⟩

theorem idles_timeout (s : Client) (call : Nat) (hits : Bool) : Idles s (s.timeout call hits) := by
  unfold Client.timeout
  split
  · have h := idles_resume { s with overTime := true, isTimeout := true }
    exact ⟨h.pc, h.calls, h.pending⟩
  · exact ⟨id, rfl, fun _ => id⟩

theorem idles_runTask {hits : Bool} (h : s.runTask hits = some s') : Idles s s' := by
  unfold Client.runTask at h
  split at h
  · cases h
  · rename_i call tasks _
    cases h
    have hi := idles_timeout { s with tasks := tasks } call hits
    exact ⟨hi.pc, hi.calls, hi.pending⟩
  · cases h
    exact ⟨id, rfl, fun _ => id⟩

theorem idles_loop (hw : s.timer.timer.WF) {a : LoopAct} (h : loopStep s a = some s') : Idles s s' := by
  cases a with
  | resume =>
    cases h
    exact idles_resume s
  | drop =>
    cases h
    exact ⟨id, rfl, fun _ => id⟩
  | timer now a =>
    obtain ⟨ha, h⟩ := Option.ite_none_right_eq_some.1 h
    obtain ⟨t, ht, rfl⟩ := Option.map_eq_some_iff.1 h
    exact ⟨id, rfl, fun call hp => ((pending_foreign hw ha ht call).1 hp).1⟩
  | onTimer now =>
    obtain ⟨-, h⟩ := Option.ite_none_right_eq_some.1 h
    obtain ⟨t, ht, rfl⟩ := Option.map_eq_some_iff.1 h
    refine ⟨id, rfl, fun call hp => ?_⟩
    rw [show t.timer = (s.timer.timer.onTimer now).1 from (Timer.callerStep_eq_some ht).1] at hp
    exact Timer.pending_of_onTimer hp
  | runTask hits => exact idles_runTask h

/-! ## Every step -/

theorem timerTidy_of_ne {a : CallerAct} (ha : ∀ n, a ≠ .errDeal n) : TimerTidy s (.caller a) ↔
    ∀ ev ∈ deletes s a, ∀ ev' ∈ s.timer.timer.overshot ev, s.Own ev' := by
  cases a with
  | errDeal n => exact absurd rfl (ha n)
  | _ => exact Iff.rfl

/-- A deletion leaves the others alone exactly when it overshoots onto none of them. -/
theorem leavesOthers_delTimerEvent (hw : s.timer.timer.WF) {ev : Ev} (hown : s.Own ev) :
    (∀ ev', ¬ s.Own ev' → s.timer.timer.Pending ev' → (s.timer.timer.delTimerEvent ev).Pending ev') ↔
      ∀ ev' ∈ s.timer.timer.overshot ev, s.Own ev' := by
  have hne : ∀ ev', ¬ s.Own ev' → ev' ≠ ev := fun ev' hno heq => hno (heq ▸ hown)
  constructor
  · intro hl ev' hover
    by_contra hno
    have hover := Timer.mem_overshot.1 hover
    exact ((hw.pending_delTimerEvent (hne ev' hno)).1 (hl ev' hno hover.pending)).2 hover
  · intro ht ev' hno hp
    exact (hw.pending_delTimerEvent (hne ev' hno)).2 ⟨hp, fun hover => hno (ht ev' (Timer.mem_overshot.2 hover))⟩

/-- One step of the caller. -/
theorem tidy_caller (hw : s.timer.timer.WF) (hn : NoneLeft s) {a : CallerAct} (h : callerStep s a = some s') :
    NoneLeft s' ∧ LeavesOthers s (.caller a) ↔ TimerTidy s (.caller a) := by
  have hleaves : LeavesOthers s (.caller a) ↔
      ∀ ev, ¬ s.Own ev → s.timer.timer.Pending ev → s'.timer.timer.Pending ev := by
    refine ⟨fun hl => hl s' h, fun hl s'' h' => ?_⟩
    rw [h] at h'
    cases h'
    exact hl
  rw [hleaves]
  cases uses_caller h with
  | keeps _ _ ha hd hpending hnone =>
    rw [timerTidy_of_ne ha, hd]
    exact iff_of_true ⟨hnone hn, fun ev _ => hpending ev⟩ nofun
  | deletes _ _ ev ha hd hown ht hpc =>
    have hnone : NoneLeft s' := fun hidle => by
      rw [ht, ← hpc hidle]
      exact hw.not_pending_delTimerEvent ev
    rw [timerTidy_of_ne ha, hd, ht, leavesOthers_delTimerEvent hw hown]
    simp [hnone]
  | leaves n _ ht hcalls hpc =>
    unfold NoneLeft TimerTidy
    rw [ht, hcalls]
    exact ⟨fun hl => hl.1 hpc, fun hout => ⟨fun _ => hout, fun _ _ hp => hp⟩⟩

theorem tidy_step (hi : Inv s) (hn : NoneLeft s) {a : Act} (h : step s a = some s') :
    NoneLeft s' ∧ LeavesOthers s a ↔ TimerTidy s a := by
  cases a with
  | caller a => exact tidy_caller hi.wf hn h
  | loop a =>
    obtain ⟨-, h⟩ := Option.ite_none_right_eq_some.1 h
    exact iff_of_true ⟨(idles_loop hi.wf h).noneLeft hn, trivial⟩ trivial

end

/-! ## Runs -/

/-- No call leaves its event behind, and none takes an event of others out, in the runs in which every call
that ends in `err_deal` has seen its event fire, and no deletion overshoots onto an event of others. -/
theorem noneLeft_iff_timerTidy (fd : Nat) (events : Ev → TimerEvent) (clock : Int) (as : List Act) :
    Always step NoneLeft (new fd (Timer.init events clock)) as ∧
        Along step LeavesOthers (new fd (Timer.init events clock)) as ↔
      Along step TimerTidy (new fd (Timer.init events clock)) as := by
  have hinv : Inv (new fd (Timer.init events clock)) := inv_new fd ⟨by simp [Timer.init], by simp [Timer.init]⟩
  have hnone : NoneLeft (new fd (Timer.init events clock)) := by
    rintro - ⟨p, hp, -⟩
    cases hp
  refine always_and_along_iff (E := fun _ _ => True) (fun _ _ _ hi _ h => (stepOk_step hi h).inv)
    (fun _ _ _ hi hn _ h => tidy_step hi hn h) hinv hnone (.of_forall (fun _ _ => trivial) as _)

/-- A timer with nothing in it. -/
def emptyTimer : Timer.Clocked Ev := Timer.init (fun _ => ⟨0, 0, false, false⟩) 0

/-- A call that waits for its connection and gets its reply, with an event of others pending all along. -/
example : Along step TimerTidy (new 5 emptyTimer)
    [.loop (.timer 0 (.create (.other 0) 500 false)), .loop (.timer 0 (.addTimerEvent (.other 0))),
      .caller (.encode 3), .caller (.call false 300 0), .caller (.connect (.inProgress true 75 0)), .loop .resume,
      .caller (.connectBack true), .caller (.output (.returned 3)), .caller (.reply true)] := by decide

/-- The event of `connect_hook` has fired when it is deleted, and the next one is not of the call. -/
example : ¬ Along step TimerTidy (new 5 emptyTimer)
    [.loop (.timer 0 (.create (.other 0) 100 false)), .loop (.timer 0 (.addTimerEvent (.other 0))),
      .caller (.encode 3), .caller (.call false 300 0), .caller (.connect (.inProgress true 75 0)),
      .loop (.onTimer 80), .loop .resume, .caller (.connectBack false)] := by decide

/-- In the main coroutine a call ends in `err_deal` when the peer closes the connection. -/
theorem not_noneLeft_peerClosed : ¬ ∀ (fd : Nat) (events : Ev → TimerEvent) (clock : Int) (as : List Act),
    Always step NoneLeft (new fd (Timer.init events clock)) as ∧
      Along step LeavesOthers (new fd (Timer.init events clock)) as := by
  intro h
  obtain ⟨s, hs, hpc, hpending⟩ : ∃ s, Lts.run step (new 5 (Timer.init (fun _ => ⟨0, 0, false, false⟩) 0))
      [.caller (.encode 3), .caller (.call true 10000 0), .caller (.connect .succ), .caller (.output (.returned 3)),
        .caller (.reply false), .caller (.input false (.returned 0)), .caller (.errDeal 5)] =
        some s ∧ s.pc = .idle ∧ s.timer.timer.Pending (.rpc s.calls) := ⟨_, rfl, rfl, by decide⟩
  exact (h _ _ _ _).1.last hs hpc hpending

end Flconc.TcpClient
