/-
The caller of an RPC, in every state of a run of `TcpClient`: while it is suspended in the call, it may be
resumed, and its descriptor is registered or the timeout event of the call is still to come.

The close branch of `input` is the server's: it forbids the coroutine to be resumed and yields, whoever
runs it. A caller whose read finds the peer gone is suspended there for good. Registration alone may go,
since the timeout event is left; but `delTimerEvent` may erase that, when it looks for another event that
is gone.
-/
import Flconc.Net.TcpClient

namespace Flconc.TcpClient

open Function

/-! ## Waking up -/

/-- The timeout event of the call is pending, or its task is queued. -/
def Client.Live (s : Client) : Prop := s.timer.timer.Pending (.rpc s.calls) ∨ .rpc s.calls ∈ s.tasks

instance (s : Client) : Decidable s.Live := inferInstanceAs (Decidable (_ ∨ _))

/-- A caller that is suspended in the call can be resumed, and there is something left to do it. -/
def Resumable (s : Client) : Prop := s.pc.waits = true → s.canResume = true ∧ (s.registered = true ∨ s.Live)

/-- The step does not take the last wake-up away: a read that returns nothing does so only over time,
the descriptor is left unregistered only while the timeout event is there, and others delete an event
that is gone, next to that one, only while the descriptor is registered or the task is queued. -/
def KeepsWakeUp (s : Client) : Act → Prop
  | .caller (.connect (.inProgress registered _ _)) => registered = true ∨ s.Live
  | .caller (.output (.blocked registered)) => s.Writes → registered = true ∨ s.Live
  | .caller (.input _ (.blocked registered)) => registered = true ∨ s.Live
  | .caller (.readBack rt _) => 0 < rt ∨ s.overTime = true
  | .loop .drop => s.pc.waits = true → s.Live
  | .loop (.timer _ (.delTimerEvent ev)) => s.pc.waits = true →
    s.registered = true ∨ .rpc s.calls ∈ s.tasks ∨ ¬ s.timer.timer.Overshoots ev (.rpc s.calls)
  | _ => True

instance decidableKeepsWakeUp (s : Client) : (a : Act) → Decidable (KeepsWakeUp s a)
  | .caller (.connect rt) =>
    match rt with
    | .inProgress .. => inferInstanceAs (Decidable (_ ∨ _))
    | .succ | .failed => .isTrue trivial
  | .caller (.output rt) =>
    match rt with
    | .blocked _ => inferInstanceAs (Decidable (_ → _))
    | .returned _ => .isTrue trivial
  | .caller (.input _ rt) =>
    match rt with
    | .blocked _ => inferInstanceAs (Decidable (_ ∨ _))
    | .returned _ => .isTrue trivial
  | .caller (.readBack ..) => inferInstanceAs (Decidable (_ ∨ _))
  | .caller (.encode _) | .caller (.call ..) | .caller (.connectBack _) | .caller (.resetFd ..)
  | .caller (.writeBack _) | .caller (.reply _) | .caller (.execute ..) | .caller (.errDeal _) => .isTrue trivial
  | .loop .drop => inferInstanceAs (Decidable (_ → _))
  | .loop (.timer _ a) =>
    match a with
    | .delTimerEvent _ => inferInstanceAs (Decidable (_ → _))
    | .create .. | .cancle _ | .addTimerEvent _ | .onTimer => .isTrue trivial
  | .loop .resume | .loop (.onTimer _) | .loop (.runTask _) => .isTrue trivial

/-! ## What every run keeps -/

structure Inv (s : Client) : Prop where
  wf : s.timer.timer.WF
  canResume : s.main = false → s.pc ≠ .parked → s.canResume = true
  /-- The main coroutine is not suspended in a call. -/
  hook : ∀ hook, s.pc = .suspended hook ∨ s.pc = .woken hook → s.main = false

/-- Nothing happens to the caller's coroutine, and the timer stays in order. -/
structure Frame (s s' : Client) : Prop where
  main : s'.main = s.main
  canResume : s'.canResume = s.canResume
  wf : s.timer.timer.WF → s'.timer.timer.WF

/-- The caller is running, behind no hook. -/
def Pc.running : Pc → Bool
  | .suspended _ | .woken _ | .parked => false
  | _ => true

/-- The caller goes on. -/
structure GoesOn (s s' : Client) : Prop extends Frame s s' where
  running : s'.pc.running = true

section

variable {s s₁ s' : Client}

theorem GoesOn.after (h : GoesOn s₁ s') (h₁ : Frame s s₁) : GoesOn s s' :=
  ⟨⟨h.main.trans h₁.main, h.canResume.trans h₁.canResume, fun hw => h.wf (h₁.wf hw)⟩, h.running⟩

theorem frame_delTimerEvent (s : Client) (ev : Ev) : Frame s (s.delTimerEvent ev) :=
  ⟨rfl, rfl, fun hw => hw.sublist (Timer.delTimerEvent_sublist s.timer.timer ev) fun e' _ =>
    Timer.update_cancle_arriveTime s.timer.timer ev e'⟩

theorem goesOn_returnError (s : Client) (ret : Ret) : GoesOn s (s.returnError ret) := ⟨⟨rfl, rfl, id⟩, rfl⟩

/-- Nothing happens to the caller's coroutine, to the timer or to the number of calls. -/
structure Same (s s' : Client) : Prop where
  main : s'.main = s.main
  canResume : s'.canResume = s.canResume
  timer : s'.timer = s.timer
  calls : s'.calls = s.calls

theorem Same.frame (h : Same s s') : Frame s s' := ⟨h.main, h.canResume, fun hw => by rw [h.timer]; exact hw⟩

/-- The caller goes on inside the call. -/
structure Within (s s' : Client) : Prop extends Same s s' where
  running : s'.pc.running = true
  busy : s'.pc ≠ .idle

theorem Within.goesOn (h : Within s s') : GoesOn s s' := ⟨h.toSame.frame, h.running⟩

theorem Within.after (h : Within s₁ s') (h₁ : Same s s₁) : Within s s' :=
  ⟨⟨h.main.trans h₁.main, h.canResume.trans h₁.canResume, h.timer.trans h₁.timer, h.calls.trans h₁.calls⟩,
    h.running, h.busy⟩

theorem within_afterOutput (s : Client) : Within s s.afterOutput := by
  unfold Client.afterOutput
  split
  · exact ⟨⟨rfl, rfl, rfl, rfl⟩, rfl, nofun⟩
  · exact ⟨⟨rfl, rfl, rfl, rfl⟩, rfl, nofun⟩

theorem within_afterConnect (h : s.state = .Connected) : Within s s.afterConnect := by
  unfold Client.afterConnect
  rw [if_neg (not_not.2 h)]
  split
  · exact .after (within_afterOutput _) ⟨rfl, rfl, rfl, rfl⟩
  · exact ⟨⟨rfl, rfl, rfl, rfl⟩, rfl, nofun⟩

theorem within_connectLoop (h : s.isTimeout = false) : Within s s.connectLoop := by
  unfold Client.connectLoop
  rw [if_neg (by rw [h]; nofun)]
  split
  · exact ⟨⟨rfl, rfl, rfl, rfl⟩, rfl, nofun⟩
  · exact within_afterConnect (not_not.1 ‹_›)

theorem within_connected (h : s.connected = some s') : Within s s' := by
  unfold Client.connected at h
  split at h
  · cases h
  · cases h
    exact .after (within_afterConnect rfl) ⟨rfl, rfl, rfl, rfl⟩

theorem resetFd_eq_some {n : Nat} (h : s.resetFd n = some s') :
    Same s s' ∧ s'.pc = s.pc ∧ s'.isTimeout = s.isTimeout := by
  unfold Client.resetFd at h
  dsimp only at h
  split at h
  · cases h
    exact ⟨⟨rfl, rfl, rfl, rfl⟩, rfl, rfl⟩
  · cases h

theorem goesOn_afterReset (s : Client) (errno : Errno) : GoesOn s (s.afterReset errno) := by
  unfold Client.afterReset
  split
  · exact ⟨⟨rfl, rfl, id⟩, rfl⟩
  · cases errno with
    | ECONNREFUSED => exact .after (goesOn_returnError _ _) (frame_delTimerEvent s _)
    | EAFNOSUPPORT => exact .after (goesOn_returnError _ _) (frame_delTimerEvent s _)
    | other => exact (within_connectLoop (Bool.eq_false_iff.2 ‹_›)).goesOn

theorem goesOn_errDeal {n : Nat} (h : s.errDeal n = some s') : GoesOn s s' := by
  obtain ⟨s₁, h₁, rfl⟩ := Option.map_eq_some_iff.1 h
  refine .after ?_ (resetFd_eq_some h₁).1.frame
  split
  · exact .after (goesOn_returnError _ _) ⟨rfl, rfl, id⟩
  · exact goesOn_returnError _ _

theorem within_wrote {rt : Int} (h : s.wrote rt = some s') : Within s s' := by
  unfold Client.wrote at h
  split at h
  · cases h
    dsimp only
    split
    · exact .after (within_afterOutput _) ⟨rfl, rfl, rfl, rfl⟩
    · exact ⟨⟨rfl, rfl, rfl, rfl⟩, rfl, nofun⟩
  · cases h

theorem within_afterInput (s : Client) : Within s s.afterInput := by
  unfold Client.afterInput
  split
  · exact ⟨⟨rfl, rfl, rfl, rfl⟩, rfl, nofun⟩
  · split
    · exact ⟨⟨rfl, rfl, rfl, rfl⟩, rfl, nofun⟩
    · exact ⟨⟨rfl, rfl, rfl, rfl⟩, rfl, nofun⟩

theorem within_reply (s : Client) : Within s (s.reply false) := by
  unfold Client.reply
  rw [if_neg nofun]
  split
  · exact within_afterInput s
  · exact ⟨⟨rfl, rfl, rfl, rfl⟩, rfl, nofun⟩

theorem goesOn_reply (s : Client) (found : Bool) : GoesOn s (s.reply found) := by
  cases found with
  | true => exact ⟨⟨rfl, rfl, (frame_delTimerEvent s _).wf⟩, rfl⟩
  | false => exact (within_reply s).goesOn

theorem within_execute {n : Int} {succ : Bool} (h : s.execute n succ = some s') : Within s s' := by
  have hpc : ∀ {b : Bool}, (if b then Pc.execute else .reply).running = true ∧
      (if b then Pc.execute else .reply) ≠ .idle := by decide
  unfold Client.execute at h
  split at h
  · cases h
    exact ⟨⟨rfl, rfl, rfl, rfl⟩, rfl, nofun⟩
  · obtain ⟨-, h⟩ := Option.ite_none_right_eq_some.1 h
    cases h
    exact ⟨⟨rfl, rfl, rfl, rfl⟩, hpc.1, hpc.2⟩

theorem same_received (s : Client) (rt : Int) : Same s (s.received rt) := by
  unfold Client.received
  split
  · exact ⟨rfl, rfl, rfl, rfl⟩
  · exact ⟨rfl, rfl, rfl, rfl⟩

theorem same_clearClient (s : Client) : Same s s.clearClient := by
  unfold Client.clearClient
  split
  · exact ⟨rfl, rfl, rfl, rfl⟩
  · exact ⟨rfl, rfl, rfl, rfl⟩

/-- A read that gets something, or finds its time over. -/
theorem within_readBack {rt : Int} (h : 0 < rt ∨ s.overTime = true) (full : Bool) :
    Within s (s.readBack rt full) := by
  unfold Client.readBack
  split
  · exact .after (within_afterInput _) (same_received s rt)
  · rename_i hover
    rw [if_neg (not_le.2 (h.resolve_right hover))]
    split
    · have hs := same_received s rt
      exact ⟨⟨hs.main, hs.canResume, hs.timer, hs.calls⟩, rfl, nofun⟩
    · exact .after (within_afterInput _) (same_received s rt)

/-! ## Steps -/

theorem Pc.waits_of_running {pc : Pc} (h : pc.running = true) : pc.waits = false := by
  cases pc <;> first | rfl | cases h

theorem Pc.not_hook_of_running {pc : Pc} (h : pc.running = true) (hook : Hook) :
    ¬ (pc = .suspended hook ∨ pc = .woken hook) := by
  rintro (rfl | rfl) <;> cases h

/-- What a step does to a run: it keeps the invariant, and the property exactly when it keeps a wake-up. -/
structure StepOk (s : Client) (a : Act) (s' : Client) : Prop where
  inv : Inv s'
  iff : Resumable s → (Resumable s' ↔ KeepsWakeUp s a)

theorem resumable_of_not_waits (h : s.pc.waits = false) : Resumable s := fun hw => by
  rw [h] at hw
  cases hw

theorem GoesOn.inv (h : GoesOn s s') (hi : Inv s) (hpc : s.pc ≠ .parked) : Inv s' := by
  refine ⟨h.wf hi.wf, fun hm _ => ?_, fun hook hp => ?_⟩
  · rw [h.canResume]
    exact hi.canResume (h.main ▸ hm) hpc
  · exact absurd hp (Pc.not_hook_of_running h.running hook)

theorem GoesOn.stepOk (h : GoesOn s s') (hi : Inv s) (hpc : s.pc ≠ .parked) {a : Act} (ha : KeepsWakeUp s a) :
    StepOk s a s' :=
  ⟨h.inv hi hpc, fun _ => ⟨fun _ => ha, fun _ => resumable_of_not_waits (Pc.waits_of_running h.running)⟩⟩

/-- An event is made and added: the timer stays in order, and holds that event and those it held. -/
theorem addTimerEvent_eq_some {ev : Ev} {interval now : Int} (h : s.addTimerEvent ev interval now = some s') :
    ∃ t, s' = { s with timer := t } ∧ (s.timer.timer.WF → t.timer.WF) ∧
      ∀ ev', t.timer.Pending ev' ↔ ev' = ev ∨ s.timer.timer.Pending ev' := by
  obtain ⟨t, ht, rfl⟩ := Option.map_eq_some_iff.1 h
  rw [Lts.run_cons] at ht
  obtain ⟨t₁, ht₁, ht⟩ := Option.bind_eq_some_iff.1 ht
  rw [Lts.run_cons] at ht
  obtain ⟨t₂, ht₂, ht⟩ := Option.bind_eq_some_iff.1 ht
  cases ht
  refine ⟨_, rfl, fun hw => ?_, fun ev' => ?_⟩
  · exact Timer.callerStep_wf t₁ _ _ (Timer.callerStep_wf s.timer _ t₁ hw ht₁) ht₂
  · rw [(Timer.callerStep_eq_some ht₂).1, (Timer.callerStep_eq_some ht₁).1]
    exact Timer.pending_addTimerEvent_iff true now

theorem stepOk_call (hi : Inv s) (hpc : s.pc = .idle) {main : Bool} {timeout now : Int}
    (h : s.call main timeout now = some s') : StepOk s (.caller (.call main timeout now)) s' := by
  obtain ⟨s₁, h₁, rfl⟩ := Option.map_eq_some_iff.1 h
  obtain ⟨t, rfl, hw, -⟩ := addTimerEvent_eq_some h₁
  have hi₁ : Inv { s with
      main := main, calls := s.calls + 1, isTimeout := false, canResume := true, timer := t } := by
    refine ⟨hw hi.wf, fun _ _ => rfl, fun hook hp => ?_⟩
    rcases hp with hp | hp <;> rw [show s.pc = _ from hp] at hpc <;> cases hpc
  have hgo := (within_connectLoop
    (s := { s with main := main, calls := s.calls + 1, isTimeout := false, canResume := true, timer := t }) rfl).goesOn
  refine ⟨hgo.inv hi₁ ?_, fun _ => ⟨fun _ => trivial, fun _ => ?_⟩⟩
  · show s.pc ≠ _
    rw [hpc]
    nofun
  · exact resumable_of_not_waits (Pc.waits_of_running hgo.running)

/-- The caller suspends in a hook, with its descriptor registered or not. -/
structure Suspends (s : Client) (registered : Bool) (s' : Client) : Prop extends Frame s s' where
  pc : ∃ hook, s'.pc = .suspended hook
  registered : s'.registered = registered
  live : s'.Live ↔ s.Live

theorem Suspends.stepOk {registered : Bool} (h : Suspends s registered s') (hi : Inv s) (hpc : s.pc ≠ .parked)
    (hmain : s.main ≠ true) {a : Act} (ha : KeepsWakeUp s a ↔ registered = true ∨ s.Live) : StepOk s a s' := by
  have hmain : s.main = false := Bool.not_eq_true _ ▸ hmain
  have hcan := hi.canResume hmain hpc
  obtain ⟨hook, hs⟩ := h.pc
  refine ⟨⟨h.wf hi.wf, fun _ _ => h.canResume.trans hcan, fun _ _ => h.main.trans hmain⟩, fun _ => ?_⟩
  rw [ha, ← h.live, ← h.registered]
  constructor
  · intro hr
    exact (hr (by rw [hs]; rfl)).2
  · intro hr _
    exact ⟨h.canResume.trans hcan, hr⟩

theorem stepOk_connect (hi : Inv s) (hpc : s.pc = .connect) {rt : ConnectRt} (h : s.connect rt = some s') :
    StepOk s (.caller (.connect rt)) s' := by
  have hnot : s.pc ≠ .parked := by rw [hpc]; nofun
  cases rt with
  | succ => exact (within_connected h).goesOn.stepOk hi hnot trivial
  | failed =>
    cases h
    have hgo : GoesOn s { s with pc := .resetFd } := ⟨⟨rfl, rfl, id⟩, rfl⟩
    exact hgo.stepOk hi hnot trivial
  | inProgress registered interval now =>
    obtain ⟨hcan, h⟩ := Option.ite_none_left_eq_some.1 h
    obtain ⟨hmain, -⟩ := not_or.1 hcan
    obtain ⟨t, rfl, hw, hpending⟩ := addTimerEvent_eq_some h
    have hsus : Suspends s registered
        { s with pc := .suspended .connect, registered := registered, attempts := s.attempts + 1, timer := t } :=
      ⟨⟨rfl, rfl, hw⟩, ⟨.connect, rfl⟩, rfl, or_congr_left ((hpending (.rpc s.calls)).trans (or_iff_right nofun))⟩
    exact hsus.stepOk hi hnot hmain Iff.rfl

theorem stepOk_connectBack (hi : Inv s) (hpc : s.pc = .woken .connect) {succ : Bool}
    (h : s.connectBack succ = some s') : StepOk s (.caller (.connectBack succ)) s' := by
  have hnot : s.pc ≠ .parked := by rw [hpc]; nofun
  have hgo : GoesOn s s' := by
    unfold Client.connectBack at h
    dsimp only at h
    split at h
    · exact .after (within_connected h).goesOn (frame_delTimerEvent s _)
    · cases h
      exact ⟨⟨rfl, rfl, (frame_delTimerEvent s _).wf⟩, rfl⟩
  exact hgo.stepOk hi hnot trivial

theorem frame_write (s : Client) : Frame s s.write := ⟨rfl, rfl, id⟩

theorem stepOk_output (hi : Inv s) (hpc : s.pc = .output) (hwrites : s.Writes) {rt : IoRt}
    (h : s.output rt = some s') : StepOk s (.caller (.output rt)) s' := by
  have hnot : s.pc ≠ .parked := by rw [hpc]; nofun
  cases rt with
  | returned rt =>
    obtain ⟨-, h⟩ := Option.ite_none_right_eq_some.1 h
    exact (GoesOn.after (within_wrote h).goesOn (frame_write s)).stepOk hi hnot trivial
  | blocked registered =>
    obtain ⟨hmain, h⟩ := Option.ite_none_left_eq_some.1 h
    cases h
    have hsus : Suspends s registered { s.write with pc := .suspended .write, registered := registered } :=
      ⟨⟨rfl, rfl, id⟩, ⟨.write, rfl⟩, rfl, Iff.rfl⟩
    exact hsus.stepOk hi hnot hmain ⟨fun hk => hk hwrites, fun hk _ => hk⟩

theorem stepOk_input (hi : Inv s) (hpc : s.pc = .input) {full : Bool} {rt : IoRt} (h : s.input full rt = some s') :
    StepOk s (.caller (.input full rt)) s' := by
  have hnot : s.pc ≠ .parked := by rw [hpc]; nofun
  cases rt with
  | returned rt =>
    obtain ⟨hor, h⟩ := Option.ite_none_right_eq_some.1 h
    cases h
    by_cases hgood : 0 < rt ∨ s.overTime = true
    · exact (within_readBack hgood full).goesOn.stepOk hi hnot trivial
    · -- the main coroutine goes on behind the close branch
      obtain ⟨hrt, hover⟩ := not_or.1 hgood
      have hmain := hor.resolve_right hrt
      have hback : s.readBack rt full = { s.clearClient with canResume := false }.afterInput := by
        unfold Client.readBack Client.closeBranch
        rw [if_neg hover, if_pos (not_lt.1 hrt), if_pos hmain]
      have hgo := (within_afterInput { s.clearClient with canResume := false }).goesOn
      rw [hback]
      refine ⟨⟨hgo.wf (by rw [(same_clearClient s).timer]; exact hi.wf), fun hf _ => ?_, fun hook hp => ?_⟩, fun _ =>
        ⟨fun _ => trivial, fun _ => resumable_of_not_waits (Pc.waits_of_running hgo.running)⟩⟩
      · rw [hgo.main, (same_clearClient s).main, hmain] at hf
        cases hf
      · exact absurd hp (Pc.not_hook_of_running hgo.running hook)
  | blocked registered =>
    obtain ⟨hmain, h⟩ := Option.ite_none_left_eq_some.1 h
    cases h
    have hsus : Suspends s registered { s with pc := .suspended .read, registered := registered } :=
      ⟨⟨rfl, rfl, id⟩, ⟨.read, rfl⟩, rfl, Iff.rfl⟩
    exact hsus.stepOk hi hnot hmain Iff.rfl

/-- The read behind the `Yield`: when it gets nothing and time is not over, the caller is parked. -/
theorem stepOk_readBack (hi : Inv s) (hpc : s.pc = .woken .read) (rt : Int) (full : Bool) :
    StepOk s (.caller (.readBack rt full)) (s.readBack rt full) := by
  have hnot : s.pc ≠ .parked := by rw [hpc]; nofun
  by_cases hgood : 0 < rt ∨ s.overTime = true
  · exact (within_readBack hgood full).goesOn.stepOk hi hnot hgood
  · obtain ⟨hrt, hover⟩ := not_or.1 hgood
    have hmain := hi.hook .read (.inr hpc)
    have hback : s.readBack rt full = { s.clearClient with canResume := false, pc := .parked } := by
      unfold Client.readBack Client.closeBranch
      rw [if_neg hover, if_pos (not_lt.1 hrt), if_neg (by rw [hmain]; nofun)]
    rw [hback]
    refine ⟨⟨?_, fun _ hp => absurd rfl hp, by rintro hook (hp | hp) <;> cases hp⟩, fun _ => ⟨fun hr => ?_, fun ha =>
      absurd ha hgood⟩⟩
    · show s.clearClient.timer.timer.WF
      rw [(same_clearClient s).timer]
      exact hi.wf
    · cases (hr rfl).1

theorem stepOk_caller (hi : Inv s) {a : CallerAct} (h : callerStep s a = some s') : StepOk s (.caller a) s' := by
  cases a with
  | encode n =>
    obtain ⟨hpc, h⟩ := Option.ite_none_right_eq_some.1 h
    cases h
    have hrun : s.pc.running = true := by rw [hpc]; rfl
    have hgo : GoesOn s { s with outBuf := s.outBuf.put n } := ⟨⟨rfl, rfl, id⟩, hrun⟩
    exact hgo.stepOk hi (by rw [hpc]; nofun) trivial
  | call main timeout now =>
    obtain ⟨hpc, h⟩ := Option.ite_none_right_eq_some.1 h
    exact stepOk_call hi hpc h
  | connect rt =>
    obtain ⟨hpc, h⟩ := Option.ite_none_right_eq_some.1 h
    exact stepOk_connect hi hpc h
  | connectBack succ =>
    obtain ⟨hpc, h⟩ := Option.ite_none_right_eq_some.1 h
    exact stepOk_connectBack hi hpc h
  | resetFd n errno =>
    obtain ⟨hpc, h⟩ := Option.ite_none_right_eq_some.1 h
    obtain ⟨s₁, h₁, rfl⟩ := Option.map_eq_some_iff.1 h
    have hgo : GoesOn s (s₁.afterReset errno) := .after (goesOn_afterReset s₁ errno) (resetFd_eq_some h₁).1.frame
    exact hgo.stepOk hi (by rw [hpc]; nofun) trivial
  | output rt =>
    obtain ⟨hpc, h⟩ := Option.ite_none_right_eq_some.1 h
    split at h
    · rename_i hwrites
      exact stepOk_output hi hpc hwrites h
    · rename_i hwrites
      cases h
      refine (within_afterOutput s).goesOn.stepOk hi (by rw [hpc]; nofun) ?_
      cases rt with
      | returned rt => trivial
      | blocked registered => exact fun hw => absurd hw hwrites
  | writeBack rt =>
    obtain ⟨hpc, h⟩ := Option.ite_none_right_eq_some.1 h
    exact (GoesOn.after (within_wrote h).goesOn (frame_write s)).stepOk hi (by rw [hpc]; nofun) trivial
  | reply found =>
    obtain ⟨hpc, h⟩ := Option.ite_none_right_eq_some.1 h
    cases h
    exact (goesOn_reply s found).stepOk hi (by rw [hpc]; nofun) trivial
  | input full rt =>
    obtain ⟨hpc, h⟩ := Option.ite_none_right_eq_some.1 h
    exact stepOk_input hi hpc h
  | readBack rt full =>
    obtain ⟨hpc, h⟩ := Option.ite_none_right_eq_some.1 h
    cases h
    exact stepOk_readBack hi hpc rt full
  | execute n succ =>
    obtain ⟨hpc, h⟩ := Option.ite_none_right_eq_some.1 h
    exact (within_execute h).goesOn.stepOk hi (by rw [hpc]; nofun) trivial
  | errDeal n =>
    obtain ⟨hpc, h⟩ := Option.ite_none_right_eq_some.1 h
    exact (goesOn_errDeal h).stepOk hi (by rw [hpc]; nofun) trivial

/-! ## Steps of the loop -/

/-- The loop leaves the caller where it is. -/
structure Stays (s s' : Client) : Prop extends Frame s s' where
  pc : s'.pc = s.pc
  registered : s'.registered = s.registered

theorem Stays.inv (h : Stays s s') (hi : Inv s) : Inv s' := by
  refine ⟨h.wf hi.wf, fun hm hp => ?_, fun hook hp => ?_⟩
  · rw [h.canResume]
    exact hi.canResume (h.main ▸ hm) (h.pc ▸ hp)
  · rw [h.main]
    exact hi.hook hook (h.pc ▸ hp)

/-- While the caller is suspended, a step that leaves it where it is keeps the property exactly when it
keeps the last wake-up there is. -/
theorem Stays.stepOk (h : Stays s s') (hi : Inv s) {a : Act}
    (ha : s.pc.waits = true → s.registered = true ∨ s.Live → (KeepsWakeUp s a ↔ s.registered = true ∨ s'.Live))
    (hidle : s.pc.waits = false → KeepsWakeUp s a) : StepOk s a s' := by
  refine ⟨h.inv hi, fun hr => ?_⟩
  by_cases hw : s.pc.waits = true
  · obtain ⟨hcan, hwake⟩ := hr hw
    rw [ha hw hwake, ← h.registered]
    exact ⟨fun hr' => (hr' (h.pc ▸ hw)).2, fun hl _ => ⟨h.canResume.trans hcan, hl⟩⟩
  · have hw : s.pc.waits = false := Bool.not_eq_true _ ▸ hw
    exact ⟨fun _ => hidle hw, fun _ => resumable_of_not_waits (h.pc ▸ hw)⟩

/-- A step of the loop that asks nothing, and leaves the event of a suspended caller there. -/
theorem Stays.stepOk_of_live (h : Stays s s') (hi : Inv s) {a : Act} (ha : KeepsWakeUp s a)
    (hlive : s.pc.waits = true → s.Live → s'.Live) : StepOk s a s' :=
  h.stepOk hi (fun hw hwake => ⟨fun _ => hwake.imp_right (hlive hw), fun _ => ha⟩) fun _ => ha

theorem stepOk_drop (hi : Inv s) : StepOk s (.loop .drop) { s with registered := false } := by
  refine ⟨⟨hi.wf, hi.canResume, hi.hook⟩, fun hr => ⟨fun hr' hw => ?_, fun hk hw => ?_⟩⟩
  · exact (hr' hw).2.resolve_left nofun
  · exact ⟨(hr hw).1, .inr (hk hw)⟩

/-- A caller that is suspended and can be resumed is running again. -/
structure Resumes (s s' : Client) : Prop extends Frame s s' where
  waits : s'.pc.waits = false
  hook : ∀ hook, s'.pc = .suspended hook ∨ s'.pc = .woken hook → s.pc = .suspended hook

theorem resumes_resume (hcan : s.canResume = true) (hw : s.pc.waits = true) : Resumes s s.resume := by
  unfold Client.resume
  rw [if_pos hcan]
  cases hpc : s.pc with
  | suspended hook =>
    refine ⟨⟨rfl, rfl, id⟩, rfl, fun hook' hp => ?_⟩
    rcases hp with hp | hp <;> cases hp
    exact hpc
  | parked =>
    have hgo := (within_afterInput s).goesOn
    refine ⟨hgo.toFrame, Pc.waits_of_running hgo.running, fun hook hp => ?_⟩
    exact absurd hp (Pc.not_hook_of_running hgo.running hook)
  | _ =>
    rw [hpc] at hw
    cases hw

theorem resume_eq_self (h : ¬ (s.canResume = true ∧ s.pc.waits = true)) : s.resume = s := by
  unfold Client.resume
  split
  · rename_i hcan
    cases hpc : s.pc with
    | suspended hook => exact absurd ⟨hcan, by rw [hpc]; rfl⟩ h
    | parked => exact absurd ⟨hcan, by rw [hpc]; rfl⟩ h
    | _ => rfl
  · rfl

theorem Resumes.stepOk (h : Resumes s s') (hi : Inv s) (hcan : s.canResume = true) {a : Act} (ha : KeepsWakeUp s a) :
    StepOk s a s' := by
  refine ⟨⟨h.wf hi.wf, fun _ _ => h.canResume.trans hcan, fun hook hp => ?_⟩, fun _ => ⟨fun _ => ha, fun _ =>
    resumable_of_not_waits h.waits⟩⟩
  rw [h.main]
  exact hi.hook hook (.inl (h.hook hook hp))

theorem stepOk_resume (hi : Inv s) : StepOk s (.loop .resume) s.resume := by
  by_cases h : s.canResume = true ∧ s.pc.waits = true
  · exact (resumes_resume h.1 h.2).stepOk hi h.1 trivial
  · rw [resume_eq_self h]
    exact ⟨hi, fun hr => ⟨fun _ => trivial, fun _ => hr⟩⟩

/-- What the timer holds for the call when others have used it: it loses the event only where a deletion
overshoots onto it. -/
theorem pending_foreign {now : Int} {a : Timer.Act Ev} {t : Timer.Clocked Ev} (hw : s.timer.timer.WF)
    (ha : foreign a = true) (h : Timer.callerStep s.timer (now, a) = some t) (call : Nat) :
    t.timer.Pending (.rpc call) ↔ s.timer.timer.Pending (.rpc call) ∧
      ∀ ev, a = .delTimerEvent ev → ¬ s.timer.timer.Overshoots ev (.rpc call) := by
  rw [(Timer.callerStep_eq_some h).1]
  apply hw.pending_after
  · rintro rfl
    cases ha
  · rintro rfl
    cases ha
  · rintro rfl
    cases ha

theorem stepOk_timer (hi : Inv s) {now : Int} {a : Timer.Act Ev} (ha : foreign a = true) {t : Timer.Clocked Ev}
    (h : Timer.callerStep s.timer (now, a) = some t) : StepOk s (.loop (.timer now a)) { s with timer := t } := by
  have hstays : Stays s { s with timer := t } :=
    ⟨⟨rfl, rfl, fun hw => Timer.callerStep_wf s.timer _ t hw h⟩, rfl, rfl⟩
  have hpending := pending_foreign hi.wf ha h s.calls
  refine hstays.stepOk hi (fun hw hwake => ?_) (fun hidle => ?_)
  · show _ ↔ s.registered = true ∨ t.timer.Pending (.rpc s.calls) ∨ .rpc s.calls ∈ s.tasks
    rw [hpending]
    cases a with
    | delTimerEvent ev =>
      have hone : (∀ ev', Timer.Act.delTimerEvent ev = .delTimerEvent ev' →
          ¬ s.timer.timer.Overshoots ev' (.rpc s.calls)) ↔ ¬ s.timer.timer.Overshoots ev (.rpc s.calls) :=
        ⟨fun hno => hno ev rfl, fun hno ev' heq => by cases heq; exact hno⟩
      rw [hone]
      constructor
      · intro hk
        rcases hk hw with hreg | hqueued | hno
        · exact .inl hreg
        · exact .inr (.inr hqueued)
        · exact hwake.imp_right fun hl => hl.imp_left fun hp => ⟨hp, hno⟩
      · rintro (hreg | ⟨-, hno⟩ | hqueued) _
        · exact .inl hreg
        · exact .inr (.inr hno)
        · exact .inr (.inl hqueued)
    | _ =>
      exact ⟨fun _ => hwake.imp_right fun hl => hl.imp_left fun hp => ⟨hp, nofun⟩, fun _ => trivial⟩
  · cases a with
    | delTimerEvent ev =>
      intro hw
      rw [hidle] at hw
      cases hw
    | _ => trivial

theorem stepOk_onTimer (hi : Inv s) {now : Int} (h : s.onTimer now = some s') :
    StepOk s (.loop (.onTimer now)) s' := by
  obtain ⟨hnil, h⟩ := Option.ite_none_right_eq_some.1 h
  obtain ⟨t, ht, rfl⟩ := Option.map_eq_some_iff.1 h
  have hstays : Stays s { s with timer := t, tasks := (s.timer.timer.onTimer now).2 } :=
    ⟨⟨rfl, rfl, fun hw => Timer.callerStep_wf s.timer _ t hw ht⟩, rfl, rfl⟩
  have htimer : t.timer = (s.timer.timer.onTimer now).1 := (Timer.callerStep_eq_some ht).1
  refine hstays.stepOk_of_live hi trivial fun _ hl => ?_
  -- the event is taken out only to run its task
  rcases hl with hp | hq
  · show t.timer.Pending _ ∨ _
    rw [htimer]
    exact Timer.pending_onTimer now hp
  · rw [hnil] at hq
    cases hq

theorem stepOk_runTask (hi : Inv s) (hloop : s.pc = .idle ∨ s.pc.waits = true) {hits : Bool}
    (h : s.runTask hits = some s') : StepOk s (.loop (.runTask hits)) s' := by
  unfold Client.runTask at h
  cases htasks : s.tasks with
  | nil =>
    rw [htasks] at h
    cases h
  | cons ev tasks =>
    rw [htasks] at h
    -- as long as the first task is not the one of the call, that is left
    have hrest : ev ≠ .rpc s.calls → s.Live → s.timer.timer.Pending (.rpc s.calls) ∨ .rpc s.calls ∈ tasks := by
      rintro hne (hp | hq)
      · exact .inl hp
      · rw [htasks] at hq
        exact .inr ((List.mem_cons.1 hq).resolve_left (Ne.symm hne))
    cases ev with
    | rpc call =>
      cases h
      unfold Client.timeout
      by_cases hours : (call = s.calls ∨ hits = true) ∧ s.pc ≠ .idle
      · have hw := hloop.resolve_left hours.2
        rw [if_pos hours]
        change StepOk s _ (Client.resume { s with tasks := tasks, overTime := true, isTimeout := true })
        by_cases hcan : s.canResume = true
        · have hres := resumes_resume (s := { s with tasks := tasks, overTime := true, isTimeout := true }) hcan hw
          have hres' : Resumes s _ := ⟨⟨hres.main, hres.canResume, hres.wf⟩, hres.waits, hres.hook⟩
          exact hres'.stepOk hi hcan trivial
        · have hself : Client.resume { s with tasks := tasks, overTime := true, isTimeout := true } =
              { s with tasks := tasks, overTime := true, isTimeout := true } := resume_eq_self fun hr => hcan hr.1
          rw [hself]
          refine ⟨⟨hi.wf, hi.canResume, hi.hook⟩, fun hr => absurd (hr hw).1 hcan⟩
      · rw [if_neg hours]
        have hstays : Stays s { s with tasks := tasks, overTime := true } := ⟨⟨rfl, rfl, id⟩, rfl, rfl⟩
        refine hstays.stepOk_of_live hi trivial fun hw => hrest ?_
        rintro ⟨rfl⟩
        refine hours ⟨.inl rfl, fun hidle => ?_⟩
        rw [hidle] at hw
        cases hw
    | connect attempt =>
      cases h
      have hstays : Stays s { s with tasks := tasks } := ⟨⟨rfl, rfl, id⟩, rfl, rfl⟩
      exact hstays.stepOk_of_live hi trivial fun _ => hrest nofun
    | other n =>
      cases h
      have hstays : Stays s { s with tasks := tasks } := ⟨⟨rfl, rfl, id⟩, rfl, rfl⟩
      exact hstays.stepOk_of_live hi trivial fun _ => hrest nofun

theorem stepOk_step (hi : Inv s) {a : Act} (h : step s a = some s') : StepOk s a s' := by
  cases a with
  | caller a => exact stepOk_caller hi h
  | loop a =>
    obtain ⟨hloop, h⟩ := Option.ite_none_right_eq_some.1 h
    cases a with
    | resume =>
      cases h
      exact stepOk_resume hi
    | drop =>
      cases h
      exact stepOk_drop hi
    | timer now a =>
      obtain ⟨ha, h⟩ := Option.ite_none_right_eq_some.1 h
      obtain ⟨t, ht, rfl⟩ := Option.map_eq_some_iff.1 h
      exact stepOk_timer hi ha ht
    | onTimer now => exact stepOk_onTimer hi h
    | runTask hits => exact stepOk_runTask hi hloop h

end

/-! ## Runs -/

theorem inv_new (fd : Nat) {timer : Timer.Clocked Ev} (hw : timer.timer.WF) : Inv (new fd timer) :=
  ⟨hw, fun _ _ => rfl, by rintro hook (hp | hp) <;> cases hp⟩

/-- A caller that is suspended in a call can be resumed, and has something left to do it, in the runs
whose steps keep a wake-up for it. -/
theorem resumable_iff (fd : Nat) (events : Ev → TimerEvent) (clock : Int) (as : List Act) :
    Lts.Always step Resumable (new fd (Timer.init events clock)) as ↔
      Lts.Along step KeepsWakeUp (new fd (Timer.init events clock)) as :=
  Lts.always_iff_along (I := Inv) (fun _ _ _ hi h => (stepOk_step hi h).inv)
    (fun _ _ _ hi hr h => (stepOk_step hi h).iff hr)
    (inv_new fd ⟨by simp [Timer.init], by simp [Timer.init]⟩) (resumable_of_not_waits rfl)

/-- A call that waits for its connection and for its reply, and gets both. -/
example : Lts.Along step KeepsWakeUp (new 5 (Timer.init (fun _ => ⟨0, 0, false, false⟩) 0))
    [.caller (.encode 3), .caller (.call false 10000 0), .caller (.connect (.inProgress true 75 0)), .loop .resume,
      .caller (.connectBack true), .caller (.output (.returned 3)), .caller (.reply false),
      .caller (.input false (.blocked true)), .loop .drop, .loop .resume, .caller (.readBack 4 false),
      .caller (.execute 4 true), .caller (.execute 0 false), .caller (.reply true)] := by decide

/-- The peer answers a request by closing the connection. -/
theorem not_resumable_closed : ¬ ∀ (fd : Nat) (events : Ev → TimerEvent) (clock : Int) (as : List Act),
    Lts.Always step Resumable (new fd (Timer.init events clock)) as := by
  intro h
  obtain ⟨s, hs, hpc, hcan⟩ : ∃ s, Lts.run step (new 5 (Timer.init (fun _ => ⟨0, 0, false, false⟩) 0))
      [.caller (.encode 3), .caller (.call false 10000 0), .caller (.connect .succ), .caller (.output (.returned 3)),
        .caller (.reply false), .caller (.input false (.blocked true)), .loop .resume, .caller (.readBack 0 false)] =
        some s ∧ s.pc = .parked ∧ s.canResume = false := ⟨_, rfl, rfl, rfl⟩
  have hr := (h _ _ _ _).last hs (by rw [hpc]; rfl)
  rw [hcan] at hr
  cases hr.1

end Flconc.TcpClient
