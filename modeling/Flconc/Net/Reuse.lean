/-
The calls of one `TcpClient` after another, with the errors they return: what `output` writes goes to the
socket the client has connected, with nothing in the buffers that an earlier call has left there.

An error exit replaces the socket of the client, and nothing else: the connection keeps the number of the
old one and its state, and the buffers what is in them. So that holds as long as the numbers stay the
same, no call has returned an error with the connection Connected or something in a buffer, and the read
indexes have not since gone back behind that return.
-/
import Flconc.Net.TcpClient

namespace Flconc.TcpClient

open Function

/-! ## Usable clients -/

/-- The bytes go to a socket that is connected and the client's, and none of them is left over. -/
structure Write.Good (w : Write) : Prop where
  socket : w.socket = .connected
  fd : w.fd = w.clientFd
  outBuf : ¬ w.outBuf.LeftOver
  inBuf : ¬ w.inBuf.LeftOver

def Usable (s : Client) : Prop := ∀ w ∈ s.writes, w.Good

/-- Before a write every new socket had the number of the one it replaced, no call had returned an error
with the connection Connected or something in a buffer, and nothing from before had been brought back. -/
def WritesClean (s : Client) : Act → Prop
  | .caller (.output _) => s.Writes → s.renumbered = false ∧ s.soiled = false
  | .caller (.writeBack _) => s.renumbered = false ∧ s.soiled = false
  | _ => True

instance decidableWritesClean (s : Client) : (a : Act) → Decidable (WritesClean s a)
  | .caller (.output _) => inferInstanceAs (Decidable (_ → _))
  | .caller (.writeBack _) => inferInstanceAs (Decidable (_ ∧ _))
  | .caller (.encode _) | .caller (.call ..) | .caller (.connect _) | .caller (.connectBack _)
  | .caller (.resetFd ..) | .caller (.reply _) | .caller (.input ..) | .caller (.readBack ..)
  | .caller (.execute ..) | .caller (.errDeal _) | .loop _ => .isTrue trivial

/-! ## Buffers -/

theorem leftOver_put {b : Buf} {n : Int} : (b.put n).LeftOver ↔ b.LeftOver := by
  obtain ⟨readAble, fresh⟩ := b
  cases fresh with
  | none => simp [Buf.put, Buf.LeftOver]
  | some m => simp [Buf.put, Buf.LeftOver]

/-- Forwards or backwards, as long as nothing from before is brought back. -/
theorem not_leftOver_recycleRead {b : Buf} {n : Int} (h : ¬ b.LeftOver) (hn : b.bringsBack n = false) :
    ¬ (b.recycleRead n).LeftOver := by
  rintro ⟨m, hm, hlt⟩
  change m ∈ b.fresh at hm
  change m < b.readAble - n at hlt
  by_cases hneg : n < 0
  · unfold Buf.bringsBack at hn
    rw [Option.mem_def.1 hm] at hn
    simp [hneg, hlt] at hn
  · exact h ⟨m, hm, by omega⟩

/-! ## What every run keeps -/

/-- In the loop around `connect_hook`. -/
def Pc.connecting : Pc → Bool
  | .connect | .resetFd | .suspended .connect | .woken .connect => true
  | _ => false

/-- In `write_hook`. -/
def Pc.writing : Pc → Bool
  | .suspended .write | .woken .write => true
  | _ => false

/-- As long as the numbers stay the same, the client has the descriptor of the connection; as long as no
call has left anything behind, a connection that is Connected has its socket connected and the buffers
hold nothing left over. -/
structure Sound (s : Client) : Prop where
  fd : s.renumbered = false → s.fd = s.connFd
  socket : s.renumbered = false → s.soiled = false → s.state = .Connected → s.sockets s.fd = .connected
  outBuf : s.soiled = false → ¬ s.outBuf.LeftOver
  inBuf : s.soiled = false → ¬ s.inBuf.LeftOver

structure Placed (s : Client) : Prop where
  connecting : s.pc.connecting = true → s.state ≠ .Connected
  writing : s.pc.writing = true → s.state = .Connected

/-- A step that writes nothing. -/
structure Leads (s s' : Client) : Prop where
  sound : Sound s'
  placed : Placed s'
  writes : s'.writes = s.writes

section

variable {s s₁ s' : Client}

/-- Outside the two hooks nothing is asked of the state. -/
theorem placed_of (hc : s.pc.connecting = false) (hw : s.pc.writing = false) : Placed s :=
  ⟨fun h => absurd h (by rw [hc]; nofun), fun h => absurd h (by rw [hw]; nofun)⟩

theorem Leads.after (h : Leads s₁ s') (hw : s₁.writes = s.writes) : Leads s s' :=
  ⟨h.sound, h.placed, h.writes.trans hw⟩

/-- An error exit keeps the descriptors in step; the rest it notes down. -/
theorem leads_returnError (hfd : s.renumbered = false → s.fd = s.connFd) (ret : Ret) :
    Leads s (s.returnError ret) := by
  have hclean : (s.returnError ret).soiled = false →
      s.state ≠ .Connected ∧ ¬ 0 < s.outBuf.readAble ∧ ¬ 0 < s.inBuf.readAble := by
    intro h
    change (s.soiled || _ || _ || _) = false at h
    simp only [Bool.or_eq_false_iff, decide_eq_false_iff_not] at h
    exact ⟨h.1.1.2, h.1.2, h.2⟩
  refine ⟨⟨hfd, fun _ hs hc => absurd hc (hclean hs).1, fun hs => ?_, fun hs => ?_⟩, placed_of rfl rfl, rfl⟩
  · rintro ⟨n, hn, hlt⟩
    cases hn
    exact (hclean hs).2.1 hlt
  · rintro ⟨n, hn, hlt⟩
    cases hn
    exact (hclean hs).2.2 hlt

theorem sound_delTimerEvent (h : Sound s) (ev : Ev) : Sound (s.delTimerEvent ev) :=
  ⟨h.fd, h.socket, h.outBuf, h.inBuf⟩

theorem leads_afterOutput (h : Sound s) : Leads s s.afterOutput := by
  unfold Client.afterOutput
  split
  · exact ⟨⟨h.fd, h.socket, h.outBuf, h.inBuf⟩, placed_of rfl rfl, rfl⟩
  · exact ⟨⟨h.fd, h.socket, h.outBuf, h.inBuf⟩, placed_of rfl rfl, rfl⟩

theorem leads_afterConnect (h : Sound s) : Leads s s.afterConnect := by
  unfold Client.afterConnect
  split
  · exact .after (leads_returnError (sound_delTimerEvent h _).fd _) rfl
  · rename_i hstate
    have hstate : s.state = .Connected := not_not.1 hstate
    have hup : Sound s.setUpClient := ⟨h.fd, fun hr hs _ => h.socket hr hs hstate, h.outBuf, h.inBuf⟩
    split
    · exact .after (leads_afterOutput hup) rfl
    · exact ⟨⟨hup.fd, hup.socket, hup.outBuf, hup.inBuf⟩, placed_of rfl rfl, rfl⟩

theorem leads_connectLoop (h : Sound s) : Leads s s.connectLoop := by
  unfold Client.connectLoop
  split
  · exact leads_afterConnect h
  · split
    · rename_i hstate
      exact ⟨⟨h.fd, h.socket, h.outBuf, h.inBuf⟩, ⟨fun _ => hstate, nofun⟩, rfl⟩
    · exact leads_afterConnect h

theorem leads_connected (h : Sound s) (hs : s.connected = some s') : Leads s s' := by
  unfold Client.connected at hs
  split at hs
  · cases hs
  · cases hs
    have hup : Sound { s with sockets := update s.sockets s.fd .connected }.setUpClient :=
      ⟨h.fd, fun _ _ _ => update_self .., h.outBuf, h.inBuf⟩
    exact .after (leads_afterConnect hup) rfl

theorem leads_call (h : Sound s) {main : Bool} {timeout now : Int} (hs : s.call main timeout now = some s') :
    Leads s s' := by
  obtain ⟨s₁, hs₁, rfl⟩ := Option.map_eq_some_iff.1 hs
  obtain ⟨t, -, rfl⟩ := Option.map_eq_some_iff.1 hs₁
  have h₁ : Sound { s with
      main := main, calls := s.calls + 1, isTimeout := false, canResume := true, timer := t } :=
    ⟨h.fd, h.socket, h.outBuf, h.inBuf⟩
  exact .after (leads_connectLoop h₁) rfl

/-- The loop has to replace the socket: `connect` has failed, at once or behind the `Yield`. -/
theorem leads_toResetFd (h : Sound s) (hstate : s.state ≠ .Connected) : Leads s { s with pc := .resetFd } :=
  ⟨⟨h.fd, h.socket, h.outBuf, h.inBuf⟩, ⟨fun _ => hstate, nofun⟩, rfl⟩

theorem leads_connect (h : Sound s) (hstate : s.state ≠ .Connected) {rt : ConnectRt}
    (hs : s.connect rt = some s') : Leads s s' := by
  cases rt with
  | succ => exact leads_connected h hs
  | failed =>
    cases hs
    exact leads_toResetFd h hstate
  | inProgress registered interval now =>
    obtain ⟨-, hs⟩ := Option.ite_none_left_eq_some.1 hs
    obtain ⟨t, -, rfl⟩ := Option.map_eq_some_iff.1 hs
    exact ⟨⟨h.fd, h.socket, h.outBuf, h.inBuf⟩, ⟨fun _ => hstate, nofun⟩, rfl⟩

theorem leads_connectBack (h : Sound s) (hstate : s.state ≠ .Connected) {succ : Bool}
    (hs : s.connectBack succ = some s') : Leads s s' := by
  have hdel := sound_delTimerEvent h (.connect s.attempts)
  unfold Client.connectBack at hs
  dsimp only at hs
  split at hs
  · exact .after (leads_connected hdel hs) rfl
  · cases hs
    exact .after (leads_toResetFd hdel hstate) rfl

/-- A socket is replaced: only the descriptors are still known to be in step. -/
theorem resetFd_fd (h : Sound s) {n : Nat} (hs : s.resetFd n = some s') :
    (s'.renumbered = false → s'.fd = s'.connFd) ∧ s'.state = s.state ∧ s'.outBuf = s.outBuf ∧ s'.inBuf = s.inBuf ∧
      s'.soiled = s.soiled ∧ s'.writes = s.writes := by
  unfold Client.resetFd at hs
  dsimp only at hs
  split at hs
  · cases hs
    refine ⟨fun hr => ?_, rfl, rfl, rfl, rfl, rfl⟩
    change (s.renumbered || decide (n ≠ s.fd)) = false at hr
    rw [Bool.or_eq_false_iff, decide_eq_false_iff_not, not_not] at hr
    exact hr.2.trans (h.fd hr.1)
  · cases hs

theorem leads_afterReset (h : Sound s) (errno : Errno) : Leads s (s.afterReset errno) := by
  unfold Client.afterReset
  split
  · exact ⟨⟨h.fd, h.socket, h.outBuf, h.inBuf⟩, placed_of rfl rfl, rfl⟩
  · cases errno with
    | ECONNREFUSED => exact .after (leads_returnError (sound_delTimerEvent h _).fd _) rfl
    | EAFNOSUPPORT => exact .after (leads_returnError (sound_delTimerEvent h _).fd _) rfl
    | other => exact leads_connectLoop h

theorem leads_resetFd (h : Sound s) (hstate : s.state ≠ .Connected) {n : Nat} (hs : s.resetFd n = some s₁)
    (errno : Errno) : Leads s (s₁.afterReset errno) := by
  obtain ⟨hfd, hst, hout, hin, hsoil, hw⟩ := resetFd_fd h hs
  have hstate₁ : s₁.state ≠ .Connected := hst ▸ hstate
  have h₁ : Sound s₁ := by
    refine ⟨hfd, fun _ _ hc => absurd hc hstate₁, fun hs => ?_, fun hs => ?_⟩
    · rw [hout]
      exact h.outBuf (hsoil ▸ hs)
    · rw [hin]
      exact h.inBuf (hsoil ▸ hs)
  exact .after (leads_afterReset h₁ errno) hw

theorem leads_errDeal (h : Sound s) {n : Nat} (hs : s.errDeal n = some s') : Leads s s' := by
  obtain ⟨s₁, h₁, rfl⟩ := Option.map_eq_some_iff.1 hs
  obtain ⟨hfd, -, -, -, -, hw⟩ := resetFd_fd h h₁
  split
  · exact .after (leads_returnError (s := { s₁ with overTime := false }) hfd _) hw
  · exact .after (leads_returnError hfd _) hw

/-- What a write takes is taken; what a failed one brings back from before is noted down. -/
theorem leads_wrote (h : Sound s) {rt : Int} (hs : s.wrote rt = some s') : Leads s s' := by
  unfold Client.wrote at hs
  split at hs
  · cases hs
    have hclean : (s.soiled || s.outBuf.bringsBack rt) = false →
        s.soiled = false ∧ s.outBuf.bringsBack rt = false := Bool.or_eq_false_iff.1
    have h₁ : Sound { s with
        outBuf := s.outBuf.recycleRead rt
        soiled := s.soiled || s.outBuf.bringsBack rt } := by
      refine ⟨h.fd, fun hr hs hc => h.socket hr (hclean hs).1 hc, fun hs => ?_, fun hs => h.inBuf (hclean hs).1⟩
      exact not_leftOver_recycleRead (h.outBuf (hclean hs).1) (hclean hs).2
    dsimp only
    split
    · exact .after (leads_afterOutput h₁) rfl
    · exact ⟨⟨h₁.fd, h₁.socket, h₁.outBuf, h₁.inBuf⟩, placed_of rfl rfl, rfl⟩
  · cases hs

/-- And so with a decoder that goes backwards. -/
theorem leads_execute (h : Sound s) {n : Int} {succ : Bool} (hs : s.execute n succ = some s') : Leads s s' := by
  have hpc : ∀ {b : Bool}, (if b then Pc.execute else .reply).connecting = false ∧
      (if b then Pc.execute else .reply).writing = false := by decide
  unfold Client.execute at hs
  split at hs
  · cases hs
    exact ⟨⟨h.fd, h.socket, h.outBuf, h.inBuf⟩, placed_of rfl rfl, rfl⟩
  · obtain ⟨-, hs⟩ := Option.ite_none_right_eq_some.1 hs
    cases hs
    have hclean : (s.soiled || s.inBuf.bringsBack n) = false →
        s.soiled = false ∧ s.inBuf.bringsBack n = false := Bool.or_eq_false_iff.1
    refine ⟨⟨h.fd, fun hr hs hc => h.socket hr (hclean hs).1 hc, fun hs => h.outBuf (hclean hs).1, fun hs => ?_⟩,
      placed_of hpc.1 hpc.2, rfl⟩
    exact not_leftOver_recycleRead (h.inBuf (hclean hs).1) (hclean hs).2

theorem leads_afterInput (h : Sound s) : Leads s s.afterInput := by
  unfold Client.afterInput
  split
  · exact ⟨⟨h.fd, h.socket, h.outBuf, h.inBuf⟩, placed_of rfl rfl, rfl⟩
  · split
    · exact ⟨⟨h.fd, h.socket, h.outBuf, h.inBuf⟩, placed_of rfl rfl, rfl⟩
    · exact ⟨⟨h.fd, h.socket, h.outBuf, h.inBuf⟩, placed_of rfl rfl, rfl⟩

theorem leads_reply (h : Sound s) (found : Bool) : Leads s (s.reply found) := by
  unfold Client.reply
  split
  · exact ⟨⟨h.fd, h.socket, h.outBuf, h.inBuf⟩, placed_of rfl rfl, rfl⟩
  · split
    · exact leads_afterInput h
    · exact ⟨⟨h.fd, h.socket, h.outBuf, h.inBuf⟩, placed_of rfl rfl, rfl⟩

theorem sound_received (h : Sound s) (rt : Int) : Sound (s.received rt) ∧ (s.received rt).writes = s.writes := by
  unfold Client.received
  split
  · exact ⟨⟨h.fd, h.socket, h.outBuf, fun hs => mt leftOver_put.1 (h.inBuf hs)⟩, rfl⟩
  · exact ⟨h, rfl⟩

theorem sound_clearClient (h : Sound s) : Sound s.clearClient ∧ s.clearClient.writes = s.writes := by
  unfold Client.clearClient
  split
  · exact ⟨h, rfl⟩
  · exact ⟨⟨h.fd, nofun, h.outBuf, h.inBuf⟩, rfl⟩

theorem leads_closeBranch (h : Sound s) : Leads s s.closeBranch := by
  obtain ⟨h₁, hw⟩ := sound_clearClient h
  unfold Client.closeBranch
  split
  · have h₂ : Sound { s.clearClient with canResume := false } := ⟨h₁.fd, h₁.socket, h₁.outBuf, h₁.inBuf⟩
    exact .after (leads_afterInput h₂) hw
  · exact ⟨⟨h₁.fd, h₁.socket, h₁.outBuf, h₁.inBuf⟩, placed_of rfl rfl, hw⟩

theorem leads_readBack (h : Sound s) (rt : Int) (full : Bool) : Leads s (s.readBack rt full) := by
  obtain ⟨h₁, hw⟩ := sound_received h rt
  unfold Client.readBack
  split
  · exact .after (leads_afterInput h₁) hw
  · split
    · exact leads_closeBranch h
    · split
      · exact ⟨⟨h₁.fd, h₁.socket, h₁.outBuf, h₁.inBuf⟩, placed_of rfl rfl, hw⟩
      · exact .after (leads_afterInput h₁) hw

theorem leads_input (h : Sound s) {full : Bool} {rt : IoRt} (hs : s.input full rt = some s') : Leads s s' := by
  cases rt with
  | returned rt =>
    obtain ⟨-, hs⟩ := Option.ite_none_right_eq_some.1 hs
    cases hs
    exact leads_readBack h rt full
  | blocked registered =>
    obtain ⟨-, hs⟩ := Option.ite_none_left_eq_some.1 hs
    cases hs
    exact ⟨⟨h.fd, h.socket, h.outBuf, h.inBuf⟩, placed_of rfl rfl, rfl⟩

/-! ## Writes -/

/-- A write in a clean state is a good one. -/
theorem Sound.good (h : Sound s) (hstate : s.state = .Connected) (hclean : s.renumbered = false ∧ s.soiled = false) :
    Write.Good ⟨s.connFd, s.sockets s.connFd, s.fd, s.outBuf, s.inBuf⟩ := by
  obtain ⟨hr, hs⟩ := hclean
  have hfd := h.fd hr
  refine ⟨?_, hfd.symm, h.outBuf hs, h.inBuf hs⟩
  show s.sockets s.connFd = .connected
  rw [← hfd]
  exact h.socket hr hs hstate

theorem usable_write (h : Sound s) (hu : Usable s) (hstate : s.state = .Connected)
    (hclean : s.renumbered = false ∧ s.soiled = false) : Usable s.write := by
  intro w hw
  rcases List.mem_cons.1 hw with rfl | hw
  · exact h.good hstate hclean
  · exact hu w hw

theorem Usable.leads (hu : Usable s) (h : Leads s s') : Usable s' := by
  intro w hw
  rw [h.writes] at hw
  exact hu w hw

/-- What a step keeps: the invariant, and the property if it writes cleanly. -/
structure StepSound (s : Client) (a : Act) (s' : Client) : Prop where
  sound : Sound s'
  placed : Placed s'
  usable : Usable s → WritesClean s a → Usable s'

theorem Leads.stepSound (h : Leads s s') {a : Act} : StepSound s a s' :=
  ⟨h.sound, h.placed, fun hu _ => hu.leads h⟩

theorem stepSound_output (h : Sound s) (hwrites : s.Writes) {rt : IoRt} (hs : s.output rt = some s') :
    StepSound s (.caller (.output rt)) s' := by
  have hwr : Sound s.write := ⟨h.fd, h.socket, h.outBuf, h.inBuf⟩
  have huse : Usable s → WritesClean s (.caller (.output rt)) → Usable s.write := fun hu hc =>
    usable_write h hu hwrites.1 (hc hwrites)
  cases rt with
  | returned rt =>
    obtain ⟨-, hs⟩ := Option.ite_none_right_eq_some.1 hs
    have hl := leads_wrote hwr hs
    exact ⟨hl.sound, hl.placed, fun hu hc => (huse hu hc).leads hl⟩
  | blocked registered =>
    obtain ⟨-, hs⟩ := Option.ite_none_left_eq_some.1 hs
    cases hs
    exact ⟨⟨h.fd, h.socket, h.outBuf, h.inBuf⟩, ⟨nofun, fun _ => hwrites.1⟩, huse⟩

theorem stepSound_caller (h : Sound s) (hp : Placed s) {a : CallerAct} (hs : callerStep s a = some s') :
    StepSound s (.caller a) s' := by
  cases a with
  | encode n =>
    obtain ⟨hpc, hs⟩ := Option.ite_none_right_eq_some.1 hs
    cases hs
    have hout : s.soiled = false → ¬ (s.outBuf.put n).LeftOver := fun hs => mt leftOver_put.1 (h.outBuf hs)
    have hl : Leads s { s with outBuf := s.outBuf.put n } :=
      ⟨⟨h.fd, h.socket, hout, h.inBuf⟩, ⟨hp.connecting, hp.writing⟩, rfl⟩
    exact hl.stepSound
  | call main timeout now =>
    obtain ⟨-, hs⟩ := Option.ite_none_right_eq_some.1 hs
    exact (leads_call h hs).stepSound
  | connect rt =>
    obtain ⟨hpc, hs⟩ := Option.ite_none_right_eq_some.1 hs
    exact (leads_connect h (hp.connecting (by rw [hpc]; rfl)) hs).stepSound
  | connectBack succ =>
    obtain ⟨hpc, hs⟩ := Option.ite_none_right_eq_some.1 hs
    exact (leads_connectBack h (hp.connecting (by rw [hpc]; rfl)) hs).stepSound
  | resetFd n errno =>
    obtain ⟨hpc, hs⟩ := Option.ite_none_right_eq_some.1 hs
    obtain ⟨s₁, hs₁, rfl⟩ := Option.map_eq_some_iff.1 hs
    exact (leads_resetFd h (hp.connecting (by rw [hpc]; rfl)) hs₁ errno).stepSound
  | output rt =>
    obtain ⟨hpc, hs⟩ := Option.ite_none_right_eq_some.1 hs
    split at hs
    · rename_i hwrites
      exact stepSound_output h hwrites hs
    · cases hs
      exact (leads_afterOutput h).stepSound
  | writeBack rt =>
    obtain ⟨hpc, hs⟩ := Option.ite_none_right_eq_some.1 hs
    have hstate := hp.writing (by rw [hpc]; rfl)
    have hwr : Sound s.write := ⟨h.fd, h.socket, h.outBuf, h.inBuf⟩
    have hl := leads_wrote hwr hs
    exact ⟨hl.sound, hl.placed, fun hu hc => (usable_write h hu hstate hc).leads hl⟩
  | reply found =>
    obtain ⟨hpc, hs⟩ := Option.ite_none_right_eq_some.1 hs
    cases hs
    exact (leads_reply h found).stepSound
  | input full rt =>
    obtain ⟨-, hs⟩ := Option.ite_none_right_eq_some.1 hs
    exact (leads_input h hs).stepSound
  | readBack rt full =>
    obtain ⟨hpc, hs⟩ := Option.ite_none_right_eq_some.1 hs
    cases hs
    exact (leads_readBack h rt full).stepSound
  | execute n succ =>
    obtain ⟨-, hs⟩ := Option.ite_none_right_eq_some.1 hs
    exact (leads_execute h hs).stepSound
  | errDeal n =>
    obtain ⟨-, hs⟩ := Option.ite_none_right_eq_some.1 hs
    exact (leads_errDeal h hs).stepSound

/-! ## Steps of the loop -/

theorem leads_resume (h : Sound s) (hp : Placed s) : Leads s s.resume := by
  unfold Client.resume
  split
  · cases hpc : s.pc with
    | suspended hook =>
      refine ⟨⟨h.fd, h.socket, h.outBuf, h.inBuf⟩, ⟨fun hc => hp.connecting ?_, fun hw => hp.writing ?_⟩, rfl⟩
      · rw [hpc]
        cases hook <;> first | rfl | cases hc
      · rw [hpc]
        cases hook <;> first | rfl | cases hw
    | parked => exact leads_afterInput h
    | _ => exact ⟨h, hp, rfl⟩
  · exact ⟨h, hp, rfl⟩

theorem leads_timeout (h : Sound s) (hp : Placed s) (call : Nat) (hits : Bool) : Leads s (s.timeout call hits) := by
  unfold Client.timeout
  split
  · have h₁ : Sound { s with overTime := true, isTimeout := true } := ⟨h.fd, h.socket, h.outBuf, h.inBuf⟩
    exact .after (leads_resume h₁ ⟨hp.connecting, hp.writing⟩) rfl
  · exact ⟨⟨h.fd, h.socket, h.outBuf, h.inBuf⟩, ⟨hp.connecting, hp.writing⟩, rfl⟩

theorem leads_runTask (h : Sound s) (hp : Placed s) {hits : Bool} (hs : s.runTask hits = some s') : Leads s s' := by
  unfold Client.runTask at hs
  split at hs
  · cases hs
  · rename_i call tasks _
    cases hs
    have h₁ : Sound { s with tasks := tasks } := ⟨h.fd, h.socket, h.outBuf, h.inBuf⟩
    exact .after (leads_timeout h₁ ⟨hp.connecting, hp.writing⟩ call hits) rfl
  · cases hs
    exact ⟨⟨h.fd, h.socket, h.outBuf, h.inBuf⟩, ⟨hp.connecting, hp.writing⟩, rfl⟩

theorem leads_loop (h : Sound s) (hp : Placed s) {a : LoopAct} (hs : loopStep s a = some s') : Leads s s' := by
  cases a with
  | resume =>
    cases hs
    exact leads_resume h hp
  | drop =>
    cases hs
    exact ⟨⟨h.fd, h.socket, h.outBuf, h.inBuf⟩, ⟨hp.connecting, hp.writing⟩, rfl⟩
  | timer now a =>
    obtain ⟨-, hs⟩ := Option.ite_none_right_eq_some.1 hs
    obtain ⟨t, -, rfl⟩ := Option.map_eq_some_iff.1 hs
    exact ⟨⟨h.fd, h.socket, h.outBuf, h.inBuf⟩, ⟨hp.connecting, hp.writing⟩, rfl⟩
  | onTimer now =>
    obtain ⟨-, hs⟩ := Option.ite_none_right_eq_some.1 hs
    obtain ⟨t, -, rfl⟩ := Option.map_eq_some_iff.1 hs
    exact ⟨⟨h.fd, h.socket, h.outBuf, h.inBuf⟩, ⟨hp.connecting, hp.writing⟩, rfl⟩
  | runTask hits => exact leads_runTask h hp hs

theorem stepSound_step (h : Sound s) (hp : Placed s) {a : Act} (hs : step s a = some s') : StepSound s a s' := by
  cases a with
  | caller a => exact stepSound_caller h hp hs
  | loop a =>
    obtain ⟨-, hs⟩ := Option.ite_none_right_eq_some.1 hs
    exact (leads_loop h hp hs).stepSound

end

/-! ## Runs -/

theorem sound_new (fd : Nat) (timer : Timer.Clocked Ev) : Sound (new fd timer) ∧ Placed (new fd timer) := by
  have hempty : ¬ Buf.LeftOver {} := by decide
  exact ⟨⟨fun _ => rfl, nofun, fun _ => hempty, fun _ => hempty⟩, placed_of rfl rfl⟩

/-- In a run that writes only before anything is left behind, every write is a good one. -/
theorem usable_of_writesClean (fd : Nat) (timer : Timer.Clocked Ev) {as : List Act}
    (h : Lts.Along step WritesClean (new fd timer) as) : Lts.Always step Usable (new fd timer) as := by
  have hall := Lts.always_of_along (I := fun s => (Sound s ∧ Placed s) ∧ Usable s)
    (fun s a s' hi hg hs => by
      have hst := stepSound_step hi.1.1 hi.1.2 hs
      exact ⟨⟨hst.sound, hst.placed⟩, hst.usable hi.2 hg⟩)
    ⟨sound_new fd timer, nofun⟩ h
  exact hall.imp fun _ hs => hs.2

def noTimer : Timer.Clocked Ev := Timer.init (fun _ => ⟨0, 0, false, false⟩) 0

/-- Two calls of the main coroutine: the peer closes the connection after the first request, the new socket
gets the old number, and the second request is answered in two reads. -/
theorem usable_reconnected : Lts.Always step Usable (new 5 noTimer)
    [.caller (.encode 3), .caller (.call true 10000 0), .caller (.connect .succ), .caller (.output (.returned 3)),
      .caller (.reply false), .caller (.input false (.returned 0)), .caller (.errDeal 5),
      .caller (.encode 4), .caller (.call true 10000 1), .caller (.connect .succ), .caller (.output (.returned 4)),
      .caller (.reply false), .caller (.input false (.returned 12)), .caller (.execute 0 false),
      .caller (.reply false), .caller (.input false (.returned 16)), .caller (.execute 28 true),
      .caller (.execute 0 false), .caller (.reply true)] :=
  usable_of_writesClean 5 noTimer (by decide)

/-- The first call times out while it reads, and the second writes to a socket that was never connected. -/
theorem not_usable_timedOut : ¬ ∀ (fd : Nat) (timer : Timer.Clocked Ev) (as : List Act),
    Lts.Always step Usable (new fd timer) as := by
  intro h
  obtain ⟨s, hs, hw⟩ : ∃ s, Lts.run step (new 5 noTimer)
      [.caller (.encode 3), .caller (.call false 100 0), .caller (.connect .succ), .caller (.output (.returned 3)),
        .caller (.reply false), .caller (.input false (.blocked true)), .loop (.onTimer 100), .loop (.runTask false),
        .caller (.readBack (-1) false), .caller (.errDeal 5), .caller (.encode 4), .caller (.call false 100 200),
        .caller (.output (.returned 4))] = some s ∧
      s.writes.head? = some ⟨5, .created, 5, ⟨4, some 4⟩, ⟨0, some 0⟩⟩ := ⟨_, rfl, by decide⟩
  have hgood := (h _ _ _).last hs _ (List.mem_of_mem_head? hw)
  cases hgood.socket

end Flconc.TcpClient
