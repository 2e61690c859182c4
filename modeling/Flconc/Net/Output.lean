/-
`TcpConnection::output` of net/tcp/tcp_connection.cc: write what is readable in the write buffer, move
the read index over what the socket took, and go round again until nothing is left.

What the socket took and what is still readable make up what was queued, in every state of a run whose
writes all take something or nothing. A write that fails returns -1, and the read index is moved by
that, too: one byte back.
-/
import Flconc.Net.TcpBuffer
import Flconc.Lib.Run

namespace Flconc

open Wire

/-- `TcpConnectionState`. -/
inductive TcpConnectionState
  | NotConnected
  | Connected
  | HalfClosing
  | Closed
  deriving DecidableEq, Repr

/-! ## A run of `output` -/

/-- Where a run of `output` is: at its start, at the head of the loop, back at the caller, or stopped
by an access outside the vector. -/
inductive OutputPhase
  | entered
  | head
  | returned
  | faulted
  deriving DecidableEq, Repr

/-- The write buffer in a run of `output`, with what the socket has taken and whether the buffer has
compacted itself. -/
structure Output where
  buf : TcpBuffer
  phase : OutputPhase := .entered
  sent : Bytes := []
  compacted : Bool := false
  deriving DecidableEq, Repr

/-- `m_is_over_time` at the start of the call, then one round each: the connection's state at its head,
what `write_hook` returns, and `m_is_over_time` at its end. -/
inductive OutputAct
  | enter (overTime : Bool)
  | round (state : TcpConnectionState) (rt : Int) (overTime : Bool)
  deriving DecidableEq, Repr

/-- What `write_hook` may return for a request of `n` bytes. -/
def WriteResult (n rt : Int) : Prop := rt = -1 ∨ 0 ≤ rt ∧ rt ≤ n

instance (n rt : Int) : Decidable (WriteResult n rt) := inferInstanceAs (Decidable (_ ∨ _))

/-- The bytes the socket takes for a result of `write_hook`, out of the buffer from the read index on. -/
def taken (b : TcpBuffer) (rt : Int) : Except Fault Bytes := bytesAt b.buffer b.readIndex (max rt 0)

/-- `recycleRead` compacts the buffer when the index it moves to has passed a third of the vector. -/
def compacts (b : TcpBuffer) (rt : Int) : Bool :=
  b.readIndex + rt ≤ b.getSize ∧ b.readIndex + rt > (b.buffer.length / 3 : Nat)

/-- The write of a round, with `m_is_over_time` behind it. -/
def outputWrite (s : Output) (rt : Int) (overTime : Bool) : Except Fault Output := do
  let bs ← taken s.buf rt
  let buf ← s.buf.recycleRead rt
  return {
    buf := buf
    phase := if buf.readAble ≤ 0 ∨ overTime then .returned else .head
    sent := s.sent ++ bs
    compacted := s.compacted || compacts s.buf rt }

/-- The test of `m_is_over_time` before the loop. -/
def outputEnter (s : Output) (overTime : Bool) : Option Output :=
  if s.phase = .entered then some { s with phase := if overTime then .returned else .head } else none

/-- One round of the loop. -/
def outputRound (s : Output) (state : TcpConnectionState) (rt : Int) (overTime : Bool) : Option Output :=
  if s.phase = .head then
    if state ≠ .Connected ∨ s.buf.readAble = 0 then some { s with phase := .returned }
    else if WriteResult s.buf.readAble rt then
      match outputWrite s rt overTime with
      | .ok s' => some s'
      | .error _ => some { s with phase := .faulted }
    else none
  else none

def outputStep (s : Output) : OutputAct → Option Output
  | .enter overTime => outputEnter s overTime
  | .round state rt overTime => outputRound s state rt overTime

/-- A round breaks off, or writes. -/
theorem outputRound_cases {s s' : Output} {state : TcpConnectionState} {rt : Int} {overTime : Bool}
    (h : outputRound s state rt overTime = some s') :
    (state ≠ .Connected ∨ s.buf.readAble = 0) ∧ s' = { s with phase := .returned } ∨
      state = .Connected ∧ s.buf.readAble ≠ 0 ∧ WriteResult s.buf.readAble rt ∧
        (outputWrite s rt overTime = .ok s' ∨
          (∃ e, outputWrite s rt overTime = .error e) ∧ s' = { s with phase := .faulted }) := by
  unfold outputRound at h
  split at h
  · split at h
    · rename_i hskip
      exact .inl ⟨hskip, (Option.some.inj h).symm⟩
    · rename_i hgo
      obtain ⟨hconn, hsome⟩ := not_or.1 hgo
      split at h
      · rename_i hrt
        refine .inr ⟨not_not.1 hconn, hsome, hrt, ?_⟩
        split at h
        · rename_i o ho
          exact .inl (ho.trans (congrArg Except.ok (Option.some.inj h)))
        · rename_i e he
          exact .inr ⟨⟨e, he⟩, (Option.some.inj h).symm⟩
      · cases h
  · cases h

/-! ## A faithful prefix -/

/-- The bytes taken and the bytes still readable are the bytes queued at the start, and without
compaction the read index has not gone back. -/
structure Faithful (start : TcpBuffer) (s : Output) : Prop where
  wf : s.buf.WF
  prefixed : s.sent ++ s.buf.readable = start.readable
  forward : s.compacted = false → start.readIndex ≤ s.buf.readIndex
  sound : s.phase ≠ .faulted

/-- The write of this round, if it gets to one, does not fail. -/
def Writes (s : Output) : OutputAct → Prop
  | .enter _ => True
  | .round state rt _ => state = .Connected → s.buf.readAble ≠ 0 → rt ≠ -1

instance (s : Output) : (a : OutputAct) → Decidable (Writes s a)
  | .enter _ => .isTrue trivial
  | .round .. => inferInstanceAs (Decidable (_ → _))

theorem recycleRead_forward {b b' : TcpBuffer} (hb : b.WF) {rt : Int} (h : b.recycleRead rt = .ok b')
    (h0 : 0 ≤ rt) (hle : rt ≤ b.readAble) (hc : compacts b rt = false) : b.readIndex ≤ b'.readIndex := by
  have hr := hb.read
  have hin : b.readIndex + rt ≤ b.getSize := by
    have := hb.write
    unfold TcpBuffer.readAble at hle
    unfold TcpBuffer.getSize
    omega
  unfold compacts at hc
  rw [TcpBuffer.recycleRead_move hb.size (by omega) hin] at h
  unfold TcpBuffer.adjustBuffer at h
  split at h
  · rename_i hthird
    exact absurd ⟨hin, hthird⟩ (of_decide_eq_false hc)
  · cases h
    show b.readIndex ≤ b.readIndex + rt
    omega

/-- A write that does not fail takes bytes from the front of the queue. -/
theorem outputWrite_spec {s : Output} (hwf : s.buf.WF) {rt : Int} (h0 : 0 ≤ rt) (hle : rt ≤ s.buf.readAble)
    (overTime : Bool) : ∃ s', outputWrite s rt overTime = .ok s' ∧ s'.buf.WF ∧
      s'.sent ++ s'.buf.readable = s.sent ++ s.buf.readable ∧
      (s'.compacted = false → s.compacted = false ∧ s.buf.readIndex ≤ s'.buf.readIndex) ∧
      s'.phase ≠ .faulted := by
  have hlen := TcpBuffer.length_readable hwf
  have hfront : Has s.buf.buffer s.buf.readIndex (s.buf.readable.take rt.toNat) :=
    hwf.has (List.take_append_drop rt.toNat _).symm
  have hbytes : taken s.buf rt = .ok (s.buf.readable.take rt.toNat) :=
    hfront.bytesAt (by rw [List.length_take]; omega)
  obtain ⟨buf, hbuf, hh, -⟩ := TcpBuffer.recycleRead_spec hwf h0 hle
  unfold outputWrite
  rw [hbytes, ok_bind, hbuf, ok_bind]
  refine ⟨_, rfl, hh.wf, ?_, ?_, ?_⟩
  · show s.sent ++ s.buf.readable.take rt.toNat ++ buf.readable = _
    rw [hh.queue, List.append_assoc, List.take_append_drop]
  · intro hc
    obtain ⟨hc₁, hc₂⟩ := (Bool.or_eq_false_iff).1 hc
    exact ⟨hc₁, recycleRead_forward hwf hbuf h0 hle hc₂⟩
  · dsimp only
    split <;> nofun

/-- A write returns to the caller only when nothing is left. -/
theorem outputWrite_returned {s s' : Output} {rt : Int} (h : outputWrite s rt false = .ok s')
    (hp : s'.phase = .returned) : s'.buf.readAble ≤ 0 := by
  unfold outputWrite at h
  obtain ⟨bs, -, h⟩ := bind_eq_ok.1 h
  obtain ⟨buf, -, h⟩ := bind_eq_ok.1 h
  cases h
  by_contra hleft
  dsimp only at hp hleft
  rw [if_neg (by simpa using hleft)] at hp
  cases hp

/-- A round whose write does not fail loses nothing, and on an open connection returns only with nothing left. -/
theorem outputRound_spec {s s' : Output} (hwf : s.buf.WF) {state : TcpConnectionState} {rt : Int} (hrt : rt ≠ -1)
    (h : outputRound s state rt false = some s') :
    s'.buf.WF ∧ s'.sent ++ s'.buf.readable = s.sent ++ s.buf.readable ∧ s'.phase ≠ .faulted ∧
      (s'.phase = .returned → state = .Connected → s'.buf.readable = []) := by
  rcases outputRound_cases h with ⟨hskip, rfl⟩ | ⟨-, -, hres, hwrite⟩
  · refine ⟨hwf, rfl, nofun, fun _ hconn => List.eq_nil_of_length_eq_zero ?_⟩
    have h0 := hskip.resolve_left (not_not.2 hconn)
    have hlen := TcpBuffer.length_readable hwf
    dsimp only
    omega
  · obtain ⟨h0, hle⟩ := hres.resolve_left hrt
    obtain ⟨o, ho, hwf', hpre, -, hsound⟩ := outputWrite_spec hwf h0 hle false
    rw [ho] at hwrite
    obtain rfl : o = s' := by
      rcases hwrite with heq | ⟨⟨e, heq⟩, -⟩
      · exact Except.ok.inj heq
      · cases heq
    refine ⟨hwf', hpre, hsound, fun hback _ => List.eq_nil_of_length_eq_zero ?_⟩
    have hleft := outputWrite_returned ho hback
    have hlen := TcpBuffer.length_readable hwf'
    omega

/-- A write that fails takes nothing and leaves one more byte to be sent. -/
theorem outputWrite_fails {s s' : Output} (hwf : s.buf.WF) {overTime : Bool}
    (h : outputWrite s (-1) overTime = .ok s') :
    s'.sent = s.sent ∧ s'.buf.readAble = s.buf.readAble + 1 := by
  obtain ⟨h1, h2, h3, h4⟩ := hwf
  unfold outputWrite at h
  obtain ⟨bs, hbs, h⟩ := bind_eq_ok.1 h
  obtain ⟨buf, hbuf, h⟩ := bind_eq_ok.1 h
  cases h
  have hnil : bs = [] := by simpa using (bytesAt_eq_ok.1 hbs).2.symm
  refine ⟨by rw [hnil, List.append_nil], ?_⟩
  have hin : s.buf.readIndex + -1 ≤ s.buf.getSize := by unfold TcpBuffer.getSize; omega
  have hleft := TcpBuffer.readAble_recycleRead h4 (by omega) hin hbuf
  show buf.readAble = _
  omega

/-- So the prefix is lost. -/
theorem not_faithful_of_fails {start : TcpBuffer} {s s' : Output} (hs : Faithful start s) {overTime : Bool}
    (h : outputWrite s (-1) overTime = .ok s') : ¬ Faithful start s' := by
  rintro ⟨hwf', hpre', -, -⟩
  obtain ⟨hsent, hmore⟩ := outputWrite_fails hs.wf h
  have hlen := TcpBuffer.length_readable hs.wf
  have hlen' := TcpBuffer.length_readable hwf'
  have hsum := congrArg List.length (hpre'.trans hs.prefixed.symm)
  rw [hsent, List.length_append, List.length_append] at hsum
  omega

/-- A round keeps the prefix exactly when its write does not fail. -/
theorem faithful_round {start : TcpBuffer} {s s' : Output} {state : TcpConnectionState} {rt : Int}
    {overTime : Bool} (hs : Faithful start s) (h : outputRound s state rt overTime = some s') :
    Faithful start s' ↔ (state = .Connected → s.buf.readAble ≠ 0 → rt ≠ -1) := by
  rcases outputRound_cases h with ⟨hskip, rfl⟩ | ⟨hconn, hsome, hres, hwrite⟩
  · refine ⟨fun _ hc hr => ?_, fun _ => ⟨hs.wf, hs.prefixed, hs.forward, nofun⟩⟩
    rcases hskip with hne | h0
    · exact absurd hc hne
    · exact absurd h0 hr
  · constructor
    · rintro hs' - - rfl
      rcases hwrite with hs₁ | ⟨-, rfl⟩
      · exact not_faithful_of_fails hs hs₁ hs'
      · exact hs'.sound rfl
    · intro hne
      obtain ⟨h0, hle⟩ := hres.resolve_left (hne hconn hsome)
      obtain ⟨s₁, hs₁, hwf, hpre, hfwd, hsound⟩ := outputWrite_spec hs.wf h0 hle overTime
      rw [hs₁] at hwrite
      obtain rfl : s₁ = s' := by
        rcases hwrite with heq | ⟨⟨e, heq⟩, -⟩
        · exact Except.ok.inj heq
        · cases heq
      refine ⟨hwf, hpre.trans hs.prefixed, fun hc => ?_, hsound⟩
      obtain ⟨hc', hle'⟩ := hfwd hc
      exact (hs.forward hc').trans hle'

theorem faithful_step {start : TcpBuffer} {s s' : Output} {a : OutputAct} (hs : Faithful start s)
    (h : outputStep s a = some s') : Faithful start s' ↔ Writes s a := by
  cases a with
  | enter overTime =>
    change outputEnter s overTime = some s' at h
    unfold outputEnter at h
    split at h
    · cases h
      refine ⟨fun _ => trivial, fun _ => ⟨hs.wf, hs.prefixed, hs.forward, ?_⟩⟩
      cases overTime <;> nofun
    · cases h
  | round state rt overTime => exact faithful_round hs h

/-- In every run of `output`: the prefix is faithful all along exactly when no write fails. -/
theorem faithful_iff {start : TcpBuffer} (hstart : start.WF) (as : List OutputAct) :
    Lts.Always outputStep (Faithful start) { buf := start } as ↔ Lts.Along outputStep Writes { buf := start } as :=
  Lts.always_iff_along (I := fun _ => True) (fun _ _ _ _ _ => trivial)
    (fun _ _ _ _ hs h => faithful_step hs h) trivial ⟨hstart, rfl, fun _ => le_rfl, nofun⟩

/-- Three bytes queued behind one that was read. -/
def threeQueued : TcpBuffer := ⟨[1, 2, 3, 4, 0, 0, 0, 0], 1, 4⟩

theorem faithful_threeQueued :
    Lts.Always outputStep (Faithful threeQueued) { buf := threeQueued }
        [.enter false, .round .Connected 2 false, .round .Connected 0 false, .round .Connected 1 false] ↔
      Lts.Along outputStep Writes { buf := threeQueued }
        [.enter false, .round .Connected 2 false, .round .Connected 0 false, .round .Connected 1 false] := by
  have hwf : threeQueued.WF := by constructor <;> decide
  exact faithful_iff hwf _

/-- After a write that fails the next one sends the byte that was read before. -/
theorem not_faithful_failedWrite :
    ¬ Lts.Always outputStep (Faithful threeQueued) { buf := threeQueued }
      [.enter false, .round .Connected (-1) false, .round .Connected 4 false] := by
  intro h
  have hrun : Lts.run outputStep { buf := threeQueued }
      [.enter false, .round .Connected (-1) false, .round .Connected 4 false] =
    some ⟨⟨[0, 0, 0, 0, 0, 0, 0, 0], 0, 0⟩, .returned, [1, 2, 3, 4], true⟩ := by decide
  have hsent := (h.last hrun).prefixed
  revert hsent
  decide

end Flconc
