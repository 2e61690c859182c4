/-
The loop of a server connection, `MainServerLoopCorFunc` of net/tcp/tcp_connection.cc: `input`, `execute` and
`output` in turn, over either codec and its dispatcher.

A peer's requests arrive in pieces cut anywhere. In every run whose writes do not fail, whose buffers do
not outgrow an `int` and in which the codec waits for a request that is not whole, the requests are
dispatched in order, each one once, and the socket has been given the beginning of their replies. Back at
`input`, all requests that have arrived completely are dispatched and, on an open connection, answered.

`input` comes back to `execute` only from a read that leaves room: while every read fills its room exactly,
it goes on reading, and what has arrived waits.
-/
import Flconc.Net.Execute
import Flconc.Net.Receive
import Flconc.Lib.Framing
import Flconc.Lib.Run
import Mathlib.Data.List.Forall2

namespace Flconc

open Wire Framing

/-! ## The loop -/

/-- Where the coroutine is: before `input`, in `input` behind a read that has filled its room, in `execute`, in
`output`, given up behind the end of the connection, or stopped by a fault. -/
inductive ServePhase
  | input
  | reading
  | execute
  | output
  | closed
  | faulted
  deriving DecidableEq, Repr

/-- A server connection. What a dispatch is given besides the request (new message numbers, say) is a `ι`. The
bytes that have arrived, the requests dispatched and the bytes the socket has taken are history. -/
structure Serving (ι : Type) where
  buf : TcpBuffer
  out : TcpBuffer
  state : TcpConnectionState := .Connected
  phase : ServePhase := .input
  arrived : Bytes := []
  handed : List (ι × Data) := []
  sent : Bytes := []

inductive ServeAct (ι : Type)
  /-- A read of `input` brings these bytes. -/
  | read (bs : Bytes)
  /-- A read of `input` finds the end of the connection, or fails. -/
  | close
  /-- One round of `execute`. -/
  | round (x : ι)
  /-- One round of `output`, with what `write_hook` returns. -/
  | write (rt : Int)
  /-- `shutdownConnection`, from the time wheel. -/
  | shutdown

/-- What a step reads. -/
def ServeAct.bytes {ι : Type} : ServeAct ι → Bytes
  | .read bs => bs
  | .close => []
  | .round _ => []
  | .write _ => []
  | .shutdown => []

/-- The head of `execute`'s loop: the next request, if there is one. -/
def takeNext (p : Protocal) (buf : TcpBuffer) : Except Fault (TcpBuffer × Option Data) :=
  if buf.readAble > 0 then do
    let (buf, data) ← decodeNew p buf
    return (buf, if data.decodeSucc then some data else none)
  else .ok (buf, none)

theorem executeRound_eq (p : Protocal) (s : Reading) : executeRound p s =
    match takeNext p s.buf with
    | .error e => .inr (.error e)
    | .ok (buf, some data) => .inl ⟨buf, s.handed ++ [data]⟩
    | .ok (buf, none) => .inr (.ok ⟨buf, s.handed⟩) := by
  unfold executeRound takeNext
  split
  · cases decodeNew p s.buf with
    | error e => rfl
    | ok r =>
      obtain ⟨buf, data⟩ := r
      rw [ok_bind]
      dsimp only
      cases data.decodeSucc <;> rfl
  · rfl

section

variable {ι : Type} (p : Protocal) (dispatch : ι → Data → TcpBuffer → Except Fault TcpBuffer)

def Serving.new (ι : Type) (size : Nat) : Serving ι := { buf := .ofSize size, out := .ofSize size }

def serveRead (s : Serving ι) (bs : Bytes) : Option (Serving ι) :=
  match inputRead s.buf bs with
  | .ok none => none
  | .ok (some (buf, filled)) =>
    some { s with buf := buf, phase := if filled then .reading else .execute, arrived := s.arrived ++ bs }
  | .error _ => some { s with phase := .faulted }

/-- `clearClient`, after which the coroutine is not resumed. -/
def serveClose (s : Serving ι) : Serving ι :=
  match growIfFull s.buf with
  | .ok buf => { s with buf := buf, state := .Closed, phase := .closed }
  | .error _ => { s with phase := .faulted }

def serveRound (s : Serving ι) (x : ι) : Serving ι :=
  match takeNext p s.buf with
  | .ok (buf, none) => { s with buf := buf, phase := .output }
  | .ok (buf, some data) =>
    match dispatch x data s.out with
    | .ok out => { s with buf := buf, out := out, handed := s.handed ++ [(x, data)] }
    | .error _ => { s with phase := .faulted }
  | .error _ => { s with phase := .faulted }

/-- Where the loop is behind a round of `output`. -/
def behindRound : OutputPhase → ServePhase
  | .returned => .input
  | .faulted => .faulted
  | .entered | .head => .output

/-- A server connection's over-time flag is never set. -/
def serveWrite (s : Serving ι) (rt : Int) : Option (Serving ι) :=
  (outputRound { buf := s.out, phase := .head } s.state rt false).map fun o => { s with
    out := o.buf
    sent := s.sent ++ o.sent
    phase := behindRound o.phase }

def serveShutdown (s : Serving ι) : Serving ι :=
  if s.state = .Closed ∨ s.state = .NotConnected then s else { s with state := .HalfClosing }

def serveStep (s : Serving ι) : ServeAct ι → Option (Serving ι)
  | .read bs => if s.phase = .input ∨ s.phase = .reading then serveRead s bs else none
  | .close => if s.phase = .input ∨ s.phase = .reading then some (serveClose s) else none
  | .round x => if s.phase = .execute then some (serveRound p dispatch s x) else none
  | .write rt => if s.phase = .output then serveWrite s rt else none
  | .shutdown => some (serveShutdown s)

section

variable {p dispatch} {s s' : Serving ι}

/-! ## What a step does -/

theorem serveRead_cases {bs : Bytes} (h : serveRead s bs = some s') :
    (∃ buf filled, inputRead s.buf bs = .ok (some (buf, filled)) ∧
      s' = { s with buf := buf, phase := if filled then .reading else .execute, arrived := s.arrived ++ bs }) ∨
    (∃ e, inputRead s.buf bs = .error e) ∧ s' = { s with phase := .faulted } := by
  unfold serveRead at h
  split at h
  · cases h
  · rename_i buf filled hread
    exact .inl ⟨buf, filled, hread, (Option.some.inj h).symm⟩
  · rename_i e hread
    exact .inr ⟨⟨e, hread⟩, (Option.some.inj h).symm⟩

theorem serveStep_read {bs : Bytes} (h : serveStep p dispatch s (.read bs) = some s') :
    (s.phase = .input ∨ s.phase = .reading) ∧ serveRead s bs = some s' := by
  simp only [serveStep] at h
  split at h
  · rename_i hp
    exact ⟨hp, h⟩
  · cases h

theorem serveStep_close (h : serveStep p dispatch s .close = some s') : s' = serveClose s := by
  simp only [serveStep] at h
  split at h
  · exact (Option.some.inj h).symm
  · cases h

theorem serveStep_round {x : ι} (h : serveStep p dispatch s (.round x) = some s') :
    s.phase = .execute ∧ s' = serveRound p dispatch s x := by
  simp only [serveStep] at h
  split at h
  · rename_i hp
    exact ⟨hp, (Option.some.inj h).symm⟩
  · cases h

theorem serveStep_write {rt : Int} (h : serveStep p dispatch s (.write rt) = some s') :
    s.phase = .output ∧ serveWrite s rt = some s' := by
  simp only [serveStep] at h
  split at h
  · rename_i hp
    exact ⟨hp, h⟩
  · cases h

theorem serveStep_shutdown (h : serveStep p dispatch s .shutdown = some s') : s' = serveShutdown s :=
  (Option.some.inj h).symm

/-- A read touches neither the requests dispatched nor what is written. -/
theorem serveRead_frame {bs : Bytes} (h : serveRead s bs = some s') :
    s'.handed = s.handed ∧ s'.out = s.out ∧ s'.sent = s.sent ∧ s'.state = s.state ∧
      (s'.phase = .reading ∨ s'.phase = .execute ∨ s'.phase = .faulted) := by
  rcases serveRead_cases h with ⟨buf, filled, -, rfl⟩ | ⟨-, rfl⟩
  · cases filled
    · exact ⟨rfl, rfl, rfl, rfl, .inr (.inl rfl)⟩
    · exact ⟨rfl, rfl, rfl, rfl, .inl rfl⟩
  · exact ⟨rfl, rfl, rfl, rfl, .inr (.inr rfl)⟩

theorem serveClose_frame (s : Serving ι) : (serveClose s).handed = s.handed ∧ (serveClose s).out = s.out ∧
    (serveClose s).sent = s.sent ∧ (serveClose s).arrived = s.arrived := by
  unfold serveClose
  split <;> exact ⟨rfl, rfl, rfl, rfl⟩

theorem serveShutdown_frame (s : Serving ι) : (serveShutdown s).handed = s.handed ∧
    (serveShutdown s).arrived = s.arrived := by
  unfold serveShutdown
  split <;> exact ⟨rfl, rfl⟩

/-- A round of `execute` only reads. -/
theorem serveRound_frame (x : ι) : (serveRound p dispatch s x).arrived = s.arrived ∧
    (serveRound p dispatch s x).sent = s.sent ∧ (serveRound p dispatch s x).state = s.state := by
  unfold serveRound
  split
  · exact ⟨rfl, rfl, rfl⟩
  · split <;> exact ⟨rfl, rfl, rfl⟩
  · exact ⟨rfl, rfl, rfl⟩

/-- A round dispatches one request, or ends `execute`. -/
theorem serveRound_cases (x : ι) :
    (∃ data, (serveRound p dispatch s x).handed = s.handed ++ [(x, data)]) ∨
    (serveRound p dispatch s x).handed = s.handed ∧ (serveRound p dispatch s x).out = s.out ∧
      ((serveRound p dispatch s x).phase = .output ∨ (serveRound p dispatch s x).phase = .faulted) := by
  unfold serveRound
  split
  · exact .inr ⟨rfl, rfl, .inl rfl⟩
  · rename_i data _
    split
    · exact .inl ⟨data, rfl⟩
    · exact .inr ⟨rfl, rfl, .inr rfl⟩
  · exact .inr ⟨rfl, rfl, .inr rfl⟩

theorem serveWrite_frame {rt : Int} (h : serveWrite s rt = some s') :
    s'.handed = s.handed ∧ s'.arrived = s.arrived ∧ s'.state = s.state ∧ s.sent <+: s'.sent := by
  unfold serveWrite at h
  obtain ⟨o, -, rfl⟩ := Option.map_eq_some_iff.1 h
  exact ⟨rfl, rfl, rfl, List.prefix_append _ _⟩

/-- What is dispatched is dispatched with what the round is given. -/
theorem serveStep_handed {a : ServeAct ι} (h : serveStep p dispatch s a = some s') :
    s'.handed = s.handed ∨ ∃ x data, a = .round x ∧ s'.handed = s.handed ++ [(x, data)] := by
  cases a with
  | read bs => exact .inl (serveRead_frame (serveStep_read h).2).1
  | close =>
    rw [serveStep_close h]
    exact .inl (serveClose_frame s).1
  | round x =>
    rw [(serveStep_round h).2]
    rcases serveRound_cases x with ⟨data, h⟩ | ⟨h, -⟩
    · exact .inr ⟨x, data, rfl, h⟩
    · exact .inl h
  | write rt => exact .inl (serveWrite_frame (serveStep_write h).2).1
  | shutdown =>
    rw [serveStep_shutdown h]
    exact .inl (serveShutdown_frame s).1

/-- What has arrived only grows, by what `input` reads. -/
theorem serveStep_arrived {a : ServeAct ι} (h : serveStep p dispatch s a = some s') (hs : s'.phase ≠ .faulted) :
    s'.arrived = s.arrived ++ a.bytes := by
  cases a with
  | read bs =>
    rcases serveRead_cases (serveStep_read h).2 with ⟨buf, filled, -, rfl⟩ | ⟨-, rfl⟩
    · rfl
    · exact absurd rfl hs
  | close => rw [serveStep_close h, (serveClose_frame s).2.2.2, ServeAct.bytes, List.append_nil]
  | round x => rw [(serveStep_round h).2, (serveRound_frame x).1, ServeAct.bytes, List.append_nil]
  | write rt => rw [(serveWrite_frame (serveStep_write h).2).2.1, ServeAct.bytes, List.append_nil]
  | shutdown => rw [serveStep_shutdown h, (serveShutdown_frame s).2, ServeAct.bytes, List.append_nil]

end

/-- Neither end has closed the connection. -/
def Serving.Open (s : Serving ι) : Prop := s.state = .Connected ∧ s.phase ≠ .closed

/-- The peer's end and the time wheel close a connection, and nothing else does. -/
theorem serveStep_open {p dispatch} {s s' : Serving ι} {a : ServeAct ι} (h : serveStep p dispatch s a = some s')
    (hs : s.Open) (hc : a ≠ .close) (hd : a ≠ .shutdown) : s'.Open := by
  cases a with
  | read bs =>
    obtain ⟨-, -, -, hstate, hphase⟩ := serveRead_frame (serveStep_read h).2
    refine ⟨hstate.trans hs.1, fun hclosed => ?_⟩
    rw [hclosed] at hphase
    rcases hphase with h | h | h <;> cases h
  | close => exact absurd rfl hc
  | round x =>
    obtain ⟨hp, rfl⟩ := serveStep_round h
    refine ⟨(serveRound_frame x).2.2.trans hs.1, ?_⟩
    unfold serveRound
    split
    · nofun
    · split
      · exact hs.2
      · nofun
    · nofun
  | write rt =>
    obtain ⟨-, hw⟩ := serveStep_write h
    refine ⟨(serveWrite_frame hw).2.2.1.trans hs.1, ?_⟩
    unfold serveWrite at hw
    obtain ⟨o, -, rfl⟩ := Option.map_eq_some_iff.1 hw
    cases o.phase <;> nofun
  | shutdown => exact absurd rfl hd

/-! ## What a protocol has to do -/

variable {α : Type}

/-- How a codec reads the items it is sent: a whole one in front is taken off, a part of one is left while
`Waits`. -/
structure Speaks (enc : α → Bytes) (Reads : α → Data → Prop) (Waits : α → TcpBuffer → Prop) : Prop where
  nonempty : ∀ a, enc a ≠ []
  front : ∀ a buf rest, Usable buf → buf.readable = enc a ++ rest →
    ∃ buf' data, decodeNew p buf = .ok (buf', data) ∧ Reads a data ∧ data.decodeSucc = true ∧
      Usable buf' ∧ buf'.readable = rest
  part : ∀ a buf rest, Usable buf → buf.readable <+: enc a ++ rest → ¬ enc a <+: buf.readable → Waits a buf →
    ∃ data, decodeNew p buf = .ok (buf, data) ∧ data.decodeSucc = false

/-- What a dispatcher appends for an item that was read. -/
def Answers (Reads : α → Data → Prop) (answer : ι → α → Bytes) : Prop :=
  ∀ a x data out, Reads a data → out.WF → out.Room (answer x a).length →
    ∃ out', dispatch x data out = .ok out' ∧ out'.Holds (out.readable ++ answer x a)

/-! ## The requests are answered in order -/

variable (enc : α → Bytes) (Reads : α → Data → Prop) (Waits : α → TcpBuffer → Prop) (answer : ι → α → Bytes)

/-- The replies to the items that were dispatched, back to back. -/
def replies (as : List α) (handed : List (ι × Data)) : Bytes :=
  (List.zipWith (fun a h => answer h.1 a) as handed).flatten

/-- The peer sends the items `as`. Nothing went wrong; what was dispatched is the beginning of what was
sent; and the socket has the beginning of the replies. Behind `execute`, all that have arrived completely are
dispatched; behind `output`, unless the connection is being shut down, the socket has all replies. -/
structure Serves (as : List α) (s : Serving ι) : Prop where
  sound : s.phase ≠ .faulted
  inOrder : List.Forall₂ (fun a h => Reads a h.2) (as.take s.handed.length) s.handed
  prefixed : s.sent <+: replies answer as s.handed
  dispatched : s.phase = .input ∨ s.phase = .output →
    ∀ k ≤ as.length, stream enc (as.take k) <+: s.arrived → k ≤ s.handed.length
  answered : s.phase = .input ∨ s.phase = .reading → s.state = .Connected → s.sent = replies answer as s.handed

/-- What arrives is the stream, and a full buffer may grow; there is room for the reply to a whole request, and
the codec waits for one that is not; and the write does not fail. -/
def Keeps (as : List α) (s : Serving ι) : ServeAct ι → Prop
  | .read bs => s.arrived ++ bs <+: stream enc as ∧ HasRoom s.buf 1
  | .close => HasRoom s.buf 1
  | .round x => ∀ a, as[s.handed.length]? = some a →
    (enc a <+: s.buf.readable → s.out.Room (answer x a).length) ∧
    (¬ enc a <+: s.buf.readable → s.buf.readable ≠ [] → Waits a s.buf)
  | .write rt => rt ≠ -1
  | .shutdown => True

instance [∀ a, DecidablePred (Waits a)] (as : List α) (s : Serving ι) :
    (a : ServeAct ι) → Decidable (Keeps enc Waits answer as s a)
  | .read _ => inferInstanceAs (Decidable (_ ∧ _))
  | .close => inferInstanceAs (Decidable (HasRoom _ _))
  | .round x =>
    inferInstanceAs (Decidable (∀ a ∈ as[s.handed.length]?,
      (enc a <+: s.buf.readable → s.out.Room (answer x a).length) ∧
      (¬ enc a <+: s.buf.readable → s.buf.readable ≠ [] → Waits a s.buf)))
  | .write _ => inferInstanceAs (Decidable (_ ≠ _))
  | .shutdown => .isTrue trivial

/-- The invariant of the loop. -/
structure Serving.Inv (as : List α) (s : Serving ι) : Prop where
  sound : s.phase ≠ .faulted
  usable : Usable s.buf
  out : s.out.WF
  split : Split enc as s.arrived s.handed.length s.buf.readable
  inOrder : List.Forall₂ (fun a h => Reads a h.2) (as.take s.handed.length) s.handed
  answered : s.sent ++ s.out.readable = replies answer as s.handed
  short : s.phase = .input ∨ s.phase = .output → Short enc as s.handed.length s.buf.readable
  flushed : s.phase = .input ∨ s.phase = .reading → s.state = .Connected → s.out.readable = []

/-- The bytes end in an item that is cut where `Bad` says. -/
def EndsIn (Bad : α → Bytes → Prop) (as : List α) (bs : Bytes) : Prop :=
  ∃ n a t, as[n]? = some a ∧ bs = stream enc (as.take n) ++ t ∧ t ≠ [] ∧ Bad a t

/-- The same with the cuts in place of the codec's state: what `execute` finds ends in no bad cut. -/
def KeepsCuts (Bad : α → Bytes → Prop) (as : List α) (s : Serving ι) : ServeAct ι → Prop
  | .read bs => s.arrived ++ bs <+: stream enc as ∧ HasRoom s.buf 1
  | .close => HasRoom s.buf 1
  | .round x => ¬ EndsIn enc Bad as s.arrived ∧
    ∀ a, as[s.handed.length]? = some a → enc a <+: s.buf.readable → s.out.Room (answer x a).length
  | .write rt => rt ≠ -1
  | .shutdown => True

/-- An item that is cut is one of those that are there, and the rest is what is left of the bytes. -/
theorem endsIn_iff {Bad : α → Bytes → Prop} {as : List α} {bs : Bytes} : EndsIn enc Bad as bs ↔
    ∃ n, ∃ h : n < as.length, stream enc (as.take n) <+: bs ∧ bs.drop (stream enc (as.take n)).length ≠ [] ∧
      Bad as[n] (bs.drop (stream enc (as.take n)).length) := by
  constructor
  · rintro ⟨n, a, t, ha, rfl, hne, hbad⟩
    obtain ⟨hn, rfl⟩ := List.getElem?_eq_some_iff.1 ha
    refine ⟨n, hn, List.prefix_append _ _, ?_⟩
    rw [List.drop_left]
    exact ⟨hne, hbad⟩
  · rintro ⟨n, hn, ⟨t, rfl⟩, hne, hbad⟩
    rw [List.drop_left] at hne hbad
    exact ⟨n, as[n], t, List.getElem?_eq_getElem hn, rfl, hne, hbad⟩

instance (Bad : α → Bytes → Prop) [∀ a t, Decidable (Bad a t)] (as : List α) (bs : Bytes) :
    Decidable (EndsIn enc Bad as bs) :=
  decidable_of_iff' _ (endsIn_iff enc)

instance (Bad : α → Bytes → Prop) [∀ a t, Decidable (Bad a t)] (as : List α) (s : Serving ι) :
    (a : ServeAct ι) → Decidable (KeepsCuts enc answer Bad as s a)
  | .read _ => inferInstanceAs (Decidable (_ ∧ _))
  | .close => inferInstanceAs (Decidable (HasRoom _ _))
  | .round x =>
    inferInstanceAs (Decidable (_ ∧ ∀ a ∈ as[s.handed.length]?, enc a <+: s.buf.readable →
      s.out.Room (answer x a).length))
  | .write _ => inferInstanceAs (Decidable (_ ≠ _))
  | .shutdown => .isTrue trivial

variable {p dispatch enc Reads Waits answer}

theorem zipWith_next {γ δ : Type} {f : α → γ → δ} {as : List α} {cs : List γ} {a : α} (ha : as[cs.length]? = some a)
    (c : γ) : List.zipWith f as (cs ++ [c]) = List.zipWith f as cs ++ [f a c] := by
  induction cs generalizing as with
  | nil =>
    cases as with
    | nil => cases ha
    | cons b as =>
      cases ha
      simp
  | cons d cs ih =>
    cases as with
    | nil => cases ha
    | cons b as =>
      rw [List.cons_append, List.zipWith_cons_cons, ih (by simpa using ha)]
      rfl

theorem zipWith_extend {γ δ : Type} {f : α → γ → δ} {as : List α} {cs : List γ} (h : cs.length ≤ as.length)
    (bs : List α) : List.zipWith f (as ++ bs) cs = List.zipWith f as cs := by
  induction cs generalizing as with
  | nil => simp
  | cons c cs ih =>
    cases as with
    | nil => simp at h
    | cons a as =>
      rw [List.cons_append, List.zipWith_cons_cons, List.zipWith_cons_cons, ih (by simpa using h)]

theorem replies_next {as : List α} {handed : List (ι × Data)} {a : α} (ha : as[handed.length]? = some a)
    (h : ι × Data) : replies answer as (handed ++ [h]) = replies answer as handed ++ answer h.1 a := by
  unfold replies
  rw [zipWith_next ha, List.flatten_append]
  simp

namespace Serving.Inv

variable {as : List α} {s : Serving ι}

theorem new (hne : ∀ a, enc a ≠ []) (as : List α) {size : Nat} (h0 : 0 < size) (hsize : size < 2 ^ 31) :
    (Serving.new ι size).Inv enc Reads answer as := by
  have hu := ofSize_usable h0 hsize
  have hnil : (TcpBuffer.ofSize size).readable = [] := List.eq_nil_of_length_eq_zero <| by
    have := TcpBuffer.length_readable hu.wf
    simpa [TcpBuffer.ofSize, TcpBuffer.readAble] using this
  refine ⟨by simp [Serving.new], hu, hu.wf, ?_, .nil, ?_, fun _ => ?_, fun _ _ => hnil⟩
  · show Split enc as [] 0 (TcpBuffer.ofSize size).readable
    rw [hnil]
    exact Split.nil as
  · show [] ++ (TcpBuffer.ofSize size).readable = replies answer as []
    rw [hnil]
    simp [replies]
  · show Short enc as 0 (TcpBuffer.ofSize size).readable
    rw [hnil]
    exact Short.nil hne

/-- The peer sends more. -/
theorem extend (hne : ∀ a, enc a ≠ []) (hi : s.Inv enc Reads answer as) (bs : List α) :
    s.Inv enc Reads answer (as ++ bs) where
  sound := hi.sound
  usable := hi.usable
  out := hi.out
  split := hi.split.extend bs
  inOrder := by
    rw [List.take_append_of_le_length hi.split.le]
    exact hi.inOrder
  answered := by
    unfold replies
    rw [zipWith_extend hi.split.le]
    exact hi.answered
  short hp := (hi.short hp).extend hne hi.split bs
  flushed := hi.flushed

theorem serves (hi : s.Inv enc Reads answer as) : Serves enc Reads answer as s where
  sound := hi.sound
  inOrder := hi.inOrder
  prefixed := ⟨_, hi.answered⟩
  dispatched hp k hk hk' := hi.split.complete (hi.short hp) hk hk'
  answered hp hs := by
    have hsent := hi.answered
    rwa [hi.flushed hp hs, List.append_nil] at hsent

theorem read (hi : s.Inv enc Reads answer as) (hp : s.phase = .input ∨ s.phase = .reading) {bs : Bytes}
    (hbs : s.arrived ++ bs <+: stream enc as) (hroom : HasRoom s.buf 1) {s' : Serving ι}
    (h : serveRead s bs = some s') : s'.Inv enc Reads answer as := by
  rcases inputRead_spec hi.usable hroom bs with hnone | ⟨buf, filled, hread, hu, hq⟩
  · unfold serveRead at h
    rw [hnone] at h
    cases h
  · unfold serveRead at h
    rw [hread] at h
    cases h
    refine ⟨?_, hu, hi.out, ?_, hi.inOrder, hi.answered, ?_, fun _ hs => hi.flushed hp hs⟩
    · cases filled <;> nofun
    · show Split enc as (s.arrived ++ bs) s.handed.length buf.readable
      rw [hq]
      exact hi.split.feed hbs
    · cases filled <;> nofun

/-- The connection ends. -/
theorem close (hi : s.Inv enc Reads answer as) (hroom : HasRoom s.buf 1) :
    (serveClose s).Inv enc Reads answer as := by
  obtain ⟨buf, hbuf, hu, hq, -, -⟩ := growIfFull_spec hi.usable Nat.one_pos hroom
  unfold serveClose
  rw [hbuf]
  refine ⟨nofun, hu, hi.out, ?_, hi.inOrder, hi.answered, nofun, nofun⟩
  show Split enc as s.arrived s.handed.length buf.readable
  rw [hq]
  exact hi.split

theorem shutdown (hi : s.Inv enc Reads answer as) : (serveShutdown s).Inv enc Reads answer as := by
  unfold serveShutdown
  split
  · exact hi
  · exact ⟨hi.sound, hi.usable, hi.out, hi.split, hi.inOrder, hi.answered, hi.short, nofun⟩

/-- `execute` takes no more. -/
theorem idle (hi : s.Inv enc Reads answer as) (hs : Short enc as s.handed.length s.buf.readable) :
    Serving.Inv enc Reads answer as { s with phase := .output } :=
  ⟨nofun, hi.usable, hi.out, hi.split, hi.inOrder, hi.answered, fun _ => hs, nofun⟩

/-- The request in front is taken and answered. -/
theorem served (hi : s.Inv enc Reads answer as) {a : α} (ha : as[s.handed.length]? = some a) {rest : Bytes}
    (hrest : s.buf.readable = enc a ++ rest) {buf out : TcpBuffer} {data : Data} (hr : Reads a data)
    (hu : Usable buf) (hq : buf.readable = rest) {x : ι} (ho : out.Holds (s.out.readable ++ answer x a))
    (hp : s.phase = .execute) :
    Serving.Inv enc Reads answer as { s with buf := buf, out := out, handed := s.handed ++ [(x, data)] } := by
  have hn : (s.handed ++ [(x, data)]).length = s.handed.length + 1 := by simp
  refine ⟨hi.sound, hu, ho.wf, ?_, ?_, ?_, fun h => ?_, fun h => ?_⟩
  · show Split enc as s.arrived (s.handed ++ [(x, data)]).length buf.readable
    rw [hn, hq]
    exact hi.split.next ha hrest
  · show List.Forall₂ _ (as.take (s.handed ++ [(x, data)]).length) (s.handed ++ [(x, data)])
    rw [hn, List.take_add_one, ha]
    exact List.rel_append hi.inOrder (.cons hr .nil)
  · show s.sent ++ out.readable = replies answer as (s.handed ++ [(x, data)])
    rw [ho.queue, ← List.append_assoc, hi.answered, replies_next ha]
  · change s.phase = .input ∨ s.phase = .output at h
    rw [hp] at h
    rcases h with h | h <;> cases h
  · change s.phase = .input ∨ s.phase = .reading at h
    rw [hp] at h
    rcases h with h | h <;> cases h

theorem round (hsp : Speaks p enc Reads Waits) (hans : Answers dispatch Reads answer)
    (hi : s.Inv enc Reads answer as) (hp : s.phase = .execute) {x : ι}
    (hk : Keeps enc Waits answer as s (.round x)) : (serveRound p dispatch s x).Inv enc Reads answer as := by
  have hlen := TcpBuffer.length_readable hi.usable.wf
  unfold serveRound takeNext
  by_cases hr : s.buf.readAble > 0
  · rw [if_pos hr]
    have hne : s.buf.readable ≠ [] := by
      intro hnil
      rw [hnil, List.length_nil] at hlen
      omega
    obtain ⟨a, ha, hpre⟩ := hi.split.exists_next hne
    obtain ⟨hroom, hwait⟩ := hk a ha
    by_cases hwhole : enc a <+: s.buf.readable
    · obtain ⟨rest, hrest⟩ := hwhole
      obtain ⟨buf, data, hdec, hread, hsucc, hu, hq⟩ := hsp.front a s.buf rest hi.usable hrest.symm
      obtain ⟨out, hout, hholds⟩ := hans a x data s.out hread hi.out (hroom ⟨rest, hrest⟩)
      rw [hdec, ok_bind]
      dsimp only
      rw [if_pos hsucc]
      show Serving.Inv enc Reads answer as (match dispatch x data s.out with
        | .ok out => { s with buf := buf, out := out, handed := s.handed ++ [(x, data)] }
        | .error _ => { s with phase := .faulted })
      rw [hout]
      exact hi.served ha hrest.symm hread hu hq hholds hp
    · obtain ⟨data, hdec, hfail⟩ := hsp.part a s.buf _ hi.usable hpre hwhole (hwait hwhole hne)
      rw [hdec, ok_bind]
      dsimp only
      rw [if_neg (by rw [hfail]; decide)]
      refine hi.idle fun a' ha' => ?_
      rw [ha] at ha'
      cases ha'
      exact hwhole
  · rw [if_neg hr]
    have hnil : s.buf.readable = [] := List.eq_nil_of_length_eq_zero (by omega)
    refine hi.idle ?_
    rw [hnil]
    exact Short.nil hsp.nonempty

theorem write (hi : s.Inv enc Reads answer as) (hp : s.phase = .output) {rt : Int} (hrt : rt ≠ -1)
    {s' : Serving ι} (h : serveWrite s rt = some s') : s'.Inv enc Reads answer as := by
  have hshort := hi.short (.inr hp)
  unfold serveWrite at h
  obtain ⟨o, ho, rfl⟩ := Option.map_eq_some_iff.1 h
  obtain ⟨hwf, hpre, hsound, hback⟩ := outputRound_spec (s := { buf := s.out, phase := .head }) hi.out hrt ho
  have hsent : s.sent ++ o.sent ++ o.buf.readable = replies answer as s.handed := by
    rw [List.append_assoc, hpre]
    exact hi.answered
  cases hph : o.phase with
  | faulted => exact absurd hph hsound
  | returned =>
    exact ⟨nofun, hi.usable, hwf, hi.split, hi.inOrder, hsent, fun _ => hshort, fun _ hs => hback hph hs⟩
  | entered | head => exact ⟨nofun, hi.usable, hwf, hi.split, hi.inOrder, hsent, fun _ => hshort, nofun⟩

theorem step (hsp : Speaks p enc Reads Waits) (hans : Answers dispatch Reads answer)
    (hi : s.Inv enc Reads answer as) {a : ServeAct ι} (hk : Keeps enc Waits answer as s a) {s' : Serving ι}
    (h : serveStep p dispatch s a = some s') : s'.Inv enc Reads answer as := by
  cases a with
  | read bs =>
    obtain ⟨hp, h⟩ := serveStep_read h
    exact hi.read hp hk.1 hk.2 h
  | close =>
    rw [serveStep_close h]
    exact hi.close hk
  | round x =>
    obtain ⟨hp, rfl⟩ := serveStep_round h
    exact hi.round hsp hans hp hk
  | write rt =>
    obtain ⟨hp, h⟩ := serveStep_write h
    exact hi.write hp hk h
  | shutdown =>
    rw [serveStep_shutdown h]
    exact hi.shutdown

end Serving.Inv

/-- In every run that keeps to it the requests are answered in order. -/
theorem serves_of_keeps (hsp : Speaks p enc Reads Waits) (hans : Answers dispatch Reads answer) (as : List α)
    {size : Nat} (h0 : 0 < size) (hsize : size < 2 ^ 31) {acts : List (ServeAct ι)}
    (hk : Lts.Along (serveStep p dispatch) (Keeps enc Waits answer as) (.new ι size) acts) :
    Lts.Always (serveStep p dispatch) (Serves enc Reads answer as) (.new ι size) acts :=
  (Lts.always_of_along (fun _ _ _ hi hk h => hi.step hsp hans hk h)
    (Serving.Inv.new hsp.nonempty as h0 hsize) hk).imp fun _ hi => hi.serves

/-- A step that avoids the bad cuts finds the codec waiting for what is not whole. -/
theorem Serving.Inv.keeps {Bad : α → Bytes → Prop} {as : List α} {s : Serving ι} (hi : s.Inv enc Reads answer as)
    (hwaits : ∀ a ∈ as, ∀ buf, Usable buf → buf.readable <+: enc a → ¬ enc a <+: buf.readable →
      ¬ Bad a buf.readable → Waits a buf) {a : ServeAct ι}
    (hk : KeepsCuts enc answer Bad as s a) : Keeps enc Waits answer as s a := by
  cases a with
  | read bs => exact hk
  | close => exact hk
  | write rt => exact hk
  | shutdown => exact hk
  | round x =>
    refine fun a ha => ⟨hk.2 a ha, fun hpart hne => ?_⟩
    obtain ⟨b, hb, hpre⟩ := hi.split.exists_next hne
    obtain rfl : a = b := Option.some.inj (ha.symm.trans hb)
    have hcut : s.buf.readable <+: enc a :=
      (List.prefix_or_prefix_of_prefix hpre (List.prefix_append _ _)).resolve_right hpart
    exact hwaits a (List.mem_of_getElem? ha) s.buf hi.usable hcut hpart fun hbad =>
      hk.1 ⟨_, a, _, ha, hi.split.parts, hne, hbad⟩

/-- The requests are answered in order however they are cut, outside the bad cuts. -/
theorem serves_of_keepsCuts (hsp : Speaks p enc Reads Waits) (hans : Answers dispatch Reads answer)
    {Bad : α → Bytes → Prop} {as : List α} (hwaits : ∀ a ∈ as, ∀ buf, Usable buf → buf.readable <+: enc a →
      ¬ enc a <+: buf.readable → ¬ Bad a buf.readable → Waits a buf)
    {size : Nat} (h0 : 0 < size) (hsize : size < 2 ^ 31) {acts : List (ServeAct ι)}
    (hk : Lts.Along (serveStep p dispatch) (KeepsCuts enc answer Bad as) (.new ι size) acts) :
    Lts.Always (serveStep p dispatch) (Serves enc Reads answer as) (.new ι size) acts :=
  serves_of_keeps hsp hans as h0 hsize <|
    hk.of_invariant (fun _ _ _ hi hk h => hi.step hsp hans (hi.keeps hwaits hk) h) (fun _ _ hi hk => hi.keeps hwaits hk)
      (Serving.Inv.new hsp.nonempty as h0 hsize)

end

end Flconc
