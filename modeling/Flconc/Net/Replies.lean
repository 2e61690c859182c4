/-
The replies of a client connection: `execute` of net/tcp/tcp_connection.cc puts each packet it decodes
under its message number, `getResPackageData` takes one out, and the receive loop of
`sendAndRecvFlconcPb` of net/tcp/tcp_client.cc goes round both until its own number is there.

Packets may come before the call that wants them, in any order, several in one read, and twice under
one number. The map keeps the first of a number that nobody has taken, and drops the others.
-/
import Flconc.Net.Execute
import Flconc.FlconcPb.Packet
import Flconc.Lib.Mailbox
import Flconc.Lib.Run

namespace Flconc

open Wire

/-! ## The receive loop -/

/-- Where a call of `sendAndRecvFlconcPb` is in its receive loop: before `getResPackageData`, before
`input`, or in `execute`. -/
inductive ReceivePhase
  | look
  | read
  | exec
  deriving DecidableEq

/-- A client connection: its codec's protocol, the read buffer, `m_reply_datas` with its history, and
the call that is in its receive loop, with the number it waits for. -/
structure ReplyConn where
  protocal : Protocal
  buf : TcpBuffer
  replyDatas : Mailbox.Box Bytes FlconcPb.FlconcPbStruct := .empty
  call : Option (Bytes × ReceivePhase) := none

inductive ReplyAct
  /-- `getResPackageData`, from anywhere. -/
  | getRes (msgReq : Bytes)
  /-- A call gets to its receive loop. -/
  | enter (msgNo : Bytes)
  /-- The head of the loop. -/
  | look
  /-- `input` leaves this read buffer; the call gives up when it is over time or the peer has closed. -/
  | input (buf : TcpBuffer) (overTime closed : Bool)
  /-- One round of `execute`. -/
  | execute

/-- The reply is a `FlconcPbStruct` that was found under the number. -/
def getResPackageData (s : ReplyConn) (msgReq : Bytes) : Option (Nat × ReplyConn) :=
  (s.replyDatas.take msgReq).map fun r => (r.1, { s with replyDatas := r.2 })

/-- What a client connection does with what it has decoded: an `HttpRequest` is not kept. -/
def keepReply (box : Mailbox.Box Bytes FlconcPb.FlconcPbStruct) : Data → Mailbox.Box Bytes FlconcPb.FlconcPbStruct
  | .flconcPb data => box.offer (·.msgReq) data
  | .http _ => box

def lookStep (s : ReplyConn) : Option ReplyConn :=
  match s.call with
  | some (msgNo, .look) =>
    match getResPackageData s msgNo with
    | some (_, s') => some { s' with call := none }
    | none => some { s with call := some (msgNo, .read) }
  | _ => none

def inputStep (s : ReplyConn) (buf : TcpBuffer) (overTime closed : Bool) : Option ReplyConn :=
  match s.call with
  | some (msgNo, .read) =>
    some { s with buf := buf, call := if overTime || closed then none else some (msgNo, .exec) }
  | _ => none

def executeStep (s : ReplyConn) : Option ReplyConn :=
  match s.call with
  | some (msgNo, .exec) =>
    match executeRound s.protocal ⟨s.buf, []⟩ with
    | .inl r => some { s with buf := r.buf, replyDatas := r.handed.foldl keepReply s.replyDatas }
    | .inr (.ok r) => some { s with buf := r.buf, call := some (msgNo, .look) }
    | .inr (.error _) => none
  | _ => none

def replyStep (s : ReplyConn) : ReplyAct → Option ReplyConn
  | .getRes msgReq => some (((getResPackageData s msgReq).map Prod.snd).getD s)
  | .enter msgNo => if s.call = none then some { s with call := some (msgNo, .look) } else none
  | .look => lookStep s
  | .input buf overTime closed => inputStep s buf overTime closed
  | .execute => executeStep s

/-! ## Deliveries -/

/-- The packets decoded on the connection, in order. -/
def ReplyConn.decoded (s : ReplyConn) : List FlconcPb.FlconcPbStruct := s.replyDatas.offered

/-- The packet with this place among the decoded ones is stored under the number, and no call has got it. -/
def ReplyConn.Waiting (s : ReplyConn) (msgReq : Bytes) (p : Nat) : Prop :=
  s.replyDatas.Waiting (·.msgReq) msgReq p

/-- The number a look-up asks for. -/
def asked (s : ReplyConn) : ReplyAct → Option Bytes
  | .getRes msgReq => some msgReq
  | .look => s.call.map Prod.fst
  | _ => none

/-- The look-up gives its caller this packet: `getResPackageData` returns true, the call returns 0. -/
def DeliversTo (s : ReplyConn) (a : ReplyAct) (msgReq : Bytes) (p : Nat) : Prop :=
  asked s a = some msgReq ∧ ∃ s', getResPackageData s msgReq = some (p, s')

/-- The packets among what has been decoded. -/
def packets (ds : List Data) : List FlconcPb.FlconcPbStruct :=
  ds.filterMap fun
    | .flconcPb data => some data
    | .http _ => none

/-- The packets a step decodes: those of the round of `execute`. -/
def arriving (s : ReplyConn) : ReplyAct → List FlconcPb.FlconcPbStruct
  | .execute =>
    match s.call, executeRound s.protocal ⟨s.buf, []⟩ with
    | some (_, .exec), .inl r => packets r.handed
    | _, _ => []
  | _ => []

/-- What one step does to the packets that are stored: it takes the one it delivers and no other, and
stores those it decodes. -/
structure Matched (s : ReplyConn) (a : ReplyAct) (s' : ReplyConn) : Prop where
  /-- A delivered packet was decoded here, has the number asked for, and is the earliest one waiting. -/
  delivered : ∀ msgReq p, DeliversTo s a msgReq p → s.Waiting msgReq p ∧
    (∃ d, s.decoded[p]? = some d ∧ d.msgReq = msgReq) ∧ (∀ q, s.Waiting msgReq q → p ≤ q) ∧
    s'.replyDatas.taken = s.replyDatas.taken ++ [p]
  silent : (∀ msgReq p, ¬ DeliversTo s a msgReq p) → s'.replyDatas.taken = s.replyDatas.taken
  arrived : s'.decoded = s.decoded ++ arriving s a
  /-- What waited waits on unless it is delivered, and where nothing waited under a number the first
  packet of that number that arrives does. -/
  waits : ∀ msgReq p, s'.Waiting msgReq p ↔ (s.Waiting msgReq p ∧ ¬ DeliversTo s a msgReq p) ∨
    (∀ q, ¬ s.Waiting msgReq q) ∧
      ∃ i, (arriving s a).findIdx? (·.msgReq = msgReq) = some i ∧ p = s.decoded.length + i

/-- The packets wait in their slots. -/
def ReplyConn.Ok (s : ReplyConn) : Prop := s.replyDatas.Ok (·.msgReq)

theorem getResPackageData_eq_some {s s' : ReplyConn} {msgReq : Bytes} {p : Nat} :
    getResPackageData s msgReq = some (p, s') ↔
      ∃ box, s.replyDatas.take msgReq = some (p, box) ∧ s' = { s with replyDatas := box } := by
  unfold getResPackageData
  constructor
  · intro h
    obtain ⟨⟨q, box⟩, hq, h⟩ := Option.map_eq_some_iff.1 h
    cases h
    exact ⟨box, hq, rfl⟩
  · rintro ⟨box, h, rfl⟩
    rw [h]
    rfl

/-- A look-up of a number finds the packet that waits under it. -/
theorem getResPackageData_iff {s : ReplyConn} (hs : s.Ok) (msgReq : Bytes) (p : Nat) :
    (∃ s', getResPackageData s msgReq = some (p, s')) ↔ s.Waiting msgReq p := by
  unfold ReplyConn.Waiting
  rw [← hs.slots msgReq p]
  constructor
  · rintro ⟨s', h⟩
    obtain ⟨box, hbox, -⟩ := getResPackageData_eq_some.1 h
    exact (Mailbox.Box.take_eq_some.1 hbox).1
  · intro h
    exact ⟨_, getResPackageData_eq_some.2 ⟨_, Mailbox.Box.take_eq_some.2 ⟨h, rfl⟩, rfl⟩⟩

/-- A look-up that finds a packet. -/
theorem matched_found {s s' : ReplyConn} {a : ReplyAct} {msgReq : Bytes} {p : Nat} (hs : s.Ok)
    (ha : asked s a = some msgReq) (hnone : arriving s a = [])
    {box : Mailbox.Box Bytes FlconcPb.FlconcPbStruct} (hp : s.replyDatas.take msgReq = some (p, box))
    (hbox : s'.replyDatas = box) : s'.Ok ∧ Matched s a s' := by
  have hget : ∃ s', getResPackageData s msgReq = some (p, s') := ⟨_, getResPackageData_eq_some.2 ⟨box, hp, rfl⟩⟩
  have hdel : DeliversTo s a msgReq p := ⟨ha, hget⟩
  have honly : ∀ n q, DeliversTo s a n q → n = msgReq ∧ q = p := by
    rintro n q ⟨hn, s₁, hq⟩
    rw [ha] at hn
    cases hn
    obtain ⟨box', hq, -⟩ := getResPackageData_eq_some.1 hq
    rw [hp] at hq
    cases hq
    exact ⟨rfl, rfl⟩
  obtain ⟨hwait, hfirst⟩ := Mailbox.Box.take_earliest hs hp
  have htaken : s'.replyDatas.taken = s.replyDatas.taken ++ [p] := by
    rw [hbox, (Mailbox.Box.take_eq_some.1 hp).2]
  refine ⟨by unfold ReplyConn.Ok; rw [hbox]; exact Mailbox.Box.ok_take hs hp, ?_, ?_, ?_, ?_⟩
  · intro n q hq
    obtain ⟨rfl, rfl⟩ := honly n q hq
    exact ⟨hwait, hwait.keyed, hfirst, htaken⟩
  · exact fun h => absurd hdel (h _ _)
  · unfold ReplyConn.decoded
    rw [hnone, List.append_nil, hbox, (Mailbox.Box.take_eq_some.1 hp).2]
  · intro n q
    rw [hnone]
    unfold ReplyConn.Waiting
    rw [hbox, Mailbox.Box.waiting_take_iff hp]
    constructor
    · rintro ⟨hq, hne⟩
      exact .inl ⟨hq, fun hd => hne (honly n q hd).2⟩
    · rintro (⟨hq, hnot⟩ | ⟨-, i, hi, -⟩)
      · refine ⟨hq, ?_⟩
        rintro rfl
        -- the packet at a place has one number
        obtain ⟨d, hd, hn⟩ := hq.keyed
        obtain ⟨d', hd', hn'⟩ := hwait.keyed
        obtain rfl : d = d' := Option.some.inj (hd.symm.trans hd')
        exact hnot ((hn.symm.trans hn') ▸ hdel)
      · cases hi

/-- Storing what was decoded is offering the packets. -/
theorem foldl_keepReply (ds : List Data) (box : Mailbox.Box Bytes FlconcPb.FlconcPbStruct) :
    ds.foldl keepReply box = (packets ds).foldl (Mailbox.Box.offer (·.msgReq)) box := by
  induction ds generalizing box with
  | nil => rfl
  | cons d ds ih =>
    cases d with
    | http r => exact ih box
    | flconcPb d => exact ih (box.offer (·.msgReq) d)

/-- A step that looks up nothing, or finds nothing, and stores what it has decoded. -/
theorem matched_offered {s s' : ReplyConn} {a : ReplyAct} (hs : s.Ok)
    (ha : ∀ msgReq p, ¬ DeliversTo s a msgReq p) (ds : List Data) (hds : arriving s a = packets ds)
    (hbox : s'.replyDatas = ds.foldl keepReply s.replyDatas) : s'.Ok ∧ Matched s a s' := by
  obtain ⟨hok, hoffered, htaken, hwaits⟩ := Mailbox.Box.foldl_offer hs (packets ds)
  rw [← foldl_keepReply, ← hbox] at hok hoffered htaken hwaits
  refine ⟨hok, fun n p h => absurd h (ha n p), fun _ => htaken, ?_, fun n p => ?_⟩
  · rw [hds]
    exact hoffered
  · rw [hds, and_iff_left (ha n p)]
    exact hwaits n p

/-- A step that looks up a number and finds nothing. -/
theorem matched_missing {s s' : ReplyConn} {a : ReplyAct} {msgReq : Bytes} (hs : s.Ok)
    (ha : asked s a = some msgReq) (hnone : arriving s a = []) (hg : getResPackageData s msgReq = none)
    (hbox : s'.replyDatas = s.replyDatas) : s'.Ok ∧ Matched s a s' := by
  refine matched_offered hs ?_ [] hnone hbox
  rintro n p ⟨hn, s₁, hp⟩
  rw [ha] at hn
  cases hn
  rw [hg] at hp
  cases hp

/-- Every step from slots in order leaves them in order and delivers as it should. -/
theorem matched_step {s s' : ReplyConn} {a : ReplyAct} (hs : s.Ok) (h : replyStep s a = some s') :
    s'.Ok ∧ Matched s a s' := by
  cases a with
  | getRes msgReq =>
    change some _ = some s' at h
    cases hg : getResPackageData s msgReq with
    | none =>
      rw [hg] at h
      cases h
      exact matched_missing hs rfl rfl hg rfl
    | some r =>
      obtain ⟨p, s₁⟩ := r
      rw [hg] at h
      cases h
      obtain ⟨box, hp, rfl⟩ := getResPackageData_eq_some.1 hg
      exact matched_found hs rfl rfl hp rfl
  | enter msgNo =>
    change (if s.call = none then _ else none) = _ at h
    split at h
    · cases h
      exact matched_offered hs (fun n p hd => by cases hd.1) [] rfl rfl
    · cases h
  | look =>
    change lookStep s = some s' at h
    unfold lookStep at h
    split at h
    · rename_i msgNo hcall
      have hasked : asked s .look = some msgNo := by
        unfold asked
        rw [hcall]
        rfl
      split at h
      · rename_i p s₁ hg
        cases h
        obtain ⟨box, hp, rfl⟩ := getResPackageData_eq_some.1 hg
        exact matched_found hs hasked rfl hp rfl
      · rename_i hg
        cases h
        exact matched_missing hs hasked rfl hg rfl
    · cases h
  | input buf overTime closed =>
    change inputStep s buf overTime closed = some s' at h
    unfold inputStep at h
    split at h
    · cases h
      exact matched_offered hs (fun n p hd => by cases hd.1) [] rfl rfl
    · cases h
  | execute =>
    have hasks : ∀ n p, ¬ DeliversTo s .execute n p := fun n p hd => by cases hd.1
    change executeStep s = some s' at h
    unfold executeStep at h
    split at h
    · rename_i msgNo hcall
      split at h
      · rename_i r hr
        cases h
        refine matched_offered hs hasks r.handed ?_ rfl
        unfold arriving
        rw [hcall, hr]
      · rename_i r hr
        cases h
        refine matched_offered hs hasks [] ?_ rfl
        unfold arriving
        rw [hcall, hr]
        rfl
      · cases h
    · cases h

/-- In every state a client connection reaches, no packet has been delivered twice, a look-up of any
number returns the packet that waits under it, and whatever step comes next delivers the earliest packet
waiting under the number asked for, leaves the others and stores those it decodes. -/
theorem replies_matched {p : Protocal} {buf : TcpBuffer} {s : ReplyConn}
    (hr : Lts.Reachable replyStep { protocal := p, buf := buf } s) :
    s.replyDatas.taken.Nodup ∧
      (∀ msgReq q, (∃ s', getResPackageData s msgReq = some (q, s')) ↔ s.Waiting msgReq q) ∧
      ∀ a s', replyStep s a = some s' → Matched s a s' := by
  have hs : s.Ok := hr.invariant Mailbox.Box.ok_empty fun s₁ a s₂ h₁ h₂ => (matched_step h₁ h₂).1
  exact ⟨hs.once, getResPackageData_iff hs, fun a s' h => (matched_step hs h).2⟩

/-- A reply with this number. -/
def smallReply (msgReq : Bytes) : FlconcPb.FlconcPbStruct := { serviceFullName := Text.ascii "S", msgReq := msgReq }

/-- One read brings the replies with the numbers 2 and 1. -/
def twoReplies : TcpBuffer :=
  let bytes := FlconcPb.packet (smallReply (Text.ascii "2")) ++ FlconcPb.packet (smallReply (Text.ascii "1"))
  ⟨bytes, 0, bytes.length⟩

/-- The call for the number 1, up to where it has its reply. -/
def smallCall : List ReplyAct :=
  [.enter (Text.ascii "1"), .look, .input twoReplies false false, .execute, .execute, .execute, .look]

/-- The call has got the second packet, and the first one is there for the next call. -/
theorem replies_matched_small : ∃ s,
    Lts.run replyStep { protocal := .flconcPb, buf := .ofSize 128 } smallCall = some s ∧
    s.call = none ∧ s.replyDatas.taken = [1] ∧ (∃ s', getResPackageData s (Text.ascii "2") = some (0, s')) ∧
    s.replyDatas.taken.Nodup ∧
    (∀ msgReq q, (∃ s', getResPackageData s msgReq = some (q, s')) ↔ s.Waiting msgReq q) ∧
    ∀ a s', replyStep s a = some s' → Matched s a s' := by
  obtain ⟨s, hs, hcall, htaken, hnext⟩ : ∃ s,
      Lts.run replyStep { protocal := .flconcPb, buf := .ofSize 128 } smallCall = some s ∧ s.call = none ∧
        s.replyDatas.taken = [1] ∧ ∃ s', getResPackageData s (Text.ascii "2") = some (0, s') :=
    ⟨_, rfl, rfl, rfl, _, rfl⟩
  exact ⟨s, hs, hcall, htaken, hnext, replies_matched ⟨smallCall, hs⟩⟩

end Flconc
