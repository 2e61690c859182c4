/-
Both ends of a FlconcPb connection, from `connect` on: the calls of a client, one after the other, through
`encode` and `sendAndRecvFlconcPb` of net/tcp/tcp_client.cc, the server loop of net/tcp/tcp_connection.cc, and
the bytes under way between them. The ends and the network take their steps in any order.

A call that returns has got the reply to its own request, whatever the message numbers are; and while a call
waits for bytes, some are under way or the server is at work, unless the last bytes have filled the room of
an end exactly: that end goes on reading, and what it has waits.
-/
import Flconc.FlconcPb.Serve
import Flconc.Net.Replies

namespace Flconc.FlconcPb

open Wire Text Framing

/-! ## The system -/

/-- The client's write buffer, the number of the call that is in `output`, and the rest of the client's
connection; the server's connection; the bytes under way to the server and to the client. What the client has
read, the requests of its calls and what these have returned are history. -/
structure Exchange where
  out : TcpBuffer
  sending : Option Bytes := none
  client : ReplyConn
  /-- The client's `input` is behind a read that has filled its room. -/
  filled : Bool := false
  server : Serving Serviced
  up : Bytes := []
  down : Bytes := []
  received : Bytes := []
  calls : List Packet := []
  results : List FlconcPbStruct := []
  faulted : Bool := false

inductive ExchangeAct
  /-- A call encodes its request and gets to `output`. -/
  | call (p : Packet)
  /-- A round of the client's `output`. -/
  | write (rt : Int)
  /-- `getResPackageData`. -/
  | look
  /-- A read of the client's `input` brings the next bytes. -/
  | read (n : Nat)
  /-- A round of the client's `execute`. -/
  | decode
  /-- A read of the server's `input` brings the next bytes. -/
  | arrive (n : Nat)
  /-- A round of the server's `execute`. -/
  | round (x : Serviced)
  /-- A round of the server's `output`. -/
  | reply (rt : Int)

namespace Exchange

def new (size : Nat) : Exchange where
  out := .ofSize size
  client := { protocal := .flconcPb, buf := .ofSize size }
  server := .new Serviced size

/-- A packet has a message number, so `encode` makes no new one. -/
def call (s : Exchange) (p : Packet) : Option Exchange :=
  if s.sending = none ∧ s.client.call = none then
    match encode [] s.out p.1 with
    | .ok (out, _) => some { s with out := out, sending := some p.1.msgReq, calls := s.calls ++ [p] }
    | .error _ => some { s with faulted := true }
  else none

/-- Behind `output`, before `getResPackageData`. -/
def wait (s : Exchange) (msgNo : Bytes) : Exchange :=
  { s with sending := none, client := { s.client with call := some (msgNo, .look) } }

def write (s : Exchange) (rt : Int) : Option Exchange :=
  match s.sending with
  | none => none
  | some msgNo => (outputRound { buf := s.out, phase := .head } .Connected rt false).map fun o =>
    let s := { s with out := o.buf, up := s.up ++ o.sent }
    match o.phase with
    | .returned => s.wait msgNo
    | .faulted => { s with faulted := true }
    | .entered | .head => s

def look (s : Exchange) : Option Exchange :=
  match s.client.call with
  | some (msgNo, .look) =>
    let found := (getResPackageData s.client msgNo).bind fun r => s.client.decoded[r.1]?
    (lookStep s.client).map fun client => { s with client := client, results := s.results ++ found.toList }
  | _ => none

def read (s : Exchange) (n : Nat) : Option Exchange :=
  match s.client.call with
  | some (_, .read) =>
    if n ≤ s.down.length then
      match inputRead s.client.buf (s.down.take n) with
      | .ok none => none
      | .ok (some (buf, filled)) =>
        (if filled then some { s.client with buf := buf } else inputStep s.client buf false false).map fun client =>
          { s with
            client := client
            filled := filled
            down := s.down.drop n
            received := s.received ++ s.down.take n }
      | .error _ => some { s with faulted := true }
    else none
  | _ => none

def decode (s : Exchange) : Option Exchange :=
  match s.client.call with
  | some (_, .exec) =>
    match executeStep s.client with
    | some client => some { s with client := client }
    | none => some { s with faulted := true }
  | _ => none

def arrive (s : Exchange) (n : Nat) : Option Exchange :=
  if n ≤ s.up.length then
    (serveStep .flconcPb dispatchData s.server (.read (s.up.take n))).map fun server =>
      { s with server := server, up := s.up.drop n }
  else none

def round (s : Exchange) (x : Serviced) : Option Exchange :=
  (serveStep .flconcPb dispatchData s.server (.round x)).map fun server => { s with server := server }

def reply (s : Exchange) (rt : Int) : Option Exchange :=
  (serveStep .flconcPb dispatchData s.server (.write rt)).map fun server =>
    { s with server := server, down := s.down ++ server.sent.drop s.server.sent.length }

end Exchange

def exchangeStep (s : Exchange) : ExchangeAct → Option Exchange
  | .call p => s.call p
  | .write rt => s.write rt
  | .look => s.look
  | .read n => s.read n
  | .decode => s.decode
  | .arrive n => s.arrive n
  | .round x => s.round x
  | .reply rt => s.reply rt

namespace Exchange

/-- The replies to the requests that were dispatched, in order. -/
def replies (s : Exchange) : List FlconcPbStruct := List.zipWith (fun p h => h.1.reply p) s.calls s.server.handed

/-! ## What is promised -/

/-- Nothing went wrong; the requests were dispatched in order and once; and every call that has returned got
the reply to its own request. -/
structure OwnReplies (s : Exchange) : Prop where
  sound : s.faulted = false ∧ s.server.phase ≠ .faulted
  dispatched : List.Forall₂ (fun p h => HandedAs p h.2) (s.calls.take s.server.handed.length) s.server.handed
  own : List.Forall₂ Reads (s.replies.take s.results.length) s.results
  returned : s.sending = none → s.client.call = none → s.results.length = s.calls.length

/-- A call waits for bytes, none are under way, and an end goes on reading, since the last ones have filled its
room exactly. -/
structure Stuck (s : Exchange) : Prop where
  waits : ∃ msgNo, s.client.call = some (msgNo, .read)
  down : s.down = []
  up : s.up = []
  reads : s.filled = true ∨ s.server.phase = .reading

/-- A call that waits for bytes does not wait for nothing, unless an end is stuck. -/
def Moves (s : Exchange) : Prop :=
  ∀ msgNo, s.client.call = some (msgNo, .read) →
    s.down ≠ [] ∨ s.up ≠ [] ∨ s.server.phase = .execute ∨ s.server.phase = .output ∨ s.Stuck

/-- Neither end closes the connection, no write fails and no buffer has to outgrow an `int`; the bytes of a packet
that is not whole are quiet at either end; and a reply has texts that fit the client's arrays. -/
def Keeps (s : Exchange) : ExchangeAct → Prop
  | .call p => s.out.Room (packet p.1).length
  | .write rt => rt ≠ -1
  | .look => True
  | .read _ => HasRoom s.client.buf 1
  | .decode => ∀ r, s.replies[s.client.decoded.length]? = some r → ¬ packet r <+: s.client.buf.readable →
    s.client.buf.readable ≠ [] → Quiet s.client.buf
  | .arrive _ => HasRoom s.server.buf 1
  | .round x => KeepsPackets s.calls s.server (.round x) ∧
    ∀ p, s.calls[s.server.handed.length]? = some p → Fits (x.reply p)
  | .reply rt => rt ≠ -1

instance (s : Exchange) : (a : ExchangeAct) → Decidable (s.Keeps a)
  | .call _ => inferInstanceAs (Decidable (TcpBuffer.Room _ _))
  | .write _ => inferInstanceAs (Decidable (_ ≠ _))
  | .look => .isTrue trivial
  | .read _ => inferInstanceAs (Decidable (HasRoom _ _))
  | .decode =>
    inferInstanceAs (Decidable (∀ r ∈ s.replies[s.client.decoded.length]?, ¬ packet r <+: s.client.buf.readable →
      s.client.buf.readable ≠ [] → Quiet s.client.buf))
  | .arrive _ => inferInstanceAs (Decidable (HasRoom _ _))
  | .round x =>
    inferInstanceAs (Decidable (_ ∧ ∀ p ∈ s.calls[s.server.handed.length]?, Fits (x.reply p)))
  | .reply _ => inferInstanceAs (Decidable (_ ≠ _))

/-! ## The invariant -/

/-- The last call has not returned, and waits for this number. -/
def Pending (s : Exchange) (msgNo : Bytes) : Prop :=
  ∃ p, s.calls[s.results.length]? = some p ∧ s.calls.length = s.results.length + 1 ∧ p.1.msgReq = msgNo

/-- Where the client is with its calls. -/
def Turn (s : Exchange) : Prop :=
  match s.sending, s.client.call with
  | none, none => s.results.length = s.calls.length ∧ s.out.readable = []
  | some msgNo, none => s.Pending msgNo
  | none, some (msgNo, phase) => s.Pending msgNo ∧ s.out.readable = [] ∧
    (phase = .read → s.client.decoded.length = s.results.length)
  | some _, some _ => False

theorem turn_idle {s : Exchange} (hs : s.sending = none) (hc : s.client.call = none) :
    s.Turn ↔ s.results.length = s.calls.length ∧ s.out.readable = [] := by
  unfold Turn
  rw [hs, hc]

theorem turn_sending {s : Exchange} {msgNo : Bytes} (hs : s.sending = some msgNo) :
    s.Turn ↔ s.client.call = none ∧ s.Pending msgNo := by
  unfold Turn
  rw [hs]
  cases s.client.call <;> simp

theorem turn_calling {s : Exchange} {msgNo : Bytes} {phase : ReceivePhase} (hc : s.client.call = some (msgNo, phase)) :
    s.Turn ↔ s.sending = none ∧ s.Pending msgNo ∧ s.out.readable = [] ∧
      (phase = .read → s.client.decoded.length = s.results.length) := by
  unfold Turn
  rw [hc]
  cases s.sending <;> simp

/-- What the client has read of the replies, and what it has made of it: the slots hold the one reply that no
call has got, if there is one. -/
structure Inbox (replies : List FlconcPbStruct) (received : Bytes) (client : ReplyConn) (filled : Bool)
    (results : List FlconcPbStruct) : Prop where
  protocal : client.protocal = .flconcPb
  usable : Usable client.buf
  split : Split packet replies received client.decoded.length client.buf.readable
  decoded : List.Forall₂ Reads (replies.take client.decoded.length) client.decoded
  slots : client.replyDatas.Only (·.msgReq) results.length
  results : results <+: client.decoded
  reading : filled = true → ∃ msgNo, client.call = some (msgNo, .read)
  short : filled = false → (∀ msgNo, client.call ≠ some (msgNo, .exec)) →
    Short packet replies client.decoded.length client.buf.readable

/-- The invariant of both ends: what the calls have encoded is what has arrived, what is under way and what is
still in the write buffer, and the same the other way. -/
structure Inv (s : Exchange) : Prop where
  sound : s.faulted = false
  server : s.server.Inv (fun p : Packet => packet p.1) HandedAs (fun x p => packet (x.reply p)) s.calls
  opened : s.server.Open
  fits : ∀ r ∈ s.replies, Fits r
  out : s.out.WF
  upward : s.server.arrived ++ (s.up ++ s.out.readable) = stream s.calls
  downward : s.received ++ s.down = s.server.sent
  inbox : Inbox s.replies s.received s.client s.filled s.results
  turn : s.Turn

theorem replies_stream (s : Exchange) :
    Flconc.replies (fun x p => packet (Serviced.reply x p)) s.calls s.server.handed =
      Framing.stream packet s.replies := by
  unfold Flconc.replies Exchange.replies Framing.stream
  rw [List.flatMap, List.map_zipWith]

theorem packet_ne_nil (d : FlconcPbStruct) : packet d ≠ [] := List.cons_ne_nil _ _

/-! ## The client's end -/

namespace Inbox

variable {replies : List FlconcPbStruct} {received : Bytes} {client : ReplyConn} {filled : Bool}
  {results : List FlconcPbStruct}

theorem not_filled (hi : Inbox replies received client filled results)
    (hc : ∀ msgNo, client.call ≠ some (msgNo, .read)) : filled = false :=
  Bool.eq_false_iff.2 fun h => by
    obtain ⟨msgNo, hread⟩ := hi.reading h
    exact hc msgNo hread

/-- The server makes another reply. -/
theorem extend (hi : Inbox replies received client filled results) (rs : List FlconcPbStruct) :
    Inbox (replies ++ rs) received client filled results where
  protocal := hi.protocal
  usable := hi.usable
  split := hi.split.extend rs
  decoded := by
    rw [List.take_append_of_le_length hi.split.le]
    exact hi.decoded
  slots := hi.slots
  results := hi.results
  reading := hi.reading
  short hf h := (hi.short hf h).extend packet_ne_nil hi.split rs

/-- The client is elsewhere in its call, and not in `input` or before or in `execute`. -/
theorem enter (hi : Inbox replies received client filled results)
    (hread : ∀ msgNo, client.call ≠ some (msgNo, .read)) (hexec : ∀ msgNo, client.call ≠ some (msgNo, .exec))
    (call : Option (Bytes × ReceivePhase)) : Inbox replies received { client with call := call } filled results := by
  obtain rfl := hi.not_filled hread
  exact ⟨hi.protocal, hi.usable, hi.split, hi.decoded, hi.slots, hi.results, nofun, fun h _ => hi.short h hexec⟩

/-- A read brings the next bytes; `input` returns with them unless they have filled its room. -/
theorem read (hi : Inbox replies received client filled results) {bs : Bytes}
    (hbs : received ++ bs <+: Framing.stream packet replies) {msgNo : Bytes} (hc : client.call = some (msgNo, .read))
    {buf : TcpBuffer} (hu : Usable buf) (hq : buf.readable = client.buf.readable ++ bs) :
    Inbox replies (received ++ bs) { client with buf := buf } true results ∧
      inputStep client buf false false = some { client with buf := buf, call := some (msgNo, .exec) } ∧
      Inbox replies (received ++ bs) { client with buf := buf, call := some (msgNo, .exec) } false results := by
  have hsplit : Split packet replies (received ++ bs) client.decoded.length buf.readable := by
    rw [hq]
    exact hi.split.feed hbs
  refine ⟨⟨hi.protocal, hu, hsplit, hi.decoded, hi.slots, hi.results, fun _ => ⟨msgNo, hc⟩, nofun⟩, ?_,
    ⟨hi.protocal, hu, hsplit, hi.decoded, hi.slots, hi.results, nofun, fun _ h => absurd rfl (h msgNo)⟩⟩
  unfold inputStep
  rw [hc]
  rfl

/-- `execute` takes no more. -/
theorem idle (hi : Inbox replies received client false results)
    (hs : Short packet replies client.decoded.length client.buf.readable) (call : Option (Bytes × ReceivePhase)) :
    Inbox replies received { client with call := call } false results :=
  ⟨hi.protocal, hi.usable, hi.split, hi.decoded, hi.slots, hi.results, nofun, fun _ _ => hs⟩

/-- The next reply is taken off and kept. -/
theorem keep (hi : Inbox replies received client false results) (hbound : replies.length ≤ results.length + 1)
    {r d : FlconcPbStruct} (hr : replies[client.decoded.length]? = some r) (hd : Reads r d) {rest : Bytes}
    (hrest : client.buf.readable = packet r ++ rest) {buf : TcpBuffer} (hu : Usable buf) (hq : buf.readable = rest)
    {msgNo : Bytes} (hc : client.call = some (msgNo, .exec)) :
    Inbox replies received { client with buf := buf, replyDatas := client.replyDatas.offer (·.msgReq) d } false
      results := by
  have hlt := (List.getElem?_eq_some_iff.1 hr).1
  have hle := hi.results.length_le
  have hdecoded : ReplyConn.decoded { client with buf := buf, replyDatas := client.replyDatas.offer (·.msgReq) d } =
      client.decoded ++ [d] := Mailbox.Box.offer_offered _ _
  have hlen : (client.decoded ++ [d]).length = client.decoded.length + 1 := by simp
  refine ⟨hi.protocal, hu, ?_, ?_, ?_, ?_, nofun, fun _ h => absurd hc (h msgNo)⟩
  · rw [hdecoded, hlen]
    dsimp only
    rw [hq]
    exact hi.split.next hr hrest
  · rw [hdecoded, hlen, List.take_add_one, hr]
    exact List.rel_append hi.decoded (.cons hd .nil)
  · refine hi.slots.offer ?_ d
    show client.decoded.length = results.length
    omega
  · rw [hdecoded]
    exact hi.results.trans (List.prefix_append _ _)

theorem executeStep_eq {msgNo : Bytes} (hp : client.protocal = .flconcPb) (hc : client.call = some (msgNo, .exec)) :
    executeStep client = match executeRound .flconcPb ⟨client.buf, []⟩ with
      | .inl r => some { client with buf := r.buf, replyDatas := r.handed.foldl keepReply client.replyDatas }
      | .inr (.ok r) => some { client with buf := r.buf, call := some (msgNo, .look) }
      | .inr (.error _) => none := by
  obtain ⟨protocal, buf, replyDatas, call⟩ := client
  obtain rfl : protocal = .flconcPb := hp
  obtain rfl : call = some (msgNo, .exec) := hc
  rfl

/-- A round of `execute` takes off the next reply, if it is there as a whole. -/
theorem decode (hi : Inbox replies received client filled results) (hfits : ∀ r ∈ replies, Fits r)
    (hbound : replies.length ≤ results.length + 1) {msgNo : Bytes} (hc : client.call = some (msgNo, .exec))
    (hquiet : ∀ r, replies[client.decoded.length]? = some r → ¬ packet r <+: client.buf.readable →
      client.buf.readable ≠ [] → Quiet client.buf) :
    ∃ client', executeStep client = some client' ∧ Inbox replies received client' filled results ∧
      (client'.call = some (msgNo, .exec) ∧ client'.decoded.length = client.decoded.length + 1 ∨
        client'.call = some (msgNo, .look) ∧ client'.decoded = client.decoded) := by
  obtain rfl := hi.not_filled fun n h => by
    rw [hc] at h
    cases h
  have hlen := TcpBuffer.length_readable hi.usable.wf
  rw [executeStep_eq hi.protocal hc]
  by_cases hr : client.buf.readAble > 0
  · have hne : client.buf.readable ≠ [] := by
      intro hnil
      rw [hnil, List.length_nil] at hlen
      omega
    obtain ⟨r, hget, -⟩ := hi.split.exists_next hne
    by_cases hwhole : packet r <+: client.buf.readable
    · obtain ⟨rest, hrest⟩ := hwhole
      obtain ⟨buf, d, hdec, hread, hh, hsize, -⟩ :=
        decode_packet hi.usable.wf (hfits r (List.mem_of_getElem? hget)) hrest.symm {}
      have hu : Usable buf := ⟨hh.wf, decode_compact hi.usable.compact hdec, by rw [hsize]; exact hi.usable.nonempty⟩
      rw [executeRound_decode (r := ⟨client.buf, []⟩) hr hdec, if_pos hread.decodeSucc]
      refine ⟨_, rfl, hi.keep hbound hget hread hrest.symm hu hh.queue hc, .inl ⟨hc, ?_⟩⟩
      have hkept : (client.replyDatas.offer (·.msgReq) d).offered = client.decoded ++ [d] :=
        Mailbox.Box.offer_offered _ _
      exact (congrArg List.length hkept).trans List.length_append
    · obtain ⟨d, hdec, hfail⟩ := (decode_quiet_iff hi.usable.wf hi.usable.compact).2 (hquiet r hget hwhole hne)
      rw [executeRound_decode (r := ⟨client.buf, []⟩) hr hdec, if_neg (by rw [hfail]; decide)]
      refine ⟨_, rfl, hi.idle (fun r' hr' => ?_) _, .inr ⟨rfl, rfl⟩⟩
      rw [hget] at hr'
      cases hr'
      exact hwhole
  · have hnil : client.buf.readable = [] := List.eq_nil_of_length_eq_zero (by omega)
    rw [executeRound_idle (r := ⟨client.buf, []⟩) hr]
    refine ⟨_, rfl, hi.idle ?_ _, .inr ⟨rfl, rfl⟩⟩
    rw [hnil]
    exact Short.nil packet_ne_nil

/-- `getResPackageData` finds the reply that is there, and the call returns with it. -/
theorem look (hi : Inbox replies received client filled results) (hbound : replies.length ≤ results.length + 1)
    {msgNo : Bytes} (hc : client.call = some (msgNo, .look))
    (hnum : ∀ r, replies[results.length]? = some r → r.msgReq = msgNo) :
    (∃ p client' d, getResPackageData client msgNo = some (p, client') ∧ client.decoded[p]? = some d ∧
      Inbox replies received { client' with call := none } filled (results ++ [d])) ∨
    getResPackageData client msgNo = none ∧ client.decoded.length = results.length := by
  have hle := hi.results.length_le
  have hne : ∀ n, client.call ≠ some (n, .exec) := by
    rw [hc]
    intro n h
    cases h
  obtain rfl := hi.not_filled fun n h => by
    rw [hc] at h
    cases h
  cases hg : getResPackageData client msgNo with
  | none =>
    refine .inr ⟨rfl, ?_⟩
    by_contra hlen
    -- the reply is there, under another number
    have hlt : results.length < client.decoded.length := by omega
    have hd : client.decoded[results.length]? = some client.decoded[results.length] := List.getElem?_eq_getElem hlt
    have hlt' : results.length < replies.length := Nat.lt_of_lt_of_le hlt hi.split.le
    have hr : replies[results.length]? = some replies[results.length] := List.getElem?_eq_getElem hlt'
    have hread : Reads replies[results.length] client.decoded[results.length] := by
      have := List.Forall₂.get hi.decoded (by rw [List.length_take]; omega) hlt
      simpa using this
    have htake : client.replyDatas.take msgNo = none := Option.map_eq_none_iff.1 hg
    exact hi.slots.take_none htake hd (hread.msgReq.trans (hnum _ hr))
  | some r =>
    obtain ⟨p, client'⟩ := r
    obtain ⟨box, hbox, rfl⟩ := getResPackageData_eq_some.1 hg
    obtain ⟨rfl, ⟨d, hd, -⟩, honly, hoffered⟩ := hi.slots.take
      (show client.decoded.length ≤ results.length + 1 from hi.split.le.trans hbound) hbox
    have hdecoded : ∀ call, ReplyConn.decoded { client with replyDatas := box, call := call } = client.decoded :=
      fun _ => hoffered
    refine .inl ⟨_, _, d, rfl, hd, hi.protocal, hi.usable, ?_, ?_, ?_, ?_, nofun, fun _ _ => ?_⟩
    · rw [hdecoded]
      exact hi.split
    · rw [hdecoded]
      exact hi.decoded
    · rw [List.length_append]
      exact honly
    · rw [hdecoded]
      obtain ⟨rest, hrest⟩ := hi.results
      change client.decoded[results.length]? = some d at hd
      rw [← hrest, List.getElem?_append_right (Nat.le_refl _), Nat.sub_self] at hd
      cases rest with
      | nil => cases hd
      | cons c rest =>
        cases hd
        exact ⟨rest, by rw [← hrest, List.append_assoc]; rfl⟩
    · rw [hdecoded]
      exact hi.short rfl hne

end Inbox

/-! ## Every step -/

theorem length_replies (s : Exchange) : s.replies.length ≤ s.calls.length := by
  unfold replies
  rw [List.length_zipWith]
  omega

/-- A reply has the number of its request. -/
theorem msgReq_of_replies {s : Exchange} {n : Nat} {r : FlconcPbStruct} (h : s.replies[n]? = some r) {p : Packet}
    (hp : s.calls[n]? = some p) : r.msgReq = p.1.msgReq := by
  unfold replies at h
  rw [List.getElem?_zipWith, hp] at h
  cases hh : s.server.handed[n]? with
  | none =>
    rw [hh] at h
    cases h
  | some x =>
    rw [hh] at h
    cases h
    rfl

theorem Pending.bound {s : Exchange} {msgNo : Bytes} (h : s.Pending msgNo) :
    s.replies.length ≤ s.results.length + 1 := by
  obtain ⟨-, -, hlen, -⟩ := h
  have := s.length_replies
  omega

theorem encode_room (genMsgNumber : Bytes) {out : TcpBuffer} (hout : out.WF) (p : Packet)
    (hroom : out.Room (packet p.1).length) :
    ∃ out' d, FlconcPb.encode genMsgNumber out p.1 = .ok (out', d) ∧ out'.Holds (out.readable ++ packet p.1) := by
  obtain ⟨out', hw, hh, -⟩ := TcpBuffer.writeToBuffer_room hout hroom
  have hlt := hroom.lt hout
  have hnum : numbered genMsgNumber p.1 = p.1 := if_neg p.2.msgReq_ne
  have henc := encode_fst genMsgNumber out p.1
  rw [hnum, if_neg p.2.service_ne, if_pos (by rw [← length_packet]; exact hlt), hw] at henc
  cases he : FlconcPb.encode genMsgNumber out p.1 with
  | error e =>
    rw [he] at henc
    cases henc
  | ok r =>
    rw [he] at henc
    cases henc
    exact ⟨r.1, r.2, rfl, hh⟩

namespace Inv

variable {s s' : Exchange}

theorem call (hi : s.Inv) {p : Packet} (hk : s.out.Room (packet p.1).length) (h : s.call p = some s') : s'.Inv := by
  unfold Exchange.call at h
  split at h
  · rename_i hidle
    obtain ⟨out, d, henc, hh⟩ := encode_room [] hi.out p hk
    rw [henc] at h
    cases h
    have hreplies : List.zipWith (fun p h => Serviced.reply h.1 p) (s.calls ++ [p]) s.server.handed = s.replies :=
      zipWith_extend hi.server.split.le [p]
    have hturn := (turn_idle hidle.1 hidle.2).1 hi.turn
    refine ⟨hi.sound, hi.server.extend speaks_flconcPb.nonempty [p], hi.opened, ?_, hh.wf, ?_, hi.downward, ?_, ?_⟩
    · show ∀ r ∈ List.zipWith _ _ _, Fits r
      rw [hreplies]
      exact hi.fits
    · show s.server.arrived ++ (s.up ++ out.readable) = stream (s.calls ++ [p])
      rw [hh.queue, stream_append, ← hi.upward]
      simp [stream]
    · show Inbox (List.zipWith _ _ _) _ _ _ _
      rw [hreplies]
      exact hi.inbox
    · refine (turn_sending rfl).2 ⟨hidle.2, p, ?_, ?_, rfl⟩
      · rw [hturn.1]
        simp
      · rw [hturn.1]
        simp
  · cases h

/-- Behind `output`. -/
theorem wait (hi : s.Inv) {msgNo : Bytes} (hs : s.sending = some msgNo) (hout : s.out.readable = []) :
    (s.wait msgNo).Inv := by
  obtain ⟨hc, hpend⟩ := (turn_sending hs).1 hi.turn
  refine ⟨hi.sound, hi.server, hi.opened, hi.fits, hi.out, hi.upward, hi.downward, hi.inbox.enter ?_ ?_ _,
    (turn_calling rfl).2 ⟨rfl, hpend, hout, nofun⟩⟩
  · rw [hc]
    nofun
  · rw [hc]
    nofun

theorem write (hi : s.Inv) {rt : Int} (hk : rt ≠ -1) (h : s.write rt = some s') : s'.Inv := by
  unfold Exchange.write at h
  split at h
  · cases h
  · rename_i msgNo hs
    obtain ⟨o, ho, h⟩ := Option.map_eq_some_iff.1 h
    obtain ⟨hwf, hpre, hsound, hback⟩ := outputRound_spec (s := { buf := s.out, phase := .head }) hi.out hk ho
    have hup : s.server.arrived ++ (s.up ++ o.sent ++ o.buf.readable) = stream s.calls := by
      rw [List.append_assoc, hpre]
      exact hi.upward
    have hi' : Exchange.Inv { s with out := o.buf, up := s.up ++ o.sent } := by
      refine ⟨hi.sound, hi.server, hi.opened, hi.fits, hwf, hup, hi.downward, hi.inbox, ?_⟩
      rw [turn_sending (by exact hs)]
      exact (turn_sending hs).1 hi.turn
    cases hph : o.phase with
    | faulted => exact absurd hph hsound
    | returned =>
      rw [hph] at h
      cases h
      exact hi'.wait hs (hback hph rfl)
    | entered | head =>
      rw [hph] at h
      cases h
      exact hi'

theorem look (hi : s.Inv) (h : s.look = some s') : s'.Inv := by
  unfold Exchange.look at h
  split at h
  · rename_i msgNo hc
    obtain ⟨hs, hpend, hout, -⟩ := (turn_calling hc).1 hi.turn
    have hnum : ∀ r, s.replies[s.results.length]? = some r → r.msgReq = msgNo := fun r hr => by
      obtain ⟨p, hp, -, hpm⟩ := hpend
      exact (msgReq_of_replies hr hp).trans hpm
    unfold lookStep at h
    rw [hc] at h
    dsimp only at h
    rcases hi.inbox.look hpend.bound hc hnum with ⟨p, client, d, hg, hd, hbox⟩ | ⟨hg, hlen⟩
    · rw [hg] at h
      dsimp only [Option.bind_some, Option.map_some] at h
      rw [hd] at h
      cases h
      obtain ⟨q, -, hcount, -⟩ := hpend
      refine ⟨hi.sound, hi.server, hi.opened, hi.fits, hi.out, hi.upward, hi.downward, hbox,
        (turn_idle ?_ rfl).2 ⟨?_, hout⟩⟩
      · exact hs
      · show (s.results ++ [d]).length = s.calls.length
        rw [List.length_append, hcount]
        rfl
    · rw [hg] at h
      dsimp only [Option.bind_none, Option.map_some] at h
      cases h
      have hresults : s.results ++ (none : Option FlconcPbStruct).toList = s.results := List.append_nil _
      refine ⟨hi.sound, hi.server, hi.opened, hi.fits, hi.out, hi.upward, hi.downward, ?_, (turn_calling rfl).2 ?_⟩
      · rw [hresults]
        refine hi.inbox.enter (fun n hn => ?_) (fun n hn => ?_) _
        · rw [hc] at hn
          cases hn
        · rw [hc] at hn
          cases hn
      · rw [hresults]
        exact ⟨hs, hpend, hout, fun _ => hlen⟩
  · cases h

theorem received_prefix (hi : s.Inv) (n : Nat) :
    s.received ++ s.down.take n <+: Framing.stream packet s.replies := by
  have hsent : s.server.sent <+: Framing.stream packet s.replies := by
    rw [← s.replies_stream]
    exact ⟨_, hi.server.answered⟩
  refine List.IsPrefix.trans ?_ hsent
  rw [← hi.downward]
  exact (List.prefix_append_right_inj _).2 (List.take_prefix _ _)

theorem read (hi : s.Inv) {n : Nat} (hk : HasRoom s.client.buf 1) (h : s.read n = some s') : s'.Inv := by
  unfold Exchange.read at h
  split at h
  · rename_i msgNo hc
    obtain ⟨hs, hpend, hout, hlen⟩ := (turn_calling hc).1 hi.turn
    have hdown : s.received ++ s.down.take n ++ s.down.drop n = s.server.sent := by
      rw [List.append_assoc, List.take_append_drop]
      exact hi.downward
    split at h
    · rcases inputRead_spec hi.inbox.usable hk (s.down.take n) with hnone | ⟨buf, filled, hread, hu, hq⟩
      · rw [hnone] at h
        cases h
      · obtain ⟨hfilled, hstep, hback⟩ := hi.inbox.read (hi.received_prefix n) hc hu hq
        rw [hread] at h
        cases filled with
        | true =>
          cases h
          exact ⟨hi.sound, hi.server, hi.opened, hi.fits, hi.out, hi.upward, hdown, hfilled,
            (turn_calling hc).2 ⟨hs, hpend, hout, hlen⟩⟩
        | false =>
          dsimp only at h
          rw [if_neg (by decide), hstep] at h
          cases h
          exact ⟨hi.sound, hi.server, hi.opened, hi.fits, hi.out, hi.upward, hdown, hback,
            (turn_calling rfl).2 ⟨hs, hpend, hout, nofun⟩⟩
    · cases h
  · cases h

theorem decode (hi : s.Inv) (hk : s.Keeps .decode) (h : s.decode = some s') : s'.Inv := by
  unfold Exchange.decode at h
  split at h
  · rename_i msgNo hc
    obtain ⟨hs, hpend, hout, -⟩ := (turn_calling hc).1 hi.turn
    obtain ⟨client, hstep, hbox, hcall⟩ := hi.inbox.decode hi.fits hpend.bound hc hk
    rw [hstep] at h
    cases h
    refine ⟨hi.sound, hi.server, hi.opened, hi.fits, hi.out, hi.upward, hi.downward, hbox, ?_⟩
    rcases hcall with ⟨hcall, -⟩ | ⟨hcall, -⟩
    · exact (turn_calling (s := { s with client := client }) hcall).2 ⟨hs, hpend, hout, nofun⟩
    · exact (turn_calling (s := { s with client := client }) hcall).2 ⟨hs, hpend, hout, nofun⟩
  · cases h

/-- A step of the server that dispatches nothing. -/
theorem serve (hi : s.Inv) {server : Serving Serviced}
    (hserver : server.Inv (fun p : Packet => packet p.1) HandedAs (fun x p => packet (x.reply p)) s.calls)
    (hopen : server.Open) (hhanded : server.handed = s.server.handed) {up down : Bytes}
    (hup : server.arrived ++ (up ++ s.out.readable) = stream s.calls) (hdown : s.received ++ down = server.sent) :
    Exchange.Inv { s with server := server, up := up, down := down } := by
  have hreplies : Exchange.replies { s with server := server, up := up, down := down } = s.replies := by
    unfold replies
    rw [hhanded]
  refine ⟨hi.sound, hserver, hopen, ?_, hi.out, hup, hdown, ?_, hi.turn⟩
  · rw [hreplies]
    exact hi.fits
  · rw [hreplies]
    exact hi.inbox

theorem arrive (hi : s.Inv) {n : Nat} (hk : HasRoom s.server.buf 1) (h : s.arrive n = some s') : s'.Inv := by
  unfold Exchange.arrive at h
  split at h
  · obtain ⟨server, hstep, h⟩ := Option.map_eq_some_iff.1 h
    subst h
    have hpre : s.server.arrived ++ s.up.take n <+: stream s.calls := by
      rw [← hi.upward]
      exact (List.prefix_append_right_inj _).2 ((List.take_prefix _ _).trans (List.prefix_append _ _))
    have hserver := hi.server.step speaks_flconcPb answers_flconcPb (a := .read (s.up.take n)) ⟨hpre, hk⟩ hstep
    have harrived := serveStep_arrived hstep hserver.sound
    obtain ⟨hhanded, -, hsent, -⟩ := serveRead_frame (serveStep_read hstep).2
    refine hi.serve hserver (serveStep_open hstep hi.opened nofun nofun) hhanded ?_ ?_
    · rw [harrived]
      show s.server.arrived ++ s.up.take n ++ (s.up.drop n ++ s.out.readable) = _
      rw [List.append_assoc, ← List.append_assoc (s.up.take n), List.take_append_drop]
      exact hi.upward
    · rw [hsent]
      exact hi.downward
  · cases h

theorem reply (hi : s.Inv) {rt : Int} (hk : rt ≠ -1) (h : s.reply rt = some s') : s'.Inv := by
  obtain ⟨server, hstep, h⟩ := Option.map_eq_some_iff.1 h
  subst h
  have hserver := hi.server.step speaks_flconcPb answers_flconcPb (a := .write rt) hk hstep
  obtain ⟨hhanded, harrived, -, bs, hbs⟩ := serveWrite_frame (serveStep_write hstep).2
  refine hi.serve hserver (serveStep_open hstep hi.opened nofun nofun) hhanded ?_ ?_
  · rw [harrived]
    exact hi.upward
  · rw [← hbs, List.drop_left, ← List.append_assoc, hi.downward]

theorem round (hi : s.Inv) {x : Serviced} (hk : s.Keeps (.round x)) (h : s.round x = some s') : s'.Inv := by
  obtain ⟨server, hstep, h⟩ := Option.map_eq_some_iff.1 h
  subst h
  have hserver := hi.server.step speaks_flconcPb answers_flconcPb (a := .round x) hk.1 hstep
  have hopen := serveStep_open hstep hi.opened nofun nofun
  have hround := (serveStep_round hstep).2
  obtain ⟨harrived, hsent, -⟩ : server.arrived = s.server.arrived ∧ server.sent = s.server.sent ∧
      server.state = s.server.state := by
    rw [hround]
    exact serveRound_frame x
  rcases serveRound_cases x with
    ⟨data, hhanded⟩ | ⟨hhanded, -⟩
  · -- the next request was dispatched
    have hlen : s.server.handed.length < s.calls.length := by
      have hle := hserver.split.le
      rw [hround, hhanded, List.length_append] at hle
      exact hle
    have hp : s.calls[s.server.handed.length]? = some s.calls[s.server.handed.length] := List.getElem?_eq_getElem hlen
    have hreplies : Exchange.replies { s with server := server } =
        s.replies ++ [x.reply s.calls[s.server.handed.length]] := by
      unfold replies
      rw [hround, hhanded]
      exact zipWith_next hp (x, data)
    refine ⟨hi.sound, hserver, hopen, ?_, hi.out, ?_, ?_, ?_, hi.turn⟩
    · rw [hreplies]
      exact List.forall_mem_append.2 ⟨hi.fits, List.forall_mem_singleton.2 (hk.2 _ hp)⟩
    · rw [harrived]
      exact hi.upward
    · rw [hsent]
      exact hi.downward
    · rw [hreplies]
      exact hi.inbox.extend _
  · refine hi.serve hserver hopen ?_ ?_ ?_
    · rw [hround, hhanded]
    · rw [harrived]
      exact hi.upward
    · rw [hsent]
      exact hi.downward

/-- The step lemma. -/
theorem step (hi : s.Inv) {a : ExchangeAct} (hk : s.Keeps a) (h : exchangeStep s a = some s') : s'.Inv := by
  cases a with
  | call p => exact hi.call hk h
  | write rt => exact hi.write hk h
  | look => exact hi.look h
  | read n => exact hi.read hk h
  | decode => exact hi.decode hk h
  | arrive n => exact hi.arrive hk h
  | round x => exact hi.round hk h
  | reply rt => exact hi.reply hk h

/-! ## What it says -/

theorem new {size : Nat} (h0 : 0 < size) (hsize : size < 2 ^ 31) : (Exchange.new size).Inv := by
  have hu := ofSize_usable h0 hsize
  have hnil : (TcpBuffer.ofSize size).readable = [] := List.eq_nil_of_length_eq_zero <| by
    have := TcpBuffer.length_readable hu.wf
    simpa [TcpBuffer.ofSize, TcpBuffer.readAble] using this
  refine ⟨rfl, Serving.Inv.new speaks_flconcPb.nonempty [] h0 hsize, ⟨rfl, ?_⟩, List.forall_mem_nil _, hu.wf, ?_, rfl,
    ?_, ?_⟩
  · simp [Exchange.new, Serving.new]
  · show [] ++ ([] ++ (TcpBuffer.ofSize size).readable) = stream []
    rw [hnil]
    rfl
  · refine ⟨rfl, hu, ?_, .nil, Mailbox.Box.only_empty, List.prefix_refl _, ?_, fun _ _ => ?_⟩
    · show Split packet [] [] 0 (TcpBuffer.ofSize size).readable
      rw [hnil]
      exact Split.nil []
    · simp [Exchange.new]
    · show Short packet [] 0 (TcpBuffer.ofSize size).readable
      rw [hnil]
      exact Short.nil packet_ne_nil
  · exact (turn_idle rfl rfl).2 ⟨rfl, hnil⟩

theorem ownReplies (hi : s.Inv) : s.OwnReplies where
  sound := ⟨hi.sound, hi.server.sound⟩
  dispatched := hi.server.inOrder
  own := by
    obtain ⟨rest, hrest⟩ := hi.inbox.results
    have hall := List.forall₂_take s.results.length hi.inbox.decoded
    rw [List.take_take, Nat.min_eq_left (by rw [← hrest, List.length_append]; omega)] at hall
    rw [← hrest, List.take_left] at hall
    exact hall
  returned hs hc := ((turn_idle hs hc).1 hi.turn).1

/-- With nothing under way, the server back at `input` and no end reading on, the reply is there. -/
theorem moves (hi : s.Inv) : s.Moves := by
  intro msgNo hc
  by_contra hnot
  obtain ⟨hdown, hup, hexec, hout, hstuck⟩ : s.down = [] ∧ s.up = [] ∧ s.server.phase ≠ .execute ∧
      s.server.phase ≠ .output ∧ ¬ s.Stuck := by
    simpa [not_or] using hnot
  have hreads : ¬ (s.filled = true ∨ s.server.phase = .reading) := fun h => hstuck ⟨⟨msgNo, hc⟩, hdown, hup, h⟩
  obtain ⟨hfilled, hreading⟩ := not_or.1 hreads
  have hphase : s.server.phase = .input := by
    cases hp : s.server.phase with
    | input => rfl
    | reading => exact absurd hp hreading
    | execute => exact absurd hp hexec
    | output => exact absurd hp hout
    | closed => exact absurd hp hi.opened.2
    | faulted => exact absurd hp hi.server.sound
  obtain ⟨-, ⟨p, -, hcount, -⟩, hempty, hread⟩ := (turn_calling hc).1 hi.turn
  have hlen := hread rfl
  -- the server has all requests, and has sent all replies
  have harrived : s.server.arrived = stream s.calls := by
    rw [← hi.upward, hup, hempty]
    simp
  have hhanded : s.server.handed.length = s.calls.length :=
    hi.server.split.all (hi.server.short (.inl hphase)) harrived
  have hsent : s.received = Framing.stream packet s.replies := by
    have hdownward := hi.downward
    rw [hdown, List.append_nil] at hdownward
    rw [hdownward, ← s.replies_stream]
    exact hi.server.serves.answered (.inl hphase) hi.opened.1
  -- and the client has decoded all of them
  have hne : ∀ n, s.client.call ≠ some (n, .exec) := by
    rw [hc]
    intro n h
    cases h
  have hdecoded : s.client.decoded.length = s.replies.length :=
    hi.inbox.split.all (hi.inbox.short (Bool.eq_false_iff.2 hfilled) hne) hsent
  have hreplies : s.replies.length = s.calls.length := by
    unfold replies
    rw [List.length_zipWith]
    omega
  omega

end Inv

/-- In every interleaving of both ends and the network, a call that returns has got the reply to its own request. -/
theorem ownReplies_of_keeps {size : Nat} (h0 : 0 < size) (hsize : size < 2 ^ 31) {acts : List ExchangeAct}
    (hk : Lts.Along exchangeStep Keeps (.new size) acts) : Lts.Always exchangeStep OwnReplies (.new size) acts :=
  (Lts.always_of_along (fun _ _ _ hi hk h => hi.step hk h) (Inv.new h0 hsize) hk).imp fun _ hi => hi.ownReplies

/-- Two calls. Of the first no service is registered, and its reply comes in two pieces; the second is answered by
the service. -/
def smallCalls : List ExchangeAct :=
  [.call smallCallPacket, .write 10, .write 20, .look, .arrive 30, .round noServices, .round noServices, .reply 56,
    .read 40, .decode, .look, .read 16, .decode, .decode, .look,
    .call nextCallPacket, .write 30, .arrive 10, .look, .round echoServices, .reply 0, .arrive 20, .round echoServices,
    .round echoServices, .reply 30, .read 30, .decode, .decode, .look]

theorem keeps_smallCalls : Lts.Along exchangeStep Keeps (.new 128) smallCalls := by
  decide +kernel

/-- Both calls return, with their own numbers. -/
theorem ownReplies_small : Lts.Always exchangeStep OwnReplies (.new 128) smallCalls ∧
    (Lts.run exchangeStep (.new 128) smallCalls).map (fun s => s.results.map fun r => (r.msgReq, r.errCode)) =
      some [(ascii "1", ERROR_SERVICE_NOT_FOUND), (ascii "2", 0)] :=
  ⟨ownReplies_of_keeps (by decide) (by decide) keeps_smallCalls, by decide +kernel⟩

/-- And a call that waits for bytes never waits for nothing, unless an end is stuck. -/
theorem moves_of_keeps {size : Nat} (h0 : 0 < size) (hsize : size < 2 ^ 31) {acts : List ExchangeAct}
    (hk : Lts.Along exchangeStep Keeps (.new size) acts) : Lts.Always exchangeStep Moves (.new size) acts :=
  (Lts.always_of_along (fun _ _ _ hi hk h => hi.step hk h) (Inv.new h0 hsize) hk).imp fun _ hi => hi.moves

theorem moves_small : Lts.Always exchangeStep Moves (.new 128) smallCalls ∧
    (Lts.run exchangeStep (.new 128) smallCalls).map (fun s => s.results.length) = some 2 :=
  ⟨moves_of_keeps (by decide) (by decide) keeps_smallCalls, by decide +kernel⟩

-- a request that fills the server's buffer: the server has it and reads on, and the call waits for nothing
example : (Lts.run exchangeStep (.new 30) [.call smallCallPacket, .write 30, .look, .arrive 30]).map
    (fun s => (s.server.phase, s.up, s.down)) = some (.reading, [], []) := by decide +kernel

end Exchange

end Flconc.FlconcPb
