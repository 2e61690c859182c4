/-
A server connection that speaks FlconcPb: the loop of net/tcp/tcp_connection.cc over `FlconcPbCodeC` and
`FlconcPbRpcDispacther`. The packets a client sends are answered in order, each one with the packet of its
outcome as the dispatcher puts it in, however they are cut and whatever the services do, while the bytes of a
packet that is not whole are quiet. A packet without a second start byte is quiet at every cut that leaves
its length field whole.
-/
import Flconc.Net.Serve
import Flconc.FlconcPb.Reply
import Flconc.FlconcPb.Stream

namespace Flconc.FlconcPb

open Wire Text Framing

/-! ## The codec and the dispatcher -/

/-- What a dispatch meets: the services as they are then, and the message numbers newly made. -/
structure Serviced where
  services : ServiceMap
  genMsgNumber : Bytes
  genMsgNumber' : Bytes

/-- `FlconcPbRpcDispacther::dispatch` behind its `dynamic_cast`. -/
def dispatchData (x : Serviced) (data : Data) (out : TcpBuffer) : Except Fault TcpBuffer :=
  match data with
  | .flconcPb tmp => dispatch x.services x.genMsgNumber x.genMsgNumber' tmp out
  | .http _ => .ok out

/-- The reply to a packet: its number and name, and what becomes of it. -/
def Serviced.reply (x : Serviced) (p : Packet) : FlconcPbStruct :=
  replyFor p.1.msgReq p.1 (outcome x.services p.1.msgReq p.1)

/-- `decode` takes a whole packet off, and leaves quiet bytes. -/
theorem speaks_flconcPb :
    Speaks .flconcPb (fun p : Packet => packet p.1) HandedAs fun _ buf => Quiet buf where
  nonempty _ := List.cons_ne_nil _ _
  front p buf rest hu hq := by
    obtain ⟨buf', r, hdec, hread, hh, hsize, -⟩ := decode_packet hu.wf p.2 hq {}
    refine ⟨buf', .flconcPb r, ?_, ⟨r, rfl, hread⟩, hread.decodeSucc, ⟨hh.wf, ?_, ?_⟩, hh.queue⟩
    · unfold decodeNew
      rw [hdec]
      rfl
    · exact decode_compact hu.compact hdec
    · rw [hsize]
      exact hu.nonempty
  part _ buf _ hu _ _ hquiet := by
    obtain ⟨d, hdec, hfail⟩ := (decode_quiet_iff hu.wf hu.compact).2 hquiet
    refine ⟨.flconcPb d, ?_, hfail⟩
    unfold decodeNew
    rw [hdec]
    rfl

/-- A packet's message number is not empty, so no new one gets into its reply. -/
theorem sentReply_eq {p : Packet} {r : FlconcPbStruct} (hr : Reads p.1 r) (x : Serviced) :
    sentReply x.services x.genMsgNumber x.genMsgNumber' r = x.reply p := by
  have hm : r.msgReq ≠ [] := by
    rw [hr.msgReq]
    exact p.2.msgReq_ne
  have hout : outcome x.services p.1.msgReq r = outcome x.services p.1.msgReq p.1 := by
    unfold outcome
    rw [hr.serviceFullName, hr.pbData]
  unfold sentReply replyMsgReq
  rw [if_neg hm, hr.msgReq, hout]
  unfold numbered replyFor
  rw [if_neg p.2.msgReq_ne, hr.serviceFullName]
  rfl

theorem answers_flconcPb : Answers dispatchData HandedAs fun x (p : Packet) => packet (x.reply p) := by
  rintro p x _ out ⟨r, rfl, hr⟩ hout hroom
  have hname : r.serviceFullName ≠ [] := by
    rw [hr.serviceFullName]
    exact p.2.service_ne
  show ∃ out', dispatch _ _ _ r out = .ok out' ∧ out'.Holds (out.readable ++ packet (x.reply p))
  rw [← sentReply_eq hr]
  refine (dispatch_holds hout (List.cons_ne_nil _ _)).2 ⟨hname, ?_, rfl⟩
  rw [sentReply_eq hr, ← length_packet]
  exact hroom

/-! ## Runs of the loop -/

/-- `Serves`, for packets. -/
abbrev ServesPackets (ps : List Packet) (s : Serving Serviced) : Prop :=
  Serves (fun p : Packet => packet p.1) HandedAs (fun x p => packet (x.reply p)) ps s

abbrev KeepsPackets (ps : List Packet) (s : Serving Serviced) (a : ServeAct Serviced) : Prop :=
  Keeps (fun p : Packet => packet p.1) (fun _ buf => Quiet buf) (fun x p => packet (x.reply p)) ps s a

/-! ## Cuts that are quiet -/

/-- A packet whose only start byte is the first. -/
structure OneStart (p : Packet) : Prop where
  start : PB_START ∉ (packet p.1).tail
  length : packetLength p.1 ≤ 2 ^ 30

/-- The cut leaves a part of the length field. -/
def CutsLength (n : Nat) : Prop := 2 ≤ n ∧ n ≤ 4

instance (n : Nat) : Decidable (CutsLength n) := inferInstanceAs (Decidable (_ ∧ _))

section

variable {b : TcpBuffer} {bs : Bytes} {k : Nat}

/-- What is readable is read as where it comes from. -/
theorem byteAt_unread (hb : b.WF) (hpre : b.readable <+: bs) (hk : k < b.readable.length) :
    byteAt b.buffer (b.readIndex + k) = byteAt bs k := by
  obtain ⟨p, q, hbuf, hr, -⟩ := hb.split
  obtain ⟨rest, rfl⟩ := hpre
  have hfront := byteAt_inside (p := []) (q := b.readable) (s := rest) (i := k) (by omega) (by omega)
  rw [List.nil_append, List.length_nil, Int.natCast_zero, Int.zero_add] at hfront
  rw [hfront, hbuf, hr]
  exact byteAt_inside (by omega) (by omega)

theorem int32At_unread (hb : b.WF) (hpre : b.readable <+: bs) (hk : k + 4 ≤ b.readable.length) :
    int32At b.buffer (b.readIndex + k) = int32At bs k := by
  obtain ⟨p, q, hbuf, hr, -⟩ := hb.split
  obtain ⟨rest, rfl⟩ := hpre
  have hfront := int32At_inside (p := []) (q := b.readable) (s := rest) (i := k) (by omega) (by omega)
  rw [List.nil_append, List.length_nil, Int.natCast_zero, Int.zero_add] at hfront
  rw [hfront, hbuf, hr]
  exact int32At_inside (by omega) (by omega)

end

theorem int32At_packet {d : FlconcPbStruct} (h : packetLength d < 2 ^ 31) :
    int32At (packet d) 1 = .ok (packetLength d) := by
  have hhas : Has (packet d) 0 (packet d) := ⟨[], [], by simp, rfl⟩
  unfold packet at hhas
  rw [has_cons, has_be32] at hhas
  exact hhas.2.1.int32At ⟨by omega, by omega⟩

/-- A packet with one start byte is quiet until it is whole, unless its length field is cut. -/
theorem quiet_of_oneStart {p : Packet} (hp : OneStart p) {b : TcpBuffer} (hu : Usable b)
    (hpre : b.readable <+: packet p.1) (hpart : ¬ packet p.1 <+: b.readable)
    (hcut : ¬ CutsLength b.readable.length) : Quiet b := by
  have hwf := hu.wf
  have hlen := TcpBuffer.length_readable hwf
  have hpk := length_packet p.1
  have hlt : b.readable.length < packetLength p.1 := by
    by_contra hge
    exact hpart (hpre.eq_of_length_le (by omega) ▸ List.prefix_refl _)
  have hbound := hp.length
  unfold TcpBuffer.readAble at hlen
  refine .inl fun i hi1 hi2 => ?_
  obtain ⟨k, rfl⟩ : ∃ k : Nat, i = b.readIndex + k := ⟨(i - b.readIndex).toNat, by omega⟩
  have hk : k < b.readable.length := by omega
  obtain ⟨c, hc⟩ := byteAt_isOk (t := packet p.1) (i := k) (by omega) (by omega)
  refine ⟨c, (byteAt_unread hwf hpre hk).trans hc, fun hstart hnext => ?_⟩
  cases k with
  | succ k =>
    -- there is no start byte here
    have hget := (byteAt_eq_ok.1 hc).2
    rw [hstart, Int.toNat_natCast, ← List.getElem?_tail] at hget
    exact absurd (List.mem_of_getElem? hget) hp.start
  | zero =>
    -- the length is there, and leads behind what is readable
    have hfield : 1 + 4 ≤ b.readable.length := by
      unfold CutsLength at hcut
      omega
    refine ⟨packetLength p.1, ?_, .inl ?_⟩
    · have hfield' := int32At_unread hwf hpre hfield
      rw [show ((1 : Nat) : Int) = 1 from rfl, int32At_packet (by omega)] at hfield'
      rw [Int.natCast_zero, Int.add_zero]
      exact hfield'
    · have hc := hu.compact
      have h0 := hwf.read
      have hsize := hwf.size
      unfold TcpBuffer.Compact at hc
      rw [wrap32_of_inInt32 ⟨by omega, by omega⟩]
      omega

abbrev KeepsLengths (ps : List Packet) (s : Serving Serviced) (a : ServeAct Serviced) : Prop :=
  KeepsCuts (fun p : Packet => packet p.1) (fun x p => packet (x.reply p)) (fun _ t => CutsLength t.length) ps s a

/-! ## Two requests -/

/-- A request for the method `m` of the service `S`. -/
def smallCallPacket : Packet := ⟨smallRequest, by constructor <;> decide⟩

/-- And the next one. -/
def nextCallPacket : Packet := ⟨{ smallRequest with msgReq := ascii "2" }, by constructor <;> decide⟩

/-- The service is registered. -/
def echoServices : Serviced := ⟨registerAll [echoService (ascii "S") [ascii "m"]], [], []⟩

/-- No service is registered. -/
def noServices : Serviced := ⟨fun _ => none, [], []⟩

/-- Ten bytes arrive, and what `execute` makes of them is nothing. The rest comes in two reads, of which the
first fills the buffer; then both requests are dispatched, and their replies written in two pieces. -/
def smallServe : List (ServeAct Serviced) :=
  let bytes := packet smallCallPacket.1 ++ packet nextCallPacket.1
  [.read (bytes.take 10), .round echoServices, .write 0, .read ((bytes.drop 10).take 22), .read (bytes.drop 32),
    .round echoServices, .round noServices, .round noServices, .write 20, .write 66]

/-! ## Replies in order -/

/-- Whatever the services do, and however the packets are cut: while the bytes of a packet that is not whole
are quiet, the packets are dispatched and answered in order. -/
theorem servesPackets_of_quiet (ps : List Packet) {size : Nat} (h0 : 0 < size) (hsize : size < 2 ^ 31)
    {acts : List (ServeAct Serviced)}
    (hk : Lts.Along (serveStep .flconcPb dispatchData) (KeepsPackets ps) (.new Serviced size) acts) :
    Lts.Always (serveStep .flconcPb dispatchData) (ServesPackets ps) (.new Serviced size) acts :=
  serves_of_keeps speaks_flconcPb answers_flconcPb ps h0 hsize hk

/-- The loop is back at `input`, and has answered both. -/
theorem servesPackets_small :
    Lts.Always (serveStep .flconcPb dispatchData) (ServesPackets [smallCallPacket, nextCallPacket]) (.new Serviced 32)
      smallServe ∧
    (Lts.run (serveStep .flconcPb dispatchData) (.new Serviced 32) smallServe).map
      (fun s => (s.phase, s.handed.length, s.sent.length)) = some (.input, 2, 86) :=
  ⟨servesPackets_of_quiet _ (by decide) (by decide) (by decide +kernel), by decide +kernel⟩

/-- Packets with one start byte are answered in order however they are cut, unless in a length field. -/
theorem servesPackets_of_oneStart (ps : List Packet) (hps : ∀ p ∈ ps, OneStart p) {size : Nat} (h0 : 0 < size)
    (hsize : size < 2 ^ 31) {acts : List (ServeAct Serviced)}
    (hk : Lts.Along (serveStep .flconcPb dispatchData) (KeepsLengths ps) (.new Serviced size) acts) :
    Lts.Always (serveStep .flconcPb dispatchData) (ServesPackets ps) (.new Serviced size) acts :=
  serves_of_keepsCuts speaks_flconcPb answers_flconcPb
    (fun p hp _ hu hpre hpart hcut => quiet_of_oneStart (hps p hp) hu hpre hpart hcut) h0 hsize hk

theorem servesPackets_cut :
    Lts.Always (serveStep .flconcPb dispatchData) (ServesPackets [smallCallPacket, nextCallPacket]) (.new Serviced 32)
      smallServe ∧
    (Lts.run (serveStep .flconcPb dispatchData) (.new Serviced 32) smallServe).map
      (fun s => (s.phase, s.handed.length, s.sent.length)) = some (.input, 2, 86) := by
  refine ⟨servesPackets_of_oneStart _ ?_ (by decide) (by decide) (by decide +kernel), by decide +kernel⟩
  refine List.forall_mem_cons.2 ⟨⟨?_, ?_⟩, List.forall_mem_singleton.2 ⟨?_, ?_⟩⟩ <;> decide

end Flconc.FlconcPb
