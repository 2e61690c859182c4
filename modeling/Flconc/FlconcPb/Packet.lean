/-
One packet through the codec: what `encode` puts into the buffer for a struct whose texts fit the
decoder's arrays, `decode` reads back, consuming exactly the packet and nothing behind it.
-/
import Flconc.FlconcPb.Scan
import Mathlib.Tactic.MkIffOfInductiveProp

namespace Flconc.FlconcPb

open Wire

/-! ## Structs that fit -/

/-- The texts fit the decoder's arrays with their NUL, and the error code is an `int32_t`. -/
@[mk_iff]
structure Fits (d : FlconcPbStruct) : Prop where
  msgReq : 1 ≤ d.msgReq.length ∧ d.msgReq.length ≤ 49
  service : 1 ≤ d.serviceFullName.length ∧ d.serviceFullName.length ≤ 511
  errInfo : d.errInfo.length ≤ 511
  msgReqText : (0 : UInt8) ∉ d.msgReq
  serviceText : (0 : UInt8) ∉ d.serviceFullName
  errInfoText : (0 : UInt8) ∉ d.errInfo
  errCode : InInt32 d.errCode

instance (d : FlconcPbStruct) : Decidable (Fits d) := decidable_of_iff' _ (fits_iff d)

/-- A struct together with the proof that it fits. -/
abbrev Packet := { d : FlconcPbStruct // Fits d }

/-- `r` is what a successful `decode` of the packet of `d` yields. -/
structure Reads (d r : FlconcPbStruct) : Prop where
  pkLen : r.pkLen = packetLength d
  msgReq : r.msgReq = d.msgReq
  serviceFullName : r.serviceFullName = d.serviceFullName
  errCode : r.errCode = d.errCode
  errInfo : r.errInfo = d.errInfo
  pbData : r.pbData = d.pbData
  decodeSucc : r.decodeSucc = true

/-! ## Encoding -/

theorem Fits.service_ne {d : FlconcPbStruct} (h : Fits d) : d.serviceFullName ≠ [] :=
  List.ne_nil_of_length_pos h.service.1

theorem Fits.msgReq_ne {d : FlconcPbStruct} (h : Fits d) : d.msgReq ≠ [] :=
  List.ne_nil_of_length_pos h.msgReq.1

/-- The struct after it was encoded. -/
def encoded (d : FlconcPbStruct) : FlconcPbStruct :=
  { d with
    pkLen := packetLength d
    msgReqLen := d.msgReq.length
    serviceNameLen := d.serviceFullName.length
    errInfoLen := d.errInfo.length
    checkNum := 1
    encodeSucc := true }

theorem encodePbData_eq (gen : Bytes) {d : FlconcPbStruct} (hs : d.serviceFullName ≠ [])
    (hm : d.msgReq ≠ []) (hlen : packetLength d < 2 ^ 31) :
    encodePbData gen d = .ok (some (packet d), encoded d) := by
  unfold encodePbData
  rw [if_neg hs, if_neg hm, if_pos hlen]
  rfl

/-- `encode` appends the packet to the queue. -/
theorem encode_spec (gen : Bytes) {b : TcpBuffer} (hb : b.WF) {d : FlconcPbStruct}
    (hs : d.serviceFullName ≠ []) (hm : d.msgReq ≠ [])
    (hsize : b.writeIndex + packetLength d < 2 ^ 30) :
    ∃ b', encode gen b d = .ok (b', encoded d) ∧ b'.Holds (b.readable ++ packet d) ∧
      b'.writeIndex ≤ b.writeIndex + packetLength d := by
  have h0 := hb.read
  have h1 := hb.order
  have hl := length_packet d
  have hfit : b.writeIndex + (packet d).length < 2 ^ 30 := by omega
  obtain ⟨b', hb', hh, hi⟩ := TcpBuffer.writeToBuffer_spec hb hfit
  refine ⟨b', ?_, hh, by omega⟩
  unfold encode
  rw [encodePbData_eq gen hs hm (by omega)]
  show (b.writeToBuffer (packet d)).bind _ = _
  rw [hb']
  rfl

/-- The struct `encode` makes a packet of: an empty message number is replaced. -/
def numbered (genMsgNumber : Bytes) (d : FlconcPbStruct) : FlconcPbStruct :=
  if d.msgReq = [] then { d with msgReq := genMsgNumber, msgReqLen := genMsgNumber.length } else d

theorem numbered_msgReq (gen : Bytes) (d : FlconcPbStruct) :
    (numbered gen d).msgReq = if d.msgReq = [] then gen else d.msgReq := by
  unfold numbered
  split <;> rfl

@[simp] theorem numbered_serviceFullName (gen : Bytes) (d : FlconcPbStruct) :
    (numbered gen d).serviceFullName = d.serviceFullName := by
  unfold numbered
  split <;> rfl

@[simp] theorem numbered_errCode (gen : Bytes) (d : FlconcPbStruct) :
    (numbered gen d).errCode = d.errCode := by
  unfold numbered
  split <;> rfl

@[simp] theorem numbered_errInfo (gen : Bytes) (d : FlconcPbStruct) :
    (numbered gen d).errInfo = d.errInfo := by
  unfold numbered
  split <;> rfl

/-- What `encode` leaves in the buffer. -/
theorem encode_fst (gen : Bytes) (b : TcpBuffer) (d : FlconcPbStruct) :
    (encode gen b d).map Prod.fst =
      if d.serviceFullName = [] then .ok b
      else if packetLength (numbered gen d) < 2 ^ 31 then b.writeToBuffer (packet (numbered gen d))
      else .error .memory := by
  unfold encode encodePbData
  split
  · rfl
  · show Except.map _ ((if packetLength (numbered gen d) < 2 ^ 31 then _ else _) >>= _) = _
    split
    · rw [ok_bind]
      change Except.map _ (Except.bind (b.writeToBuffer (packet (numbered gen d))) _) = _
      cases b.writeToBuffer (packet (numbered gen d)) <;> rfl
    · rfl

/-- `encode` fails for want of a service name only. -/
theorem encodeSucc_iff {gen : Bytes} {b b' : TcpBuffer} {d d' : FlconcPbStruct} (h : encode gen b d = .ok (b', d')) :
    d'.encodeSucc = true ↔ d.serviceFullName ≠ [] := by
  unfold encode at h
  obtain ⟨⟨o, tmp⟩, hp, h⟩ := bind_eq_ok.1 h
  unfold encodePbData at hp
  split at hp
  · rename_i hs
    cases hp
    cases h
    exact iff_of_false nofun (not_not_intro hs)
  · rename_i hs
    change (if packetLength (numbered gen d) < 2 ^ 31 then _ else _) = _ at hp
    split at hp
    · cases hp
      obtain ⟨b₁, -, h⟩ := bind_eq_ok.1 h
      cases h
      exact iff_of_true rfl hs
    · cases hp

/-! ## Decoding -/

/-- A text read back from the array of `cap` bytes it was copied into. -/
def arrayText (cap : Nat) (bs : Bytes) : Except Fault Bytes :=
  if bs.length < cap ∨ bs.length = cap ∧ 0 ∈ bs then .ok (cString bs) else .error .memory

theorem copyText_has {tmp bs : Bytes} {i : Int} (h : Has tmp i bs) (cap : Nat) :
    copyText cap tmp i bs.length = arrayText cap bs := by
  unfold copyText arrayText
  rw [h.bytesAt rfl]
  by_cases hle : bs.length ≤ cap
  · rw [if_pos (by omega)]
    change (if (bs.length : Int) < cap ∨ 0 ∈ bs then _ else _) = _
    have hlt : (bs.length : Int) < cap ↔ bs.length < cap := Int.ofNat_lt
    have heq : ¬ bs.length < cap → bs.length = cap := by omega
    refine if_congr ?_ rfl rfl
    rw [hlt]
    exact ⟨fun h => h.elim .inl fun h0 => (em _).imp id fun hn => ⟨heq hn, h0⟩, Or.imp id And.right⟩
  · rw [if_neg (by omega), if_neg (by omega)]

/-- A text comes back as it was exactly when it is shorter than the array and has no NUL. -/
theorem arrayText_eq_self {cap : Nat} {bs : Bytes} :
    arrayText cap bs = .ok bs ↔ bs.length < cap ∧ (0 : UInt8) ∉ bs := by
  unfold arrayText
  constructor
  · intro h
    split at h
    · rename_i hfit
      have hself : cString bs = bs := Except.ok.inj h
      have h0 : (0 : UInt8) ∉ bs := hself ▸ not_mem_cString bs
      exact ⟨hfit.resolve_right fun hc => h0 hc.2, h0⟩
    · cases h
  · rintro ⟨hlt, h0⟩
    rw [if_pos (.inl hlt), cString_eq h0]

section

variable {tmp : Bytes} {d : FlconcPbStruct} {f : Frame}

theorem decodePbData_packet {i : Int} (h : Has tmp i (d.errInfo ++ (d.pbData ++ (be32 1 ++ [PB_END]))))
    (hstop : f.stop = i + d.errInfo.length + d.pbData.length + 4) (hlen : packetLength d < 2 ^ 31)
    (pb : FlconcPbStruct) (cs : List Copy) (hpk : pb.pkLen = packetLength d)
    (hm : pb.msgReqLen = d.msgReq.length) (hn : pb.serviceNameLen = d.serviceFullName.length)
    (hl : pb.errInfoLen = d.errInfo.length) :
    ∃ cs', decodePbData tmp f pb cs i = .ok ({ pb with pbData := d.pbData, decodeSucc := true }, cs') := by
  rw [has_append, has_append] at h
  obtain ⟨-, h, -⟩ := h
  have hpb : wrap32 (pb.pkLen - pb.serviceNameLen - pb.msgReqLen - pb.errInfoLen - 2 - 6 * 4) =
      d.pbData.length := by
    unfold packetLength at hpk hlen
    rw [wrap32_of_inInt32 (by unfold InInt32; omega)]
    omega
  unfold decodePbData
  dsimp only
  rw [hpb, hl, if_neg (by omega)]
  unfold copyString
  rw [if_pos (by omega), h.bytesAt rfl]
  exact ⟨_, rfl⟩

theorem decodeErr_packet {i : Int} (hcode : InInt32 d.errCode)
    (h : Has tmp i (be32 d.errCode ++ (be32 d.errInfo.length ++ (d.errInfo ++
      (d.pbData ++ (be32 1 ++ [PB_END]))))))
    (hstop : f.stop = i + 8 + d.errInfo.length + d.pbData.length + 4) (hlen : packetLength d < 2 ^ 31)
    (pb : FlconcPbStruct) (cs : List Copy) (hpk : pb.pkLen = packetLength d)
    (hm : pb.msgReqLen = d.msgReq.length) (hn : pb.serviceNameLen = d.serviceFullName.length) :
    ∃ cs', decodeErr tmp f pb cs i = (arrayText 512 d.errInfo).bind fun errInfo => .ok ({ pb with
      errCode := d.errCode, errInfoLen := d.errInfo.length, errInfo := errInfo
      pbData := d.pbData, decodeSucc := true }, cs') := by
  rw [has_be32, has_be32] at h
  obtain ⟨hc, hl, h⟩ := h
  have hle : InInt32 d.errInfo.length := by
    unfold packetLength at hlen
    unfold InInt32
    omega
  unfold decodeErr
  rw [hc.int32At hcode, ok_bind]
  dsimp only
  rw [if_neg (by omega), hl.int32At hle, ok_bind]
  rw [copyText_has (has_append.1 h).1]
  cases arrayText 512 d.errInfo with
  | error e => exact ⟨[], rfl⟩
  | ok errInfo => exact decodePbData_packet h (by omega) hlen _ _ hpk hm hn rfl

theorem decodeService_packet {i : Int} (hcode : InInt32 d.errCode)
    (h : Has tmp i (be32 d.serviceFullName.length ++ (d.serviceFullName ++
      (be32 d.errCode ++ (be32 d.errInfo.length ++ (d.errInfo ++
      (d.pbData ++ (be32 1 ++ [PB_END]))))))))
    (hstop : f.stop = i + 4 + d.serviceFullName.length + 8 + d.errInfo.length + d.pbData.length + 4)
    (hlen : packetLength d < 2 ^ 31) (hf : f.pkLen = packetLength d)
    (pb : FlconcPbStruct) (cs : List Copy) (hpk : pb.pkLen = packetLength d)
    (hm : pb.msgReqLen = d.msgReq.length) :
    ∃ cs', decodeService tmp f pb cs i = (arrayText 512 d.serviceFullName).bind fun name =>
      (arrayText 512 d.errInfo).bind fun errInfo => .ok ({ pb with
        serviceNameLen := d.serviceFullName.length, serviceFullName := name
        errCode := d.errCode, errInfoLen := d.errInfo.length, errInfo := errInfo
        pbData := d.pbData, decodeSucc := true }, cs') := by
  rw [has_be32, has_append] at h
  obtain ⟨hl, hs, h⟩ := h
  have hls : InInt32 d.serviceFullName.length := by
    unfold packetLength at hlen
    unfold InInt32
    omega
  unfold decodeService
  dsimp only
  rw [if_neg (by omega), if_neg (by omega), hl.int32At hls, ok_bind]
  rw [if_neg (by unfold packetLength at hf; omega)]
  rw [copyText_has hs]
  cases arrayText 512 d.serviceFullName with
  | error e => exact ⟨[], rfl⟩
  | ok name => exact decodeErr_packet hcode h (by omega) hlen _ _ hpk hm rfl

/-- The fields of a whole packet: the three texts as their arrays give them back. -/
theorem extract_packet_eq {i : Int} (hm0 : d.msgReq ≠ []) (hcode : InInt32 d.errCode)
    (h : Has tmp i (packet d)) (hlen : packetLength d < 2 ^ 31) (data : FlconcPbStruct) :
    ∃ cs, extract tmp (frameAt i d) data = (arrayText 50 d.msgReq).bind fun msgReq =>
      (arrayText 512 d.serviceFullName).bind fun name =>
      (arrayText 512 d.errInfo).bind fun errInfo => .ok ({ data with
        pkLen := packetLength d, msgReqLen := d.msgReq.length, msgReq := msgReq
        serviceNameLen := d.serviceFullName.length, serviceFullName := name
        errCode := d.errCode, errInfoLen := d.errInfo.length, errInfo := errInfo
        pbData := d.pbData, decodeSucc := true }, cs) := by
  unfold packet at h
  rw [has_cons, has_be32, has_be32, has_append] at h
  obtain ⟨-, -, hl, hm, h⟩ := h
  have hpk : packetLength d = 26 + d.pbData.length + d.serviceFullName.length + d.msgReq.length +
    d.errInfo.length := rfl
  have hlm : InInt32 d.msgReq.length := by
    unfold InInt32
    omega
  have hm1 : 1 ≤ d.msgReq.length := List.length_pos_of_ne_nil hm0
  have hstop : (frameAt i d).stop = i + packetLength d - 1 := rfl
  unfold extract
  dsimp only
  rw [show (frameAt i d).start = i from rfl, if_neg (by omega), hl.int32At hlm, ok_bind]
  rw [if_neg (by omega), copyText_has hm]
  cases arrayText 50 d.msgReq with
  | error e => exact ⟨[], rfl⟩
  | ok msgReq =>
    exact decodeService_packet (f := frameAt i d) hcode h (by omega) hlen rfl { data with
      pkLen := packetLength d, decodeSucc := false, msgReqLen := d.msgReq.length, msgReq := msgReq }
      [⟨some 50, i + 1 + 4 + 4, d.msgReq.length⟩] rfl rfl

end

/-- A whole packet at the front of the queue is consumed, whatever follows it, and decoded unless one
of its texts does not fit. -/
theorem decode_packet_eq {b : TcpBuffer} (hb : b.WF) {d : FlconcPbStruct} (hm0 : d.msgReq ≠ [])
    (hcode : InInt32 d.errCode) {rest : Bytes} (hq : b.readable = packet d ++ rest) (data : FlconcPbStruct) :
    ∃ b', b'.Holds rest ∧ b'.buffer.length = b.buffer.length ∧ b'.writeIndex ≤ b.writeIndex ∧
      decode b data = (arrayText 50 d.msgReq).bind fun msgReq =>
        (arrayText 512 d.serviceFullName).bind fun name =>
        (arrayText 512 d.errInfo).bind fun errInfo => .ok (b', { data with
          pkLen := packetLength d, msgReqLen := d.msgReq.length, msgReq := msgReq
          serviceNameLen := d.serviceFullName.length, serviceFullName := name
          errCode := d.errCode, errInfoLen := d.errInfo.length, errInfo := errInfo
          pbData := d.pbData, decodeSucc := true }) := by
  have hlen := TcpBuffer.length_readable hb
  have hpk := length_packet d
  have hr := hb.read
  have hw := hb.write
  have hsize := hb.size
  have hle : (packetLength d : Int) ≤ b.readAble := by
    rw [← hlen, hq, List.length_append]
    omega
  have hin : Has b.buffer b.readIndex (packet d) := hb.has hq
  obtain ⟨cs, hx⟩ :=
    extract_packet_eq hm0 hcode hin (by unfold TcpBuffer.readAble at hle; omega) data
  obtain ⟨b', hb', hh, hs, hi⟩ := TcpBuffer.recycleRead_spec hb (by omega) hle
  refine ⟨b', ?_, hs, hi, ?_⟩
  · rw [hq, Int.toNat_natCast, ← hpk, List.drop_left] at hh
    exact hh
  · have hn : (frameAt b.readIndex d).stop + 1 - (frameAt b.readIndex d).start = packetLength d := by
      unfold frameAt
      dsimp only
      omega
    unfold decode
    rw [scan_packet hb hq]
    show (b.recycleRead ((frameAt b.readIndex d).stop + 1 - (frameAt b.readIndex d).start)).bind _ = _
    rw [hn, hb']
    show (extract b.buffer (frameAt b.readIndex d) data).bind _ = _
    rw [hx]
    cases arrayText 50 d.msgReq with
    | error e => rfl
    | ok msgReq =>
      cases arrayText 512 d.serviceFullName with
      | error e => rfl
      | ok name => cases arrayText 512 d.errInfo <;> rfl

/-- A whole packet without a message number is consumed and not decoded. -/
theorem decode_packet_unnumbered {b b' : TcpBuffer} (hb : b.WF) {d r : FlconcPbStruct} (hm0 : d.msgReq = [])
    {rest : Bytes} (hq : b.readable = packet d ++ rest) {data : FlconcPbStruct}
    (h : decode b data = .ok (b', r)) : r.decodeSucc = false := by
  have hin : Has b.buffer b.readIndex (packet d) := hb.has hq
  unfold packet at hin
  rw [has_cons, has_be32, has_be32] at hin
  obtain ⟨-, -, hl, -⟩ := hin
  unfold decode at h
  rw [scan_packet hb hq, ok_bind] at h
  obtain ⟨b₁, -, h⟩ := bind_eq_ok.1 h
  obtain ⟨⟨pb, cs⟩, hx, h⟩ := bind_eq_ok.1 h
  cases h
  unfold extract at hx
  dsimp only at hx
  split at hx
  · cases hx
    rfl
  · rw [show (frameAt b.readIndex d).start = b.readIndex from rfl, hl.int32At (by rw [hm0]; decide), ok_bind,
      hm0] at hx
    cases hx
    rfl

/-- A whole packet whose texts fit is decoded. -/
theorem decode_packet {b : TcpBuffer} (hb : b.WF) {d : FlconcPbStruct} (hd : Fits d) {rest : Bytes}
    (hq : b.readable = packet d ++ rest) (data : FlconcPbStruct) :
    ∃ b' r, decode b data = .ok (b', r) ∧ Reads d r ∧ b'.Holds rest ∧
      b'.buffer.length = b.buffer.length ∧ b'.writeIndex ≤ b.writeIndex := by
  obtain ⟨b', hh, hs, hi, hdec⟩ := decode_packet_eq hb hd.msgReq_ne hd.errCode hq data
  have hmsg : arrayText 50 d.msgReq = .ok d.msgReq :=
    arrayText_eq_self.2 ⟨Nat.lt_succ_of_le hd.msgReq.2, hd.msgReqText⟩
  have hname : arrayText 512 d.serviceFullName = .ok d.serviceFullName :=
    arrayText_eq_self.2 ⟨Nat.lt_succ_of_le hd.service.2, hd.serviceText⟩
  have herr : arrayText 512 d.errInfo = .ok d.errInfo :=
    arrayText_eq_self.2 ⟨Nat.lt_succ_of_le hd.errInfo, hd.errInfoText⟩
  rw [hmsg, hname, herr] at hdec
  exact ⟨b', _, hdec, ⟨rfl, rfl, rfl, rfl, rfl, rfl, rfl⟩, hh, hs, hi⟩

/-- What comes back from a whole packet as it was put in had texts that fit. -/
theorem fits_of_decode {b b' : TcpBuffer} (hb : b.WF) {d r : FlconcPbStruct} (hm0 : d.msgReq ≠ [])
    (hs0 : d.serviceFullName ≠ []) (hcode : InInt32 d.errCode) {rest : Bytes}
    (hq : b.readable = packet d ++ rest) {data : FlconcPbStruct} (h : decode b data = .ok (b', r))
    (hr : Reads d r) : Fits d := by
  obtain ⟨b₁, -, -, -, hdec⟩ := decode_packet_eq hb hm0 hcode hq data
  rw [h] at hdec
  obtain ⟨msgReq, hmsg, hdec⟩ := bind_eq_ok.1 hdec.symm
  obtain ⟨name, hname, hdec⟩ := bind_eq_ok.1 hdec
  obtain ⟨errInfo, herr, hdec⟩ := bind_eq_ok.1 hdec
  cases hdec
  obtain rfl : msgReq = d.msgReq := hr.msgReq
  obtain rfl : name = d.serviceFullName := hr.serviceFullName
  obtain rfl : errInfo = d.errInfo := hr.errInfo
  obtain ⟨hm, hm'⟩ := arrayText_eq_self.1 hmsg
  obtain ⟨hn, hn'⟩ := arrayText_eq_self.1 hname
  obtain ⟨he, he'⟩ := arrayText_eq_self.1 herr
  exact ⟨⟨List.length_pos_of_ne_nil hm0, Nat.le_of_lt_succ hm⟩,
    ⟨List.length_pos_of_ne_nil hs0, Nat.le_of_lt_succ hn⟩, Nat.le_of_lt_succ he, hm', hn', he', hcode⟩

/-- A buffer with the packet and nothing else. -/
def packetBuffer (d : FlconcPbStruct) : TcpBuffer := ⟨packet d, 0, (packet d).length⟩

theorem packetBuffer_holds {d : FlconcPbStruct} (hlen : packetLength d < 2 ^ 31) :
    (packetBuffer d).Holds (packet d) := by
  rw [← length_packet] at hlen
  refine ⟨⟨le_rfl, Int.natCast_nonneg _, le_rfl, hlen⟩, ?_⟩
  exact TcpBuffer.readable_eq (p := []) (q := []) (by simp [packetBuffer]) rfl (by simp [packetBuffer])

/-- The packet of a struct that fits is decoded. -/
theorem decode_packetBuffer {d : FlconcPbStruct} (hd : Fits d) (hlen : packetLength d < 2 ^ 31) :
    ∃ b r, decode (packetBuffer d) {} = .ok (b, r) ∧ Reads d r := by
  have hh := packetBuffer_holds hlen
  have hq : (packetBuffer d).readable = packet d ++ [] := by rw [hh.queue, List.append_nil]
  obtain ⟨b, r, hdec, hr, -⟩ := decode_packet hh.wf hd hq {}
  exact ⟨b, r, hdec, hr⟩

/-- `decode` reads the packet back wherever it stands at the front of the queue. -/
def Readable (d : FlconcPbStruct) : Prop :=
  ∀ (b : TcpBuffer) (rest : Bytes), b.WF → b.readable = packet d ++ rest →
    ∃ b' r, decode b {} = .ok (b', r) ∧ Reads d r ∧ b'.Holds rest

theorem readable_iff_fits {d : FlconcPbStruct} (hs0 : d.serviceFullName ≠ []) (hcode : InInt32 d.errCode)
    (hlen : packetLength d < 2 ^ 31) : Readable d ↔ Fits d := by
  constructor
  · intro h
    have hh := packetBuffer_holds hlen
    have hq : (packetBuffer d).readable = packet d ++ [] := by rw [hh.queue, List.append_nil]
    obtain ⟨b', r, hdec, hr, -⟩ := h _ [] hh.wf hq
    by_cases hm0 : d.msgReq = []
    · have := decode_packet_unnumbered hh.wf hm0 hq hdec
      rw [hr.decodeSucc] at this
      cases this
    · exact fits_of_decode hh.wf hm0 hs0 hcode hq hdec hr
  · intro hd b rest hb hq
    obtain ⟨b', r, hdec, hr, hh, -⟩ := decode_packet hb hd hq {}
    exact ⟨b', r, hdec, hr, hh⟩

/-! ## What comes in -/

theorem copyText_text {cap : Nat} {tmp t : Bytes} {src len : Int} (h : copyText cap tmp src len = .ok t) :
    t.length < cap ∧ (0 : UInt8) ∉ t := by
  unfold copyText at h
  split at h
  · rename_i hlen
    obtain ⟨bs, hbs, h⟩ := bind_eq_ok.1 h
    have hbound : bs.length ≤ len.toNat := by
      rw [← (bytesAt_eq_ok.1 hbs).2]
      exact List.length_take_le _ _
    split at h
    · rename_i hfit
      cases h
      refine ⟨?_, not_mem_cString bs⟩
      rcases hfit with hlt | h0
      · have := (List.takeWhile_sublist (l := bs) (· ≠ 0)).length_le
        unfold cString
        omega
      · have := length_cString_lt h0
        omega
    · cases h
  · cases h

/-- The texts `decode` reads into a struct fit the arrays they were copied into. -/
structure Texts (d : FlconcPbStruct) : Prop where
  msgReq : d.msgReq.length < 50 ∧ (0 : UInt8) ∉ d.msgReq
  service : d.serviceFullName.length < 512 ∧ (0 : UInt8) ∉ d.serviceFullName

theorem decodePbData_texts {tmp : Bytes} {f : Frame} {pb r : FlconcPbStruct} {cs cs' : List Copy} {i : Int}
    (h : decodePbData tmp f pb cs i = .ok (r, cs')) (hpb : Texts pb) : Texts r := by
  unfold decodePbData at h
  dsimp only at h
  split at h
  · cases h
    exact hpb
  · obtain ⟨pbData, -, h⟩ := bind_eq_ok.1 h
    cases h
    exact ⟨hpb.msgReq, hpb.service⟩

theorem decodeErr_texts {tmp : Bytes} {f : Frame} {pb r : FlconcPbStruct} {cs cs' : List Copy} {i : Int}
    (h : decodeErr tmp f pb cs i = .ok (r, cs')) (hpb : Texts pb) : Texts r := by
  unfold decodeErr at h
  obtain ⟨errCode, -, h⟩ := bind_eq_ok.1 h
  dsimp only at h
  split at h
  · cases h
    exact ⟨hpb.msgReq, hpb.service⟩
  · obtain ⟨errInfoLen, -, h⟩ := bind_eq_ok.1 h
    obtain ⟨errInfo, -, h⟩ := bind_eq_ok.1 h
    exact decodePbData_texts h ⟨hpb.msgReq, hpb.service⟩

theorem decodeService_texts {tmp : Bytes} {f : Frame} {pb r : FlconcPbStruct} {cs cs' : List Copy} {i : Int}
    (h : decodeService tmp f pb cs i = .ok (r, cs')) (hpb : Texts pb) : Texts r := by
  unfold decodeService at h
  dsimp only at h
  split at h
  · cases h
    exact hpb
  · split at h
    · cases h
      exact hpb
    · obtain ⟨serviceNameLen, -, h⟩ := bind_eq_ok.1 h
      split at h
      · cases h
        exact ⟨hpb.msgReq, hpb.service⟩
      · obtain ⟨name, hname, h⟩ := bind_eq_ok.1 h
        exact decodeErr_texts h ⟨hpb.msgReq, copyText_text hname⟩

/-- Whatever `decode` makes of the readable bytes. -/
theorem decode_texts {b b' : TcpBuffer} {data r : FlconcPbStruct} (h : decode b data = .ok (b', r))
    (hdata : Texts data) : Texts r := by
  unfold decode at h
  obtain ⟨o, -, h⟩ := bind_eq_ok.1 h
  cases o with
  | none =>
    cases h
    exact hdata
  | some f =>
    obtain ⟨b₁, -, h⟩ := bind_eq_ok.1 h
    obtain ⟨⟨pb, cs⟩, hx, h⟩ := bind_eq_ok.1 h
    cases h
    unfold extract at hx
    dsimp only at hx
    split at hx
    · cases hx
      exact ⟨hdata.msgReq, hdata.service⟩
    · obtain ⟨msgReqLen, -, hx⟩ := bind_eq_ok.1 hx
      split at hx
      · cases hx
        exact ⟨hdata.msgReq, hdata.service⟩
      · obtain ⟨msgReq, hmsg, hx⟩ := bind_eq_ok.1 hx
        exact decodeService_texts hx ⟨copyText_text hmsg, hdata.service⟩

theorem texts_new : Texts {} := by constructor <;> decide

/-- A packet tells its fields. -/
theorem packet_inj {d e : FlconcPbStruct} (hlen : packetLength d < 2 ^ 31) (hd : InInt32 d.errCode)
    (he : InInt32 e.errCode) (h : packet d = packet e) :
    d.msgReq = e.msgReq ∧ d.serviceFullName = e.serviceFullName ∧ d.errCode = e.errCode ∧
      d.errInfo = e.errInfo ∧ d.pbData = e.pbData := by
  have hle : packetLength d = packetLength e := by rw [← length_packet, h, length_packet]
  have text : ∀ {a b s t : Bytes}, a.length < 2 ^ 31 → b.length < 2 ^ 31 →
      be32 a.length ++ (a ++ s) = be32 b.length ++ (b ++ t) → a = b ∧ s = t := by
    intro a b s t ha hb hab
    obtain ⟨h1, h2⟩ := List.append_inj hab rfl
    have hl : (a.length : Int) = b.length :=
      be32_inj (by unfold InInt32; omega) (by unfold InInt32; omega) h1
    exact List.append_inj h2 (by omega)
  unfold packetLength at hlen hle
  unfold packet at h
  obtain ⟨-, h⟩ := List.append_inj h rfl
  obtain ⟨-, h⟩ := List.append_inj h rfl
  obtain ⟨hmsg, h⟩ := text (by omega) (by omega) h
  obtain ⟨hname, h⟩ := text (by omega) (by omega) h
  obtain ⟨hcode, h⟩ := List.append_inj h rfl
  obtain ⟨herr, h⟩ := text (by omega) (by omega) h
  exact ⟨hmsg, hname, be32_inj hd he hcode, herr, List.append_cancel_right h⟩

end Flconc.FlconcPb
