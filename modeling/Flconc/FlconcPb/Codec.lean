/-
The FlconcPb codec of net/flconcpb/flconcpb_codec.cc: a packet is a start byte, its length, the
length-prefixed message number, service name and error text around the error code, the protobuf
bytes, a check field and an end byte, every integer in network order.

`encode` appends a packet to the buffer. `decode` scans the unread bytes for a start byte whose
length leads to an end byte, consumes as many bytes as that frame has, and takes the fields out of
a copy of the buffer.
-/
import Flconc.Net.TcpBuffer

namespace Flconc.FlconcPb

open Wire

/-! ## The packet -/

/-- `FlconcPbStruct`, with the two flags of `AbstractData`. -/
structure FlconcPbStruct where
  pkLen : Int := 0
  msgReqLen : Int := 0
  msgReq : Bytes := []
  serviceNameLen : Int := 0
  serviceFullName : Bytes := []
  errCode : Int := 0
  errInfoLen : Int := 0
  errInfo : Bytes := []
  pbData : Bytes := []
  checkNum : Int := -1
  decodeSucc : Bool := false
  encodeSucc : Bool := false
  deriving DecidableEq, Repr

def PB_START : UInt8 := 0x02
def PB_END : UInt8 := 0x03

/-- The length of a packet: two bytes, six integers and the four texts. -/
def packetLength (d : FlconcPbStruct) : Nat :=
  2 + 6 * 4 + d.pbData.length + d.serviceFullName.length + d.msgReq.length + d.errInfo.length

/-- The bytes of a packet. -/
def packet (d : FlconcPbStruct) : Bytes :=
  [PB_START] ++ (be32 (packetLength d) ++
    (be32 d.msgReq.length ++ (d.msgReq ++
    (be32 d.serviceFullName.length ++ (d.serviceFullName ++
    (be32 d.errCode ++
    (be32 d.errInfo.length ++ (d.errInfo ++
    (d.pbData ++ (be32 1 ++ [PB_END]))))))))))

theorem length_packet (d : FlconcPbStruct) : (packet d).length = packetLength d := by
  simp only [packet, packetLength, List.length_append, length_be32, List.length_cons, List.length_nil]
  omega

/-! ## Encoding -/

/-- `encodePbData`, for the message number `genMsgNumber` would return: no packet without a service
name; a packet longer than an `int32_t` overruns what `malloc` was asked for. -/
def encodePbData (genMsgNumber : Bytes) (data : FlconcPbStruct) :
    Except Fault (Option Bytes × FlconcPbStruct) :=
  if data.serviceFullName = [] then .ok (none, { data with encodeSucc := false })
  else
    let data := if data.msgReq = [] then
        { data with msgReq := genMsgNumber, msgReqLen := genMsgNumber.length }
      else data
    if packetLength data < 2 ^ 31 then
      .ok (some (packet data), { data with
        pkLen := packetLength data
        msgReqLen := data.msgReq.length
        serviceNameLen := data.serviceFullName.length
        errInfoLen := data.errInfo.length
        checkNum := 1
        encodeSucc := true })
    else .error .memory

/-- `FlconcPbCodeC::encode`: the buffer and the struct afterwards. -/
def encode (genMsgNumber : Bytes) (buf : TcpBuffer) (data : FlconcPbStruct) :
    Except Fault (TcpBuffer × FlconcPbStruct) := do
  match ← encodePbData genMsgNumber data with
  | (none, tmp) => return (buf, { tmp with encodeSucc := false })
  | (some re, tmp) =>
    let buf ← buf.writeToBuffer re
    return (buf, tmp)

/-! ## The frame scan -/

/-- A frame the scan accepted: where it starts and ends, and the length it announces. -/
structure Frame where
  start : Int
  stop : Int
  pkLen : Int
  deriving DecidableEq, Repr

/-- The scan loop from index `i` on, over the next `n` indices. -/
def scanFrom (tmp : Bytes) (writeIndex : Int) : Int → Nat → Except Fault (Option Frame)
  | _, 0 => .ok none
  | i, n + 1 => do
    let c ← byteAt tmp i
    if c = PB_START ∧ i + 1 < writeIndex then
      let pkLen ← int32At tmp (i + 1)
      let j := wrap32 (i + pkLen - 1)
      if j ≥ writeIndex then scanFrom tmp writeIndex (i + 1) n
      else
        let e ← byteAt tmp j
        if e = PB_END then return some ⟨i, j, pkLen⟩ else scanFrom tmp writeIndex (i + 1) n
    else scanFrom tmp writeIndex (i + 1) n

def scan (buf : TcpBuffer) : Except Fault (Option Frame) :=
  scanFrom buf.buffer buf.writeIndex buf.readIndex buf.readAble.toNat

/-! ## Field extraction -/

/-- One copy out of the frame: the size of the array it goes to (none for a `std::string`), where it
reads from and how many bytes. -/
structure Copy where
  cap : Option Nat
  src : Int
  len : Int
  deriving DecidableEq, Repr

/-- `memcpy` of `len` bytes into a zeroed `char[cap]`, read back by `std::string(const char *)`: the
length is taken as unsigned, and without a NUL in the array the string runs past it. -/
def copyText (cap : Nat) (tmp : Bytes) (src len : Int) : Except Fault Bytes :=
  if 0 ≤ len ∧ len ≤ cap then do
    let bs ← bytesAt tmp src len
    if len < cap ∨ 0 ∈ bs then return cString bs else .error .memory
  else .error .memory

/-- `std::string(const char *, size_t)`: a negative length is larger than any string. -/
def copyString (tmp : Bytes) (src len : Int) : Except Fault Bytes :=
  if 0 ≤ len then bytesAt tmp src len else .error .thrown

/-- The last part of `decode`: the payload is what the lengths leave over. -/
def decodePbData (tmp : Bytes) (f : Frame) (pb : FlconcPbStruct) (cs : List Copy)
    (errInfoIndex : Int) : Except Fault (FlconcPbStruct × List Copy) :=
  let pbDataLen := wrap32 (pb.pkLen - pb.serviceNameLen - pb.msgReqLen - pb.errInfoLen - 2 - 6 * 4)
  let pbDataIndex := errInfoIndex + pb.errInfoLen
  if pbDataIndex ≥ f.stop then .ok (pb, cs)
  else do
    let pbData ← copyString tmp pbDataIndex pbDataLen
    return ({ pb with pbData := pbData, decodeSucc := true }, cs ++ [⟨none, pbDataIndex, pbDataLen⟩])

/-- The error code, which is read unchecked, and the error text. -/
def decodeErr (tmp : Bytes) (f : Frame) (pb : FlconcPbStruct) (cs : List Copy) (errCodeIndex : Int) :
    Except Fault (FlconcPbStruct × List Copy) := do
  let errCode ← int32At tmp errCodeIndex
  let pb := { pb with errCode := errCode }
  let errInfoLenIndex := errCodeIndex + 4
  if errInfoLenIndex ≥ f.stop then return (pb, cs)
  else
    let errInfoLen ← int32At tmp errInfoLenIndex
    let errInfoIndex := errInfoLenIndex + 4
    let errInfo ← copyText 512 tmp errInfoIndex errInfoLen
    decodePbData tmp f { pb with errInfoLen := errInfoLen, errInfo := errInfo }
      (cs ++ [⟨some 512, errInfoIndex, errInfoLen⟩]) errInfoIndex

/-- The service name, whose length is compared with the length of the packet only. -/
def decodeService (tmp : Bytes) (f : Frame) (pb : FlconcPbStruct) (cs : List Copy)
    (serviceNameLenIndex : Int) : Except Fault (FlconcPbStruct × List Copy) :=
  if serviceNameLenIndex ≥ f.stop then .ok (pb, cs)
  else
    let serviceNameIndex := serviceNameLenIndex + 4
    if serviceNameIndex ≥ f.stop then .ok (pb, cs)
    else do
      let serviceNameLen ← int32At tmp serviceNameLenIndex
      let pb := { pb with serviceNameLen := serviceNameLen }
      if serviceNameLen > f.pkLen then return (pb, cs)
      else
        let name ← copyText 512 tmp serviceNameIndex serviceNameLen
        decodeErr tmp f { pb with serviceFullName := name }
          (cs ++ [⟨some 512, serviceNameIndex, serviceNameLen⟩]) (serviceNameIndex + serviceNameLen)

/-- The part of `decode` behind the scan: the struct, and the copies made on the way. -/
def extract (tmp : Bytes) (f : Frame) (data : FlconcPbStruct) :
    Except Fault (FlconcPbStruct × List Copy) :=
  let pb := { data with pkLen := f.pkLen, decodeSucc := false }
  let msgReqLenIndex := f.start + 1 + 4
  if msgReqLenIndex ≥ f.stop then .ok (pb, [])
  else do
    let msgReqLen ← int32At tmp msgReqLenIndex
    let pb := { pb with msgReqLen := msgReqLen }
    if msgReqLen = 0 then return (pb, [])
    else
      let msgReqIndex := msgReqLenIndex + 4
      let msgReq ← copyText 50 tmp msgReqIndex msgReqLen
      decodeService tmp f { pb with msgReq := msgReq } [⟨some 50, msgReqIndex, msgReqLen⟩]
        (msgReqIndex + msgReqLen)

/-- `FlconcPbCodeC::decode`: the fields are read from the vector as it was before the frame was
consumed. -/
def decode (buf : TcpBuffer) (data : FlconcPbStruct) : Except Fault (TcpBuffer × FlconcPbStruct) := do
  match ← scan buf with
  | none => return (buf, data)
  | some f =>
    let buf' ← buf.recycleRead (f.stop + 1 - f.start)
    let (pb, _) ← extract buf.buffer f data
    return (buf', pb)

end Flconc.FlconcPb
