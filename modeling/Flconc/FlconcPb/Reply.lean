/-
The replies of the FlconcPb dispatcher: one packet for a request, labelled as the request is, with the
error code documented for the stage that failed; and whether the peer's `decode` reads it back.

Each stage that can fail fills in the reply by itself. A request that does not parse gets the code of
serialization, a request without a name gets no reply at all, and an error text is the name that came
in with words around it, so it may outgrow the array the peer copies it into.
-/
import Flconc.FlconcPb.Dispatcher
import Flconc.FlconcPb.Packet

namespace Flconc.FlconcPb

open Wire Text

/-! ## What becomes of a request -/

/-- The stages of `dispatch` that can fail. -/
inductive Stage
  | parseName
  | findService
  | findMethod
  | parseRequest
  | serializeResponse
  deriving DecidableEq

/-- The error code the documentation gives for the stage. -/
def Stage.documented : Stage → Int
  | .parseName => ERROR_PARSE_SERVICE_NAME
  | .findService => ERROR_SERVICE_NOT_FOUND
  | .findMethod => ERROR_METHOD_NOT_FOUND
  | .parseRequest => ERROR_FAILED_DESERIALIZE
  | .serializeResponse => ERROR_FAILED_SERIALIZE

/-- The error code `dispatch` puts in. -/
def Stage.errCode : Stage → Int
  | .parseRequest => ERROR_FAILED_SERIALIZE
  | stage => stage.documented

theorem Stage.documented_inInt32 (stage : Stage) : InInt32 stage.documented := by
  cases stage <;> decide

theorem Stage.errCode_inInt32 (stage : Stage) : InInt32 stage.errCode := by
  cases stage <;> decide

/-- The words the error text of the stage puts before and behind a name. -/
def Stage.before : Stage → Bytes
  | .parseName => ascii "cannot parse service_name:["
  | .findService => ascii "not found service_name:["
  | .findMethod => ascii "not found method_name:["
  | .parseRequest => ascii "faild to parse request data, request.name:["
  | .serializeResponse => ascii "failed to serilize relpy data"

def Stage.behind : Stage → Bytes
  | .serializeResponse => []
  | _ => ascii "]"

def Stage.errInfo (name : Bytes) (stage : Stage) : Bytes := stage.before ++ name ++ stage.behind

/-- How many bytes the words have. -/
def Stage.words (stage : Stage) : Nat := stage.before.length + stage.behind.length

theorem Stage.length_errInfo (stage : Stage) (name : Bytes) :
    (stage.errInfo name).length = stage.words + name.length := by
  simp only [errInfo, words, List.length_append]
  omega

theorem Stage.text_errInfo (stage : Stage) (name : Bytes) :
    (0 : UInt8) ∉ stage.errInfo name ↔ (0 : UInt8) ∉ name := by
  have hb : (0 : UInt8) ∉ stage.before ∧ (0 : UInt8) ∉ stage.behind := by cases stage <;> decide +kernel
  simp only [errInfo, List.mem_append, hb.1, hb.2, false_or, or_false]

/-- What becomes of a request: the first stage that failed, with the name its text is about, or the
serialized response. -/
inductive Outcome
  | failed (stage : Stage) (name : Bytes)
  | served (pbData : Bytes)

def outcome (m : ServiceMap) (msgReq : Bytes) (tmp : FlconcPbStruct) : Outcome :=
  match parseServiceFullName tmp.serviceFullName with
  | .ok (some (serviceName, methodName)) =>
    match m serviceName with
    | none => .failed .findService serviceName
    | some service =>
      match service.findMethodByName methodName with
      | none => .failed .findMethod methodName
      | some method =>
        if service.parseRequest method tmp.pbData then
          match service.callMethod method ⟨msgReq, methodName, tmp.serviceFullName⟩ tmp.pbData with
          | some pbData => .served pbData
          | none => .failed .serializeResponse []
        else .failed .parseRequest (service.requestName method)
  | _ => .failed .parseName tmp.serviceFullName

namespace Outcome

/-- 0 for a served request, else the documented code of the stage that failed. -/
def documented : Outcome → Int
  | failed stage _ => stage.documented
  | served _ => 0

def errCode : Outcome → Int
  | failed stage _ => stage.errCode
  | served _ => 0

def errInfo : Outcome → Bytes
  | failed stage name => stage.errInfo name
  | served _ => []

def pbData : Outcome → Bytes
  | failed _ _ => []
  | served pbData => pbData

theorem errCode_eq_documented {o : Outcome} :
    o.errCode = o.documented ↔ ∀ name, o ≠ failed .parseRequest name := by
  cases o with
  | served pbData => exact ⟨fun _ _ => nofun, fun _ => rfl⟩
  | failed stage name =>
    cases stage with
    | parseRequest => exact ⟨nofun, fun h => absurd rfl (h name)⟩
    | parseName | findService | findMethod | serializeResponse =>
      exact ⟨fun _ _ => nofun, fun _ => rfl⟩

theorem errCode_inInt32 (o : Outcome) : InInt32 o.errCode := by
  cases o with
  | served pbData => exact (by decide : InInt32 0)
  | failed stage name => exact stage.errCode_inInt32

theorem documented_inInt32 (o : Outcome) : InInt32 o.documented := by
  cases o with
  | served pbData => exact (by decide : InInt32 0)
  | failed stage name => exact stage.documented_inInt32

end Outcome

/-- A request fails to parse only when it has reached a method. -/
theorem outcome_parseRequest (m : ServiceMap) (msgReq : Bytes) (tmp : FlconcPbStruct) :
    (∃ name, outcome m msgReq tmp = .failed .parseRequest name) ↔
      ∃ service method, Selects m tmp.serviceFullName service method ∧
        service.parseRequest method tmp.pbData = false := by
  unfold Selects lookup outcome
  rcases parseServiceFullName_total tmp.serviceFullName with h | ⟨⟨serviceName, methodName⟩, h⟩
  · rw [h]
    exact ⟨nofun, nofun⟩
  · rw [h, ok_bind]
    dsimp only
    cases m serviceName with
    | none => exact ⟨nofun, nofun⟩
    | some service =>
      dsimp only
      cases service.findMethodByName methodName with
      | none => exact ⟨nofun, nofun⟩
      | some method =>
        dsimp only
        constructor
        · rintro ⟨name, h⟩
          refine ⟨service, method, ⟨methodName, rfl⟩, ?_⟩
          by_contra hp
          rw [Bool.not_eq_false] at hp
          rw [if_pos hp] at h
          split at h <;> cases h
        · rintro ⟨service', method', ⟨methodName', h⟩, hp⟩
          cases h
          rw [hp]
          exact ⟨_, rfl⟩

/-! ## The reply -/

/-- The message number the dispatcher puts in. -/
def replyMsgReq (genMsgNumber : Bytes) (tmp : FlconcPbStruct) : Bytes :=
  if tmp.msgReq = [] then genMsgNumber else tmp.msgReq

/-- The struct the dispatcher encodes for an outcome. -/
def replyFor (msgReq : Bytes) (tmp : FlconcPbStruct) (o : Outcome) : FlconcPbStruct :=
  { serviceFullName := tmp.serviceFullName
    msgReq := msgReq
    errCode := o.errCode
    errInfo := o.errInfo
    pbData := o.pbData }

theorem replyTo_eq (m : ServiceMap) (genMsgNumber : Bytes) (tmp : FlconcPbStruct) :
    replyTo m genMsgNumber tmp =
      .ok (replyFor (replyMsgReq genMsgNumber tmp) tmp (outcome m (replyMsgReq genMsgNumber tmp) tmp)) := by
  unfold replyTo lookup outcome
  dsimp only
  rcases parseServiceFullName_total tmp.serviceFullName with h | ⟨⟨serviceName, methodName⟩, h⟩
  · rw [h]; rfl
  · rw [h, ok_bind]
    dsimp only
    cases m serviceName with
    | none => rfl
    | some service =>
      dsimp only
      cases service.findMethodByName methodName with
      | none => rfl
      | some method =>
        dsimp only
        rw [pure_bind]
        unfold serve replyMsgReq
        dsimp only
        cases service.parseRequest method tmp.pbData with
        | false => rfl
        | true =>
          cases service.callMethod method _ tmp.pbData <;> rfl

/-- The struct whose packet is sent. -/
def sentReply (m : ServiceMap) (genMsgNumber genMsgNumber' : Bytes) (tmp : FlconcPbStruct) : FlconcPbStruct :=
  numbered genMsgNumber'
    (replyFor (replyMsgReq genMsgNumber tmp) tmp (outcome m (replyMsgReq genMsgNumber tmp) tmp))

/-- The number the packet of the reply gets when the request has none. -/
def newMsgReq (genMsgNumber genMsgNumber' : Bytes) : Bytes :=
  if genMsgNumber = [] then genMsgNumber' else genMsgNumber

section

variable {m : ServiceMap} {genMsgNumber genMsgNumber' : Bytes} {tmp : FlconcPbStruct}

theorem sentReply_msgReq : (sentReply m genMsgNumber genMsgNumber' tmp).msgReq =
    if tmp.msgReq = [] then newMsgReq genMsgNumber genMsgNumber' else tmp.msgReq := by
  unfold sentReply
  rw [numbered_msgReq]
  unfold replyFor replyMsgReq newMsgReq
  dsimp only
  by_cases hm : tmp.msgReq = [] <;> simp [hm]

theorem sentReply_serviceFullName :
    (sentReply m genMsgNumber genMsgNumber' tmp).serviceFullName = tmp.serviceFullName :=
  numbered_serviceFullName _ _

theorem sentReply_errCode : (sentReply m genMsgNumber genMsgNumber' tmp).errCode =
    (outcome m (replyMsgReq genMsgNumber tmp) tmp).errCode :=
  numbered_errCode _ _

theorem sentReply_errInfo : (sentReply m genMsgNumber genMsgNumber' tmp).errInfo =
    (outcome m (replyMsgReq genMsgNumber tmp) tmp).errInfo :=
  numbered_errInfo _ _

theorem sentReply_errCode_inInt32 : InInt32 (sentReply m genMsgNumber genMsgNumber' tmp).errCode :=
  sentReply_errCode ▸ Outcome.errCode_inInt32 _

end

/-- What `dispatch` does with a request: nothing without a service name, else it encodes the reply. -/
theorem dispatch_eq (m : ServiceMap) (genMsgNumber genMsgNumber' : Bytes) (tmp : FlconcPbStruct)
    (out : TcpBuffer) : dispatch m genMsgNumber genMsgNumber' tmp out =
      if tmp.serviceFullName = [] then .ok out
      else if packetLength (sentReply m genMsgNumber genMsgNumber' tmp) < 2 ^ 31 then
        out.writeToBuffer (packet (sentReply m genMsgNumber genMsgNumber' tmp))
      else .error .memory := by
  unfold dispatch
  rw [replyTo_eq, ok_bind]
  exact encode_fst genMsgNumber' out _

/-- One packet is appended exactly when there is a service name and room, and it is the one sent. -/
theorem dispatch_holds {m : ServiceMap} {genMsgNumber genMsgNumber' : Bytes} {tmp : FlconcPbStruct}
    {out : TcpBuffer} (hout : out.WF) {pk : Bytes} (hpk : pk ≠ []) :
    (∃ out', dispatch m genMsgNumber genMsgNumber' tmp out = .ok out' ∧ out'.Holds (out.readable ++ pk)) ↔
      tmp.serviceFullName ≠ [] ∧ out.Room (packetLength (sentReply m genMsgNumber genMsgNumber' tmp)) ∧
        pk = packet (sentReply m genMsgNumber genMsgNumber' tmp) := by
  rw [dispatch_eq]
  constructor
  · rintro ⟨out', h, hh⟩
    split at h
    · -- nothing was appended
      cases h
      exact absurd (List.self_eq_append_right.1 hh.queue) hpk
    · rename_i hname
      split at h
      · have hroom : out.Room (packet (sentReply m genMsgNumber genMsgNumber' tmp)).length := by
          by_contra hno
          rw [TcpBuffer.writeToBuffer_noRoom hno] at h
          cases h
        obtain ⟨out₁, hw, hh₁, -⟩ := TcpBuffer.writeToBuffer_room hout hroom
        rw [hw] at h
        cases h
        refine ⟨hname, length_packet _ ▸ hroom, ?_⟩
        exact List.append_cancel_left (hh.queue.symm.trans hh₁.queue)
      · cases h
  · rintro ⟨hname, hroom, rfl⟩
    rw [if_neg hname, if_pos (hroom.lt hout)]
    rw [← length_packet] at hroom
    obtain ⟨out', hw, hh, -⟩ := TcpBuffer.writeToBuffer_room hout hroom
    exact ⟨out', hw, hh⟩

/-! ## One well-labelled reply -/

/-- `dispatch` appends one packet: the request's message number and service name, and the documented
error code of what becomes of the request. -/
def WellReplied (m : ServiceMap) (genMsgNumber genMsgNumber' : Bytes) (tmp : FlconcPbStruct)
    (out : TcpBuffer) : Prop :=
  ∃ r, (∃ out', dispatch m genMsgNumber genMsgNumber' tmp out = .ok out' ∧
      out'.Holds (out.readable ++ packet r)) ∧
    r.msgReq = tmp.msgReq ∧ r.serviceFullName = tmp.serviceFullName ∧
    r.errCode = (outcome m (replyMsgReq genMsgNumber tmp) tmp).documented

/-- When it does. -/
structure Replies (m : ServiceMap) (genMsgNumber genMsgNumber' : Bytes) (tmp : FlconcPbStruct)
    (out : TcpBuffer) : Prop where
  named : tmp.serviceFullName ≠ []
  numbered : tmp.msgReq = [] → newMsgReq genMsgNumber genMsgNumber' = []
  /-- The request bytes parse, if they get as far as a method. -/
  parses : ∀ service method, Selects m tmp.serviceFullName service method →
    service.parseRequest method tmp.pbData = true
  room : out.Room (packetLength (sentReply m genMsgNumber genMsgNumber' tmp))

/-- The error code is the documented one unless the request bytes do not parse. -/
theorem errCode_outcome (m : ServiceMap) (msgReq : Bytes) (tmp : FlconcPbStruct) :
    (outcome m msgReq tmp).errCode = (outcome m msgReq tmp).documented ↔
      ∀ service method, Selects m tmp.serviceFullName service method →
        service.parseRequest method tmp.pbData = true := by
  have hfails := outcome_parseRequest m msgReq tmp
  rw [Outcome.errCode_eq_documented, ← not_exists, hfails]
  simp only [not_exists, not_and, Bool.not_eq_false]

theorem wellReplied_iff (m : ServiceMap) (genMsgNumber genMsgNumber' : Bytes) (tmp : FlconcPbStruct)
    {out : TcpBuffer} (hout : out.WF) :
    WellReplied m genMsgNumber genMsgNumber' tmp out ↔ Replies m genMsgNumber genMsgNumber' tmp out := by
  have hpk : ∀ r, packet r ≠ [] := fun r => List.cons_ne_nil _ _
  have hmsg : (sentReply m genMsgNumber genMsgNumber' tmp).msgReq = tmp.msgReq ↔
      (tmp.msgReq = [] → newMsgReq genMsgNumber genMsgNumber' = []) := by
    rw [sentReply_msgReq]
    by_cases hm : tmp.msgReq = [] <;> simp [hm]
  have hcode : (sentReply m genMsgNumber genMsgNumber' tmp).errCode = _ ↔ _ :=
    sentReply_errCode ▸ errCode_outcome m (replyMsgReq genMsgNumber tmp) tmp
  unfold WellReplied
  constructor
  · rintro ⟨r, hr, hr₁, -, hr₂⟩
    obtain ⟨hname, hroom, heq⟩ := (dispatch_holds hout (hpk r)).1 hr
    -- the packet that was appended is the one of the struct sent, so they agree in every field
    have hr₃ : InInt32 r.errCode := hr₂ ▸ Outcome.documented_inInt32 _
    obtain ⟨hmsg', -, hcode', -⟩ := packet_inj (hroom.lt hout) sentReply_errCode_inInt32 hr₃ heq.symm
    exact ⟨hname, hmsg.1 (hmsg'.trans hr₁), hcode.1 (hcode'.trans hr₂), hroom⟩
  · rintro ⟨hname, hnum, hparse, hroom⟩
    refine ⟨sentReply m genMsgNumber genMsgNumber' tmp, ?_, hmsg.2 hnum, sentReply_serviceFullName, hcode.2 hparse⟩
    exact (dispatch_holds hout (hpk _)).2 ⟨hname, hroom, rfl⟩

/-- A request for the method `m` of the service `S`. -/
def smallRequest : FlconcPbStruct := { serviceFullName := ascii "S.m", msgReq := ascii "1" }

theorem wellReplied_small :
    WellReplied (registerAll [echoService (ascii "S") [ascii "m"]]) [] [] smallRequest (.ofSize 128) ↔
      Replies (registerAll [echoService (ascii "S") [ascii "m"]]) [] [] smallRequest (.ofSize 128) :=
  wellReplied_iff _ [] [] smallRequest (TcpBuffer.ofSize_wf (by decide))

/-- A service whose method refuses every request. -/
def strictService : Service :=
  { echoService (ascii "S") [ascii "m"] with parseRequest := fun _ _ => false }

/-- The packet of a request comes in, its bytes do not parse, and the reply says that the response
could not be serialized. -/
theorem not_wellReplied_strict :
    ∃ b tmp, decode (packetBuffer smallRequest) {} = .ok (b, tmp) ∧ tmp.decodeSucc = true ∧
      ¬ WellReplied (registerAll [strictService]) [] [] tmp (.ofSize 128) := by
  have hfits : Fits smallRequest := by constructor <;> decide
  obtain ⟨b, tmp, hdec, hr⟩ := decode_packetBuffer hfits (by decide)
  refine ⟨b, tmp, hdec, hr.decodeSucc, ?_⟩
  rintro ⟨r, hrep, -, -, hcode⟩
  obtain ⟨-, hroom, heq⟩ := (dispatch_holds (TcpBuffer.ofSize_wf (by decide)) (List.cons_ne_nil _ _)).1 hrep
  have hfailed : outcome (registerAll [strictService]) (replyMsgReq [] tmp) tmp = .failed .parseRequest [] := by
    unfold outcome
    rw [hr.serviceFullName]
    rfl
  rw [hfailed] at hcode
  have hcode' : InInt32 r.errCode := by rw [hcode]; decide
  obtain ⟨-, -, hsent, -⟩ := packet_inj (hroom.lt (TcpBuffer.ofSize_wf (by decide)))
    sentReply_errCode_inInt32 hcode' heq.symm
  rw [hcode, sentReply_errCode, hfailed] at hsent
  cases hsent

/-! ## Replies the peer can read -/

/-- `dispatch` appends the packet of the struct it has put together, and `decode` reads that packet
back with the same fields. -/
def RepliesReadably (m : ServiceMap) (genMsgNumber genMsgNumber' : Bytes) (tmp : FlconcPbStruct)
    (out : TcpBuffer) : Prop :=
  ∃ reply, replyTo m genMsgNumber tmp = .ok reply ∧
    (∃ out', dispatch m genMsgNumber genMsgNumber' tmp out = .ok out' ∧
      out'.Holds (out.readable ++ packet (numbered genMsgNumber' reply))) ∧
    Readable (numbered genMsgNumber' reply)

/-- When it does. -/
structure ReplyFits (m : ServiceMap) (genMsgNumber genMsgNumber' : Bytes) (tmp : FlconcPbStruct)
    (out : TcpBuffer) : Prop where
  /-- A number made for a request without one fits its array. -/
  number : tmp.msgReq = [] → 1 ≤ (newMsgReq genMsgNumber genMsgNumber').length ∧
    (newMsgReq genMsgNumber genMsgNumber').length ≤ 49 ∧ (0 : UInt8) ∉ newMsgReq genMsgNumber genMsgNumber'
  /-- The name a failed stage writes about leaves room for the words around it. -/
  name : ∀ stage name, outcome m (replyMsgReq genMsgNumber tmp) tmp = .failed stage name →
    stage.words + name.length ≤ 511 ∧ (0 : UInt8) ∉ name
  room : out.Room (packetLength (sentReply m genMsgNumber genMsgNumber' tmp))

/-- The error text fits its array exactly when the name in it leaves room for the words. -/
theorem errInfo_fits {o : Outcome} : (o.errInfo.length ≤ 511 ∧ (0 : UInt8) ∉ o.errInfo) ↔
    ∀ stage name, o = .failed stage name → stage.words + name.length ≤ 511 ∧ (0 : UInt8) ∉ name := by
  cases o with
  | served pbData => exact ⟨fun _ => nofun, fun _ => ⟨Nat.zero_le _, List.not_mem_nil⟩⟩
  | failed stage name =>
    show (stage.errInfo name).length ≤ 511 ∧ (0 : UInt8) ∉ stage.errInfo name ↔ _
    rw [stage.length_errInfo, stage.text_errInfo]
    constructor
    · rintro h stage' name' ⟨⟩
      exact h
    · intro h
      exact h stage name rfl

/-- The struct sent fits when the number and the error text do; the name comes out of an array. -/
theorem fits_sentReply {m : ServiceMap} {genMsgNumber genMsgNumber' : Bytes} {tmp : FlconcPbStruct}
    (htmp : Texts tmp) (hname : tmp.serviceFullName ≠ []) :
    Fits (sentReply m genMsgNumber genMsgNumber' tmp) ↔
      (tmp.msgReq = [] → 1 ≤ (newMsgReq genMsgNumber genMsgNumber').length ∧
        (newMsgReq genMsgNumber genMsgNumber').length ≤ 49 ∧
        (0 : UInt8) ∉ newMsgReq genMsgNumber genMsgNumber') ∧
      ∀ stage name, outcome m (replyMsgReq genMsgNumber tmp) tmp = .failed stage name →
        stage.words + name.length ≤ 511 ∧ (0 : UInt8) ∉ name := by
  rw [← errInfo_fits]
  constructor
  · intro h
    have hmsg := h.msgReq
    have hmsg' := h.msgReqText
    rw [sentReply_msgReq] at hmsg hmsg'
    refine ⟨fun hm => ?_, sentReply_errInfo (m := m) ▸ ⟨h.errInfo, h.errInfoText⟩⟩
    rw [if_pos hm] at hmsg hmsg'
    exact ⟨hmsg.1, hmsg.2, hmsg'⟩
  · rintro ⟨hnum, herr, herr'⟩
    have hs1 := List.length_pos_of_ne_nil hname
    obtain ⟨hs2, hs3⟩ := htmp.service
    have hnum' : ∀ n, n = (sentReply m genMsgNumber genMsgNumber' tmp).msgReq →
        (1 ≤ n.length ∧ n.length ≤ 49) ∧ (0 : UInt8) ∉ n := by
      rintro n rfl
      rw [sentReply_msgReq]
      split
      · rename_i hm
        obtain ⟨h1, h2, h3⟩ := hnum hm
        exact ⟨⟨h1, h2⟩, h3⟩
      · rename_i hm
        exact ⟨⟨List.length_pos_of_ne_nil hm, Nat.le_of_lt_succ htmp.msgReq.1⟩, htmp.msgReq.2⟩
    obtain ⟨hm1, hm2⟩ := hnum' _ rfl
    exact {
      msgReq := hm1
      msgReqText := hm2
      service := by rw [sentReply_serviceFullName]; exact ⟨hs1, Nat.le_of_lt_succ hs2⟩
      serviceText := by rw [sentReply_serviceFullName]; exact hs3
      errInfo := by rw [sentReply_errInfo]; exact herr
      errInfoText := by rw [sentReply_errInfo]; exact herr'
      errCode := sentReply_errCode_inInt32 }

/-- The reply to a request with a service name is the one sent, there is room for it and it fits. -/
theorem repliesReadably_sentReply {m : ServiceMap} {genMsgNumber genMsgNumber' : Bytes} {tmp : FlconcPbStruct}
    {out : TcpBuffer} (hname : tmp.serviceFullName ≠ []) (hout : out.WF) :
    RepliesReadably m genMsgNumber genMsgNumber' tmp out ↔
      out.Room (packetLength (sentReply m genMsgNumber genMsgNumber' tmp)) ∧
        Fits (sentReply m genMsgNumber genMsgNumber' tmp) := by
  have hs0 : (sentReply m genMsgNumber genMsgNumber' tmp).serviceFullName ≠ [] := by
    rw [sentReply_serviceFullName]
    exact hname
  have hpk : packet (sentReply m genMsgNumber genMsgNumber' tmp) ≠ [] := List.cons_ne_nil _ _
  constructor
  · rintro ⟨reply, hreply, happ, hread⟩
    rw [replyTo_eq] at hreply
    cases hreply
    obtain ⟨-, hroom, -⟩ := (dispatch_holds hout hpk).1 happ
    exact ⟨hroom, (readable_iff_fits hs0 sentReply_errCode_inInt32 (hroom.lt hout)).1 hread⟩
  · rintro ⟨hroom, hfits⟩
    exact ⟨_, replyTo_eq m genMsgNumber tmp, (dispatch_holds hout hpk).2 ⟨hname, hroom, rfl⟩,
      (readable_iff_fits hs0 sentReply_errCode_inInt32 (hroom.lt hout)).2 hfits⟩

/-- The reply to a decoded request is readable exactly when its texts fit. -/
theorem repliesReadably_iff (m : ServiceMap) (genMsgNumber genMsgNumber' : Bytes) {b b' : TcpBuffer}
    {tmp : FlconcPbStruct} (hdec : decode b {} = .ok (b', tmp)) (hname : tmp.serviceFullName ≠ [])
    {out : TcpBuffer} (hout : out.WF) :
    RepliesReadably m genMsgNumber genMsgNumber' tmp out ↔
      ReplyFits m genMsgNumber genMsgNumber' tmp out := by
  rw [repliesReadably_sentReply hname hout, fits_sentReply (decode_texts hdec texts_new) hname]
  constructor
  · rintro ⟨hroom, hnum, herr⟩
    exact ⟨hnum, herr, hroom⟩
  · rintro ⟨hnum, herr, hroom⟩
    exact ⟨hroom, hnum, herr⟩

theorem repliesReadably_small :
    ∃ b tmp, decode (packetBuffer smallRequest) {} = .ok (b, tmp) ∧
      (RepliesReadably (registerAll [strictService]) [] [] tmp (.ofSize 128) ↔
        ReplyFits (registerAll [strictService]) [] [] tmp (.ofSize 128)) := by
  have hfits : Fits smallRequest := by constructor <;> decide
  obtain ⟨b, tmp, hdec, hr⟩ := decode_packetBuffer hfits (by decide)
  have hname : tmp.serviceFullName ≠ [] := by rw [hr.serviceFullName]; decide
  exact ⟨b, tmp, hdec, repliesReadably_iff _ [] [] hdec hname (TcpBuffer.ofSize_wf (by decide))⟩

/-- A request whose name is as long as its array allows and has no dot. -/
def longRequest : FlconcPbStruct := { serviceFullName := List.replicate 511 0x61, msgReq := ascii "1" }

theorem outcome_dotless {m : ServiceMap} {msgReq : Bytes} {tmp : FlconcPbStruct}
    (h : dot ∉ tmp.serviceFullName) : outcome m msgReq tmp = .failed .parseName tmp.serviceFullName := by
  unfold outcome
  rw [parseServiceFullName_dotless h]

/-- The request is decoded, and the text of its error reply overruns the peer's array. -/
theorem not_repliesReadably_long :
    ∃ b tmp, decode (packetBuffer longRequest) {} = .ok (b, tmp) ∧ tmp.decodeSucc = true ∧
      tmp.serviceFullName.length = 511 ∧ ¬ RepliesReadably (fun _ => none) [] [] tmp (.ofSize 128) := by
  have hlen : longRequest.serviceFullName.length = 511 := List.length_replicate
  have habsent : ∀ c, c ≠ 0x61 → c ∉ longRequest.serviceFullName := fun c hc h =>
    hc (List.eq_of_mem_replicate h)
  have hfits : Fits longRequest :=
    ⟨by decide, by omega, by decide, by decide, habsent 0 (by decide), by decide, by decide⟩
  obtain ⟨b, tmp, hdec, hr⟩ := decode_packetBuffer hfits
    (by unfold packetLength; rw [hlen]; decide)
  have hname : tmp.serviceFullName ≠ [] := by
    rw [hr.serviceFullName]
    exact hfits.service_ne
  have hfailed : outcome (fun _ => none) (replyMsgReq [] tmp) tmp =
      .failed .parseName tmp.serviceFullName :=
    outcome_dotless (by rw [hr.serviceFullName]; exact habsent dot (by decide))
  refine ⟨b, tmp, hdec, hr.decodeSucc, by rw [hr.serviceFullName, hlen], ?_⟩
  rw [repliesReadably_sentReply hname (TcpBuffer.ofSize_wf (by decide)),
    fits_sentReply (decode_texts hdec texts_new) hname]
  rintro ⟨-, -, herr⟩
  have hroom := (herr _ _ hfailed).1
  have hwords : Stage.parseName.words = 28 := rfl
  rw [hr.serviceFullName, hlen, hwords] at hroom
  omega

end Flconc.FlconcPb
