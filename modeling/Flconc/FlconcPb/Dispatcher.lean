/-
The FlconcPb rpc dispatcher of net/flconcpb/flconcpb_rpc_dispatcher.cc, with the name the channel of
net/flconcpb/flconcpb_rpc_channel.cc sends. A request names its method by the full name protobuf
gives it; the dispatcher splits that name at the first dot, so it finds the service only when the
service's own name has no dot in it.

What protobuf generates (descriptors, parsing, serializing, the call itself) is a parameter.
-/
import Flconc.FlconcPb.Codec
import Flconc.Lib.Text
import Mathlib.Data.List.Nodup
import Mathlib.Logic.Function.Basic

namespace Flconc.FlconcPb

open Wire Text

/-! ## Protobuf -/

/-- `google::protobuf::MethodDescriptor`. -/
structure MethodDescriptor where
  name : Bytes
  fullName : Bytes
  deriving DecidableEq

/-- What the dispatcher sets on `FlconcPbRpcController` before the call. -/
structure Controller where
  msgReq : Bytes
  methodName : Bytes
  methodFullName : Bytes

/-- `google::protobuf::Service` as the dispatcher uses it: the descriptor's name, methods and
`FindMethodByName`, the name and the parser of a method's request, and the call, with the
serialized response. -/
structure Service where
  fullName : Bytes
  methods : List MethodDescriptor
  findMethodByName : Bytes → Option MethodDescriptor
  requestName : MethodDescriptor → Bytes
  parseRequest : MethodDescriptor → Bytes → Bool
  callMethod : MethodDescriptor → Controller → Bytes → Option Bytes

/-! ## The registry -/

/-- `m_service_map`. -/
abbrev ServiceMap := Bytes → Option Service

def registerService (m : ServiceMap) (service : Service) : ServiceMap :=
  Function.update m service.fullName (some service)

/-- The registry after registering the services in order. -/
def registerAll (services : List Service) : ServiceMap :=
  services.foldl registerService fun _ => none

/-! ## Dispatching -/

def ERROR_FAILED_DESERIALIZE : Int := 10000003
def ERROR_FAILED_SERIALIZE : Int := 10000004
def ERROR_SERVICE_NOT_FOUND : Int := 10000008
def ERROR_METHOD_NOT_FOUND : Int := 10000009
def ERROR_PARSE_SERVICE_NAME : Int := 10000010

/-- The byte of `"."`. -/
def dot : UInt8 := 0x2E

/-- `parseServiceFullName`: the service and method names, split at the first dot. -/
def parseServiceFullName (fullName : Bytes) : Except Fault (Option (Bytes × Bytes)) :=
  if fullName = [] then .ok none
  else
    match find [dot] fullName with
    | none => .ok none
    | some i => do
      let serviceName ← substr fullName 0 i
      let methodName ← substr fullName (i + 1) (fullName.length - i - 1)
      return some (serviceName, methodName)

/-- Where the look-up of a request ends: in an error reply or at a method of a service. -/
inductive Target
  | refused (errCode : Int) (errInfo : Bytes)
  | found (service : Service) (method : MethodDescriptor) (methodName : Bytes)

/-- The first half of `dispatch`: parse the name, find the service, find the method. -/
def lookup (m : ServiceMap) (fullName : Bytes) : Except Fault Target := do
  match ← parseServiceFullName fullName with
  | none =>
    return .refused ERROR_PARSE_SERVICE_NAME (ascii "cannot parse service_name:[" ++ fullName ++ ascii "]")
  | some (serviceName, methodName) =>
    match m serviceName with
    | none =>
      return .refused ERROR_SERVICE_NOT_FOUND (ascii "not found service_name:[" ++ serviceName ++ ascii "]")
    | some service =>
      match service.findMethodByName methodName with
      | none =>
        return .refused ERROR_METHOD_NOT_FOUND (ascii "not found method_name:[" ++ methodName ++ ascii "]")
      | some method => return .found service method methodName

/-- The second half of `dispatch`: parse the request, call the method, serialize the response. -/
def serve (service : Service) (method : MethodDescriptor) (methodName : Bytes) (tmp reply : FlconcPbStruct) :
    FlconcPbStruct :=
  if service.parseRequest method tmp.pbData then
    match service.callMethod method ⟨reply.msgReq, methodName, tmp.serviceFullName⟩ tmp.pbData with
    | some pbData => { reply with pbData := pbData }
    | none =>
      { reply with pbData := [], errCode := ERROR_FAILED_SERIALIZE
                   errInfo := ascii "failed to serilize relpy data" }
  else
    { reply with errCode := ERROR_FAILED_SERIALIZE
                 errInfo := ascii "faild to parse request data, request.name:[" ++
                   service.requestName method ++ ascii "]" }

/-- The reply `FlconcPbRpcDispacther::dispatch` encodes. -/
def replyTo (m : ServiceMap) (genMsgNumber : Bytes) (tmp : FlconcPbStruct) : Except Fault FlconcPbStruct := do
  let reply : FlconcPbStruct :=
    { serviceFullName := tmp.serviceFullName
      msgReq := if tmp.msgReq = [] then genMsgNumber else tmp.msgReq }
  match ← lookup m tmp.serviceFullName with
  | .refused errCode errInfo => return { reply with errCode := errCode, errInfo := errInfo }
  | .found service method methodName => return serve service method methodName tmp reply

/-- `FlconcPbRpcDispacther::dispatch`: the reply goes to the connection's out buffer. When
`genMsgNumber` has returned the empty string, `encode` calls it once more. -/
def dispatch (m : ServiceMap) (genMsgNumber genMsgNumber' : Bytes) (tmp : FlconcPbStruct) (out : TcpBuffer) :
    Except Fault TcpBuffer := do
  let reply ← replyTo m genMsgNumber tmp
  let (out, _) ← encode genMsgNumber' out reply
  return out

/-- The packet `FlconcPbRpcChannel::CallMethod` sends: the message number is the controller's, else
the running request's, else a new one. -/
def callMethodPacket (method : MethodDescriptor) (msgSeq runTimeMsgNo genMsgNumber pbData : Bytes) :
    FlconcPbStruct :=
  { serviceFullName := method.fullName
    pbData := pbData
    msgReq := if msgSeq ≠ [] then msgSeq else if runTimeMsgNo ≠ [] then runTimeMsgNo else genMsgNumber }

/-! ## The registry and the name -/

/-- Registering leaves the other names alone. -/
theorem foldl_registerService_of_notMem {name : Bytes} {services : List Service} {m : ServiceMap}
    (h : name ∉ services.map (·.fullName)) : services.foldl registerService m name = m name := by
  induction services generalizing m with
  | nil => rfl
  | cons T rest ih =>
    obtain ⟨hT, hrest⟩ := not_or.1 (List.mem_cons.not.1 h)
    rw [List.foldl_cons, ih hrest]
    exact Function.update_of_ne hT _ _

theorem foldl_registerService {services : List Service} {S : Service} :
    ∀ {m : ServiceMap}, (services.map (·.fullName)).Nodup → S ∈ services →
      services.foldl registerService m S.fullName = some S := by
  induction services with
  | nil => intro m _ h; cases h
  | cons T rest ih =>
    intro m hn h
    obtain ⟨hT, hn⟩ := List.nodup_cons.1 hn
    rcases List.mem_cons.1 h with rfl | h
    · -- later registrations are under other names
      rw [List.foldl_cons, foldl_registerService_of_notMem hT]
      exact Function.update_self _ _ _
    · exact ih hn h

theorem registerAll_self {services : List Service} (hn : (services.map (·.fullName)).Nodup) {S : Service}
    (h : S ∈ services) : registerAll services S.fullName = some S :=
  foldl_registerService hn h

/-- Every service is stored under its own full name. -/
def ServiceMap.Named (m : ServiceMap) : Prop := ∀ n S, m n = some S → S.fullName = n

theorem ServiceMap.Named.foldl_registerService {m : ServiceMap} (hm : m.Named) (services : List Service) :
    (services.foldl registerService m).Named := by
  induction services generalizing m with
  | nil => exact hm
  | cons T rest ih =>
    refine ih fun n S hS => ?_
    unfold registerService at hS
    by_cases hn : n = T.fullName
    · subst hn
      rw [Function.update_self] at hS
      cases hS
      rfl
    · rw [Function.update_of_ne hn] at hS
      exact hm n S hS

theorem registerAll_name {services : List Service} {n : Bytes} {S : Service}
    (h : registerAll services n = some S) : S.fullName = n :=
  ServiceMap.Named.foldl_registerService (fun _ _ hS => by cases hS) services n S h

/-- The name is split at its first dot. -/
theorem parseServiceFullName_eq {a b : Bytes} (h : dot ∉ a) :
    parseServiceFullName (a ++ dot :: b) = .ok (some (a, b)) := by
  have hlen : (a ++ dot :: b).length = a.length + 1 + b.length := by
    simp only [List.length_append, List.length_cons]
    omega
  have hb : (a ++ dot :: b).drop (a.length + 1) = b := by
    rw [← List.drop_drop, List.drop_left]
    rfl
  unfold parseServiceFullName
  rw [if_neg (by simp), find_char h]
  dsimp only
  rw [substr_front, substr_back (by omega) (by omega), List.take_left, hb]
  rfl

theorem parseServiceFullName_dotless {fullName : Bytes} (h : dot ∉ fullName) :
    parseServiceFullName fullName = .ok none := by
  unfold parseServiceFullName
  split
  · rfl
  · cases hf : find [dot] fullName with
    | none => rfl
    | some i =>
      obtain ⟨a, b, rfl, -⟩ := find_split hf
      exact absurd (by simp) h

/-- A name is split or it is not; nothing is thrown. -/
theorem parseServiceFullName_total (fullName : Bytes) :
    parseServiceFullName fullName = .ok none ∨ ∃ p, parseServiceFullName fullName = .ok (some p) := by
  unfold parseServiceFullName
  split
  · exact .inl rfl
  · split
    · exact .inl rfl
    · rename_i i hi
      have hbound : i + 1 ≤ fullName.length := find_bound hi
      rw [substr_front, ok_bind, substr_back hbound (by omega)]
      exact .inr ⟨_, rfl⟩

/-- `dispatch` selects this service and this method. -/
def Selects (m : ServiceMap) (fullName : Bytes) (S : Service) (method : MethodDescriptor) : Prop :=
  ∃ methodName, lookup m fullName = .ok (.found S method methodName)

/-- The selected service and method are the ones that serve the request. -/
theorem replyTo_of_selects {m : ServiceMap} {tmp : FlconcPbStruct} {S : Service} {method : MethodDescriptor}
    (h : Selects m tmp.serviceFullName S method) (genMsgNumber : Bytes) :
    ∃ methodName, replyTo m genMsgNumber tmp = .ok (serve S method methodName tmp
      { serviceFullName := tmp.serviceFullName
        msgReq := if tmp.msgReq = [] then genMsgNumber else tmp.msgReq }) := by
  obtain ⟨methodName, h⟩ := h
  refine ⟨methodName, ?_⟩
  unfold replyTo
  dsimp only
  rw [h, ok_bind]
  rfl

/-- Client and server agree on a method exactly when the full name of its service has no dot. -/
theorem selects_iff (services : List Service) (hdistinct : (services.map (·.fullName)).Nodup)
    (hfull : ∀ S ∈ services, ∀ m ∈ S.methods, m.fullName = S.fullName ++ dot :: m.name)
    (hfind : ∀ S ∈ services, ∀ m ∈ S.methods, S.findMethodByName m.name = some m)
    {S : Service} (hS : S ∈ services) {m : MethodDescriptor} (hm : m ∈ S.methods)
    (msgSeq runTimeMsgNo genMsgNumber pbData : Bytes) :
    Selects (registerAll services)
      (callMethodPacket m msgSeq runTimeMsgNo genMsgNumber pbData).serviceFullName S m ↔
        dot ∉ S.fullName := by
  show (∃ n, lookup _ m.fullName = .ok (.found S m n)) ↔ _
  rw [hfull S hS m hm]
  unfold lookup
  constructor
  · rintro ⟨n, h⟩ hdot
    -- the name is split inside the package, and what is stored there has the shorter name
    obtain ⟨a, b, hab, ha⟩ := exists_first hdot
    rw [hab, List.append_assoc, List.cons_append, parseServiceFullName_eq ha, ok_bind] at h
    dsimp only at h
    split at h
    · cases h
    · rename_i T hT
      split at h
      · cases h
      · cases h
        have hname := registerAll_name hT
        rw [hab] at hname
        simp at hname
  · intro hdot
    rw [parseServiceFullName_eq hdot, ok_bind]
    dsimp only
    rw [registerAll_self hdistinct hS]
    dsimp only
    rw [hfind S hS m hm]
    exact ⟨m.name, rfl⟩

/-- An echo service with the given name and methods. -/
def echoService (fullName : Bytes) (names : List Bytes) : Service :=
  let methods : List MethodDescriptor := names.map fun n => ⟨n, fullName ++ dot :: n⟩
  { fullName := fullName
    methods := methods
    findMethodByName := fun n => methods.find? fun m => m.name = n
    requestName := fun _ => []
    parseRequest := fun _ _ => true
    callMethod := fun _ _ pbData => some pbData }

theorem selects_echo :
    Selects (registerAll [echoService (ascii "QueryService") [ascii "query_age"]])
      (callMethodPacket ⟨ascii "query_age", ascii "QueryService.query_age"⟩ [] [] [] []).serviceFullName
      (echoService (ascii "QueryService") [ascii "query_age"])
      ⟨ascii "query_age", ascii "QueryService.query_age"⟩ ↔ dot ∉ ascii "QueryService" :=
  selects_iff [echoService (ascii "QueryService") [ascii "query_age"]] (by simp) (by simp [echoService])
    (by simp [echoService]) (S := echoService (ascii "QueryService") [ascii "query_age"])
    (by simp) (m := ⟨ascii "query_age", ascii "QueryService.query_age"⟩) (by decide) [] [] [] []

/-- The service `S` of package `a`, with the method `m`, is not found under the name the client sends. -/
theorem not_selects_packaged :
    ¬ Selects (registerAll [echoService (ascii "a.S") [ascii "m"]])
      (callMethodPacket ⟨ascii "m", ascii "a.S.m"⟩ [] [] [] []).serviceFullName
      (echoService (ascii "a.S") [ascii "m"]) ⟨ascii "m", ascii "a.S.m"⟩ := by
  rintro ⟨n, h⟩
  -- the dispatcher looks for a service `a`
  have hl : lookup (registerAll [echoService (ascii "a.S") [ascii "m"]]) (ascii "a.S.m") =
      .ok (.refused ERROR_SERVICE_NOT_FOUND (ascii "not found service_name:[a]")) := by rfl
  have h' := hl.symm.trans h
  cases h'

end Flconc.FlconcPb
