/-
The caller's side of an rpc: `FlconcPbRpcController` of net/flconcpb/flconcpb_rpc_controller.cc and
`FlconcPbRpcChannel::CallMethod` of net/flconcpb/flconcpb_rpc_channel.cc, in calls one after the other that
use one controller, with `Reset` between them.

`Reset` does nothing, so the error of a call stays until another one replaces it; and a request that
cannot be serialized is no error. So the controller tells the truth exactly when no call that succeeds
comes behind one that reports an error, and every request that cannot be serialized does.
-/
import Flconc.FlconcPb.Dispatcher
import Flconc.FlconcPb.Packet
import Flconc.Lib.Run

namespace Flconc.FlconcPb

open Wire Text

/-! ## The controller -/

/-- `FlconcPbRpcController`, as `CallMethod` uses it. -/
structure RpcController where
  errorCode : Int := 0
  errorInfo : Bytes := []
  msgReq : Bytes := []
  isFailed : Bool := false
  deriving DecidableEq

namespace RpcController

def reset (c : RpcController) : RpcController := c

def setFailed (c : RpcController) (reason : Bytes) : RpcController := { c with isFailed := true, errorInfo := reason }

def setErrorCode (c : RpcController) (errorCode : Int) : RpcController := { c with errorCode := errorCode }

def setMsgReq (c : RpcController) (msgReq : Bytes) : RpcController := { c with msgReq := msgReq }

def setError (c : RpcController) (errCode : Int) (errInfo : Bytes) : RpcController :=
  (c.setFailed errInfo).setErrorCode errCode

@[simp] theorem setError_errorCode (c : RpcController) (errCode : Int) (errInfo : Bytes) :
    (c.setError errCode errInfo).errorCode = errCode := rfl

end RpcController

/-! ## The call -/

def ERROR_FAILED_ENCODE : Int := 10000005

/-- What a call meets: its method, what serializing the request gives, the message number of the running
request and new ones, what `sendAndRecvFlconcPb` returns, with the client's error text and the reply, and
which texts the response parses. -/
structure RpcCall where
  method : MethodDescriptor
  serialized : Option Bytes
  runTimeMsgNo : Bytes
  genMsgNumber : Bytes
  genMsgNumber' : Bytes
  rt : Int
  errInfo : Bytes
  resData : FlconcPbStruct
  parse : Bytes → Bool

/-- `FlconcPbRpcChannel::CallMethod`: the controller afterwards. The client and its buffer are new. -/
def RpcController.callMethod (c : RpcController) (call : RpcCall) : Except Fault RpcController :=
  match call.serialized with
  -- only logged
  | none => .ok c
  | some pbData => do
    let pbStruct := callMethodPacket call.method c.msgReq call.runTimeMsgNo call.genMsgNumber pbData
    let c := if c.msgReq = [] then c.setMsgReq pbStruct.msgReq else c
    let (_, pbStruct) ← encode call.genMsgNumber' (.ofSize 128) pbStruct
    if ¬ pbStruct.encodeSucc then return c.setError ERROR_FAILED_ENCODE (ascii "encode flconcpb data error")
    else if call.rt ≠ 0 then return c.setError call.rt call.errInfo
    else if ¬ call.parse call.resData.pbData then
      return c.setError ERROR_FAILED_DESERIALIZE (ascii "failed to deserialize data from server")
    else if call.resData.errCode ≠ 0 then return c.setError call.resData.errCode call.resData.errInfo
    else return c

namespace RpcCall

/-- The request was sent and the reply received. -/
structure Replied (call : RpcCall) : Prop where
  serialized : call.serialized ≠ none
  encoded : call.method.fullName ≠ []
  received : call.rt = 0

/-- The reply reports no error and was parsed into the response. -/
structure Succeeds (call : RpcCall) : Prop extends Replied call where
  parsed : call.parse call.resData.pbData = true
  accepted : call.resData.errCode = 0

/-- The request was serialized, and something went wrong behind that. -/
def Reports (call : RpcCall) : Prop := call.serialized ≠ none ∧ ¬ call.Succeeds

end RpcCall

/-- A call that reports sets an error code, that of the reply if this is all that went wrong; any other
leaves the error code. -/
theorem RpcController.callMethod_cases {c c' : RpcController} {call : RpcCall} (h : c.callMethod call = .ok c') :
    (call.Reports ∧ c'.errorCode ≠ 0 ∧ (call.Replied → call.parse call.resData.pbData = true →
      call.resData.errCode ≠ 0 → c'.errorCode = call.resData.errCode)) ∨
    ((call.serialized = none ∨ call.Succeeds) ∧ c'.errorCode = c.errorCode) := by
  unfold callMethod at h
  cases hser : call.serialized with
  | none =>
    rw [hser] at h
    cases h
    exact .inr ⟨.inl rfl, rfl⟩
  | some pbData =>
    rw [hser] at h
    have hne : call.serialized ≠ none := by rw [hser]; nofun
    obtain ⟨⟨b, d⟩, henc, h⟩ := bind_eq_ok.1 h
    have hflag := encodeSucc_iff henc
    have hname : (callMethodPacket call.method c.msgReq call.runTimeMsgNo call.genMsgNumber pbData).serviceFullName =
      call.method.fullName := rfl
    rw [hname] at hflag
    dsimp only at h
    split at h
    · rename_i hfail
      cases h
      refine .inl ⟨⟨hne, fun hs => hfail (hflag.2 hs.encoded)⟩, ?_, fun hr => absurd (hflag.2 hr.encoded) hfail⟩
      rw [setError_errorCode]
      decide
    rename_i hok
    have hfull := hflag.1 (not_not.1 hok)
    split at h
    · rename_i hrt
      cases h
      exact .inl ⟨⟨hne, fun hs => hrt hs.received⟩, hrt, fun hr => absurd hr.received hrt⟩
    rename_i hrt
    split at h
    · rename_i hparse
      cases h
      refine .inl ⟨⟨hne, fun hs => hparse hs.parsed⟩, ?_, fun _ hp => absurd hp hparse⟩
      rw [setError_errorCode]
      decide
    rename_i hparse
    split at h
    · rename_i hcode
      cases h
      exact .inl ⟨⟨hne, fun hs => hcode hs.accepted⟩, hcode, fun _ _ _ => rfl⟩
    · rename_i hcode
      cases h
      refine .inr ⟨.inr ⟨⟨hne, hfull, not_not.1 hrt⟩, not_not.1 hparse, not_not.1 hcode⟩, ?_⟩
      split <;> rfl

/-! ## Calls with one controller -/

/-- The controller, and the calls made with it, the last one first. -/
structure RpcSession where
  controller : RpcController := {}
  calls : List RpcCall := []

/-- The next call, if it returns. -/
def RpcSession.step (s : RpcSession) (call : RpcCall) : Option RpcSession :=
  match s.controller.reset.callMethod call with
  | .ok c => some ⟨c, call :: s.calls⟩
  | .error _ => none

/-- `ErrorCode` is 0 for a call that succeeded only, and that of the reply if nothing else went wrong. -/
structure TellsTruth (c : RpcController) (call : RpcCall) : Prop where
  zero : c.errorCode = 0 ↔ call.Succeeds
  reply : call.Replied → call.resData.errCode ≠ 0 → call.resData.pbData = [] → call.parse [] = true →
    c.errorCode = call.resData.errCode

/-- The controller tells the truth about the last call. -/
def RpcSession.Truthful (s : RpcSession) : Prop := ∀ call ∈ s.calls.head?, TellsTruth s.controller call

/-- A call that succeeds comes behind none that reports an error, and one whose request cannot be
serialized comes behind one. -/
def NoErrorLeft (s : RpcSession) (call : RpcCall) : Prop :=
  (call.Succeeds → ∀ c ∈ s.calls, ¬ c.Reports) ∧ (call.serialized = none → ∃ c ∈ s.calls, c.Reports)

/-- The error code is that of an earlier call. -/
def RpcSession.Inv (s : RpcSession) : Prop := s.controller.errorCode ≠ 0 ↔ ∃ c ∈ s.calls, c.Reports

theorem RpcSession.step_cases {s s' : RpcSession} {call : RpcCall} (h : s.step call = some s') :
    s'.calls = call :: s.calls ∧ s.controller.callMethod call = .ok s'.controller := by
  unfold step RpcController.reset at h
  split at h
  · rename_i c hc
    cases h
    exact ⟨rfl, hc⟩
  · cases h

theorem RpcSession.step_inv {s s' : RpcSession} {call : RpcCall} (hi : s.Inv) (h : s.step call = some s') : s'.Inv := by
  obtain ⟨hcalls, hcall⟩ := step_cases h
  unfold Inv at hi ⊢
  rw [hcalls]
  rcases RpcController.callMethod_cases hcall with ⟨hrep, hne, -⟩ | ⟨hno, heq⟩
  · exact iff_of_true hne ⟨call, List.mem_cons_self, hrep⟩
  · have hnot : ¬ call.Reports := by
      rintro ⟨hser, hs⟩
      rcases hno with h | h
      · exact hser h
      · exact hs h
    rw [heq, hi]
    simp [hnot]

/-- After one call. -/
theorem RpcSession.step_truthful_iff {s s' : RpcSession} {call : RpcCall} (hi : s.Inv) (h : s.step call = some s') :
    s'.Truthful ↔ NoErrorLeft s call := by
  obtain ⟨hcalls, hcall⟩ := step_cases h
  have hlast : s'.Truthful ↔ TellsTruth s'.controller call := by
    unfold Truthful
    rw [hcalls]
    simp
  rw [hlast]
  unfold Inv at hi
  rcases RpcController.callMethod_cases hcall with ⟨⟨hser, hs⟩, hne, hreply⟩ | ⟨hno, heq⟩
  · refine iff_of_true ⟨iff_of_false hne hs, fun hr hcode hempty hparse => ?_⟩
      ⟨fun h => absurd h hs, fun h => absurd h hser⟩
    exact hreply hr (hempty ▸ hparse) hcode
  · have hzero : s'.controller.errorCode = 0 ↔ ∀ c ∈ s.calls, ¬ c.Reports := by
      rw [heq, ← not_iff_not, ← ne_eq, hi]
      push Not
      rfl
    rcases hno with hnone | hs
    · have hfail : ¬ call.Succeeds := fun hs => hs.serialized hnone
      constructor
      · rintro ⟨h0, -⟩
        refine ⟨fun hs => absurd hs hfail, fun _ => ?_⟩
        exact hi.1 fun h => hfail (h0.1 (heq.trans h))
      · rintro ⟨-, hex⟩
        have hne := hi.2 (hex hnone)
        exact ⟨iff_of_false (heq ▸ hne) hfail, fun hr => absurd hnone hr.serialized⟩
    · constructor
      · rintro ⟨h0, -⟩
        exact ⟨fun _ => hzero.1 (h0.2 hs), fun hnone => absurd hnone hs.serialized⟩
      · rintro ⟨hall, -⟩
        exact ⟨iff_of_true (hzero.2 (hall hs)) hs, fun _ hcode => absurd hs.accepted hcode⟩

/-- The controller tells the truth after every call of a sequence exactly when no call that succeeds, and
every one whose request cannot be serialized, comes behind one that reports an error. -/
theorem truthful_iff (calls : List RpcCall) :
    Lts.Always RpcSession.step RpcSession.Truthful {} calls ↔ Lts.Along RpcSession.step NoErrorLeft {} calls := by
  have hinv : RpcSession.Inv {} := by
    refine iff_of_false (not_not_intro rfl) ?_
    rintro ⟨c, hc, -⟩
    exact absurd hc List.not_mem_nil
  have htruth : RpcSession.Truthful {} := fun call hcall => absurd hcall (Option.not_mem_none call)
  exact Lts.always_iff_along (fun s call s' => RpcSession.step_inv)
    (fun s call s' hi _ => RpcSession.step_truthful_iff hi) hinv htruth

/-- Nobody listens at the first call; the second one gets its reply. -/
def refusedCall : RpcCall where
  method := ⟨[0x6D], [0x53, 0x2E, 0x6D]⟩
  serialized := some []
  runTimeMsgNo := []
  genMsgNumber := [0x31]
  genMsgNumber' := []
  rt := 10000001
  errInfo := []
  resData := {}
  parse := fun _ => true

def answeredCall : RpcCall := { refusedCall with rt := 0 }

/-- The controller after the first call, and after both. -/
def refusedController : RpcController := { errorCode := 10000001, msgReq := [0x31], isFailed := true }

theorem callMethod_refusedCall : RpcController.callMethod {} refusedCall = .ok refusedController := by
  -- the fields are compared, not the controllers: their decidable equality evaluates the call many times
  have hfields : (RpcController.callMethod {} refusedCall).map
      (fun c => (c.errorCode, c.errorInfo, c.msgReq, c.isFailed)) = .ok (10000001, [], [0x31], true) := by
    decide +kernel
  cases hc : RpcController.callMethod {} refusedCall with
  | error e =>
    rw [hc] at hfields
    cases hfields
  | ok c =>
    rw [hc] at hfields
    cases c
    cases hfields
    rfl

/-- The error of the first call is still there after the second one. -/
theorem not_truthful_answered : ¬ ∀ calls, Lts.Always RpcSession.step RpcSession.Truthful {} calls := by
  intro h
  have h₂ : refusedController.callMethod answeredCall = .ok refusedController := by decide +kernel
  have hs₁ : RpcSession.step {} refusedCall = some ⟨refusedController, [refusedCall]⟩ := by
    unfold RpcSession.step RpcController.reset
    rw [callMethod_refusedCall]
  have hs₂ : RpcSession.step ⟨refusedController, [refusedCall]⟩ answeredCall =
      some ⟨refusedController, [answeredCall, refusedCall]⟩ := by
    unfold RpcSession.step RpcController.reset
    rw [h₂]
  have htruth := ((h [refusedCall, answeredCall]).2 _ hs₁).2 _ hs₂ answeredCall rfl
  have hzero : (10000001 : Int) = 0 := htruth.zero.2 ⟨⟨nofun, nofun, rfl⟩, rfl, rfl⟩
  cases hzero

end Flconc.FlconcPb
