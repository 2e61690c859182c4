/-
Responses to decoded requests: no header value that the codec reads holds a line break, so the
Connection value that a servlet echoes stays in its line, and the response reads back part for part. It is
there as a whole exactly when the out buffer has room for it: `encode` cuts the length to an `int`.
-/
import Flconc.Http.Response

namespace Flconc.Http

open Wire Text

/-! ## Decoded requests -/

/-- What the parser puts into a request is free of line breaks. -/
structure CleanRequest (r : HttpRequest) : Prop where
  version : r.version = ascii "HTTP/1.1" ∨ r.version = ascii "HTTP/1.0"
  header : ∀ p ∈ r.header, ∀ c ∈ p.2, c ∉ CRLF

theorem parseHttpRequestLine_version {r : HttpRequest} {tmp : Bytes}
    (h : parseHttpRequestLine {} tmp = .ok (true, r)) :
    (r.version = ascii "HTTP/1.1" ∨ r.version = ascii "HTTP/1.0") ∧ r.header = [] := by
  unfold parseHttpRequestLine at h
  split at h
  · split at h
    · cases h
    obtain ⟨method, -, h⟩ := bind_eq_ok.1 h
    split at h
    · cases h
    obtain ⟨version, -, h⟩ := bind_eq_ok.1 h
    dsimp only at h
    split at h
    · cases h
    rename_i hversion
    obtain ⟨url, -, h⟩ := bind_eq_ok.1 h
    obtain ⟨ok, r', hr', ht⟩ := parseTarget_cases { method := some _, version := version.map toupper } rfl url
    rw [hr'] at h
    cases h
    rw [ht.version, ht.header]
    refine ⟨?_, rfl⟩
    by_contra hne
    exact hversion (not_or.1 hne)
  · cases h

theorem parseHttpRequestHeader_clean {r r' : HttpRequest} {str : Bytes} (hr : r.header = [])
    (h : parseHttpRequestHeader r str = .ok r') :
    r'.version = r.version ∧ ∀ p ∈ r'.header, ∀ c ∈ p.2, c ∉ CRLF := by
  unfold parseHttpRequestHeader at h
  split at h
  · cases h
    rw [hr]
    exact ⟨rfl, nofun⟩
  · obtain ⟨header, hheader, h⟩ := bind_eq_ok.1 h
    cases h
    refine ⟨rfl, splitStrToMap_free hheader ?_⟩
    rw [hr]
    nofun

theorem parseHttpRequestContent_rest (requset : HttpRequest) (str : Bytes) :
    (parseHttpRequestContent requset str).version = requset.version ∧
      (parseHttpRequestContent requset str).header = requset.header := by
  unfold parseHttpRequestContent
  split <;> exact ⟨rfl, rfl⟩

theorem parseContent_header {request r : HttpRequest} {strs tmp : Bytes} {n m : Int}
    (h : parseContent request strs tmp n = .complete r m) : r.version = request.version ∧
      r.header = request.header.set (ascii "Content-Length") (request.header.get (ascii "Content-Length")) := by
  unfold parseContent at h
  dsimp only at h
  split at h
  · cases h
  split at h
  · cases h
    exact parseHttpRequestContent_rest _ _
  · cases h
    exact ⟨rfl, rfl⟩

theorem parse_complete_clean {strs : Bytes} {r : HttpRequest} {n : Int} (h : parse {} strs = .ok (.complete r n)) :
    CleanRequest r := by
  rcases parse_cases h with ⟨r', h'⟩ | ⟨h', -⟩ | ⟨i, j, r₁, r₂, hh⟩
  · cases h'
  · cases h'
  · rw [hh.parse_eq] at h
    obtain ⟨hversion, hheader⟩ := parseContent_header (Except.ok.inj h)
    obtain ⟨hv₁, hh₁⟩ := parseHttpRequestLine_version hh.requestLine
    obtain ⟨hv₂, hclean⟩ := parseHttpRequestHeader_clean hh₁ hh.header
    refine ⟨by rw [hversion, hv₂]; exact hv₁, fun p hp => ?_⟩
    rw [hheader] at hp
    rcases StringMap.mem_set hp with rfl | hp
    · rcases StringMap.get_cases r₂.header (ascii "Content-Length") with hget | hget
      · show ∀ c ∈ r₂.header.get _, _
        rw [hget]
        nofun
      · exact hclean _ hget
    · exact hclean p hp

/-- A request with a path that `decode` has reported. -/
theorem decode_clean {b b' : TcpBuffer} (hb : b.WF) {r : HttpRequest} (h : decode b {} = .ok (b', r))
    (hsucc : r.decodeSucc = true) (hpath : r.path ≠ []) : CleanRequest r := by
  rcases decode_cases hb h hsucc with ⟨-, -, rfl⟩ | ⟨r', n, hp, -, rfl⟩
  · exact absurd rfl hpath
  · obtain ⟨hversion, hheader⟩ := parse_complete_clean hp
    exact ⟨hversion, hheader⟩

theorem CleanRequest.get {r : HttpRequest} (hr : CleanRequest r) (key : Bytes) :
    ∀ c ∈ r.header.get key, c ∉ CRLF := by
  rcases StringMap.get_cases r.header key with h | h
  · rw [h]
    nofun
  · exact hr.header _ h

/-! ## Filled responses -/

/-- The calls a servlet makes on the response. -/
inductive Setter
  | code (code : Int)
  | contentType (value : Bytes)
  | body (body : Bytes)

def Setter.apply (res : HttpResponse) : Setter → HttpResponse
  | .code n => setHttpCode res n
  | .contentType value => setHttpContentType res value
  | .body text => setHttpBody res text

/-- A content type is free of line breaks. -/
def Setter.Clean : Setter → Prop
  | .contentType value => ∀ c ∈ value, c ∉ CRLF
  | _ => True

/-- The servlet fills the response by the setters, the body last. -/
def Fills (handle : Servlet) : Prop :=
  ∀ req res, ∃ (calls : List Setter) (body : Bytes), (∀ call ∈ calls, call.Clean) ∧
    handle req res = setHttpBody (calls.foldl Setter.apply res) body

/-- A response on its way through the setters. -/
structure Filling (req : HttpRequest) (r : HttpResponse) : Prop where
  version : r.version = req.version
  info : ∀ c ∈ r.info, c ∉ CRLF
  header : ∀ p ∈ r.header, CleanPair p
  connection : (ascii "Connection", req.header.get (ascii "Connection")) ∈ r.header

theorem StringMap.mem_set_of_ne {key value : Bytes} {p : Bytes × Bytes} (hp : p.1 ≠ key) :
    ∀ {m : StringMap}, p ∈ m → p ∈ m.set key value
  | (k', v) :: m, h => by
    unfold StringMap.set
    split
    · rename_i hk
      rcases List.mem_cons.1 h with rfl | h
      · exact absurd hk.symm hp
      · exact List.mem_cons_of_mem _ h
    split
    · exact List.mem_cons_of_mem _ h
    · rcases List.mem_cons.1 h with rfl | h
      · exact List.mem_cons_self
      · exact List.mem_cons_of_mem _ (mem_set_of_ne hp h)

theorem Filling.set {req : HttpRequest} {r : HttpResponse} (hr : Filling req r) {key value : Bytes}
    (hkey : key ≠ ascii "Connection") (hp : CleanPair (key, value)) :
    Filling req { r with header := r.header.set key value } := by
  refine ⟨hr.version, hr.info, fun p hp' => ?_, StringMap.mem_set_of_ne (Ne.symm hkey) hr.connection⟩
  rcases StringMap.mem_set hp' with rfl | hp'
  · exact hp
  · exact hr.header p hp'

theorem httpCodeToString_free (code : Int) : ∀ c ∈ httpCodeToString code, c ∉ CRLF := by
  unfold httpCodeToString
  repeat' split
  all_goals decide +kernel

theorem digits_clean {key : Bytes} (hne : key ≠ []) (hfree : ∀ c ∈ key, c ≠ COLON ∧ c ∉ CRLF ∧ c ≠ 0) (n : Nat) :
    CleanPair (key, Decimal.digits n) := by
  refine ⟨hne, hfree, fun c hc => ?_⟩
  have h := (intText_free n c)
  rw [show intText n = Decimal.digits n by unfold intText; rw [if_neg (by omega), Int.natAbs_natCast]] at h
  exact (h hc).2

theorem Filling.apply {req : HttpRequest} {r : HttpResponse} (hr : Filling req r) {call : Setter} (hcall : call.Clean) :
    Filling req (Setter.apply r call) := by
  cases call with
  | code n => exact ⟨hr.version, httpCodeToString_free n, hr.header, hr.connection⟩
  | contentType value =>
    have hne : ascii "Content-Type" ≠ ascii "Connection" := by decide
    exact hr.set hne
      ⟨show ascii "Content-Type" ≠ [] by decide, show ∀ c ∈ ascii "Content-Type", _ by decide +kernel, hcall⟩
  | body text =>
    have hne : ascii "Content-Length" ≠ ascii "Connection" := by decide
    have h := hr.set hne (digits_clean (by decide) (by decide +kernel) text.length)
    exact ⟨h.version, h.info, h.header, h.connection⟩

theorem Filling.foldl {req : HttpRequest} {r : HttpResponse} (hr : Filling req r) {calls : List Setter}
    (hcalls : ∀ call ∈ calls, call.Clean) : Filling req (calls.foldl Setter.apply r) := by
  induction calls generalizing r with
  | nil => exact hr
  | cons call calls ih =>
    obtain ⟨hcall, hcalls⟩ := List.forall_mem_cons.1 hcalls
    exact ih (hr.apply hcall) hcalls

theorem setCommParam_filling {req : HttpRequest} (hreq : CleanRequest req) (code : Int) :
    Filling req (setCommParam req { code := code }).2 := by
  refine ⟨rfl, nofun, fun p hp => ?_, List.mem_singleton_self _⟩
  rw [List.mem_singleton.1 hp]
  exact ⟨show ascii "Connection" ≠ [] by decide, show ∀ c ∈ ascii "Connection", _ by decide +kernel, hreq.get _⟩

/-- A response that ends with its length set. -/
theorem Filling.clean {req : HttpRequest} (hreq : CleanRequest req) {r : HttpResponse} (hr : Filling req r)
    (hlen : r.header.get (ascii "Content-Length") = Decimal.digits r.body.length) : Clean r := by
  refine ⟨?_, hr.info, hr.header, List.ne_nil_of_mem hr.connection, hlen⟩
  rw [hr.version]
  rcases hreq.version with h | h <;> rw [h] <;> decide +kernel

theorem setHttpBody_clean {req : HttpRequest} (hreq : CleanRequest req) {r : HttpResponse} (hr : Filling req r)
    (body : Bytes) : Clean (setHttpBody r body) ∧ Filling req (setHttpBody r body) := by
  have hcall : (Setter.body body).Clean := trivial
  have h : Filling req (setHttpBody r body) := hr.apply hcall
  refine ⟨h.clean hreq ?_, h⟩
  show (r.header.set (ascii "Content-Length") _).get (ascii "Content-Length") = _
  rw [StringMap.get_set, if_pos rfl]
  rfl

theorem contentTypeText_free : ∀ c ∈ contentTypeText, c ∉ CRLF := by decide +kernel

/-- `handleNotFound` is the work of the setters. -/
theorem handleNotFound_eq (res : HttpResponse) : handleNotFound res =
    setHttpBody ([Setter.code HTTP_NOTFOUND, .contentType contentTypeText].foldl Setter.apply res)
      (defaultHtmlTemplate (intText HTTP_NOTFOUND) (httpCodeToString HTTP_NOTFOUND)) := rfl

theorem respond_clean {servlets : Bytes → Option Servlet}
    (hservlets : ∀ path handle, servlets path = some handle → Fills handle) {req : HttpRequest}
    (hreq : CleanRequest req) (hpath : req.path ≠ []) (code : Int) :
    Clean (respond servlets req code) ∧ Filling req (respond servlets req code) := by
  have hcomm := setCommParam_filling hreq code
  unfold respond
  dsimp only
  rw [if_pos hpath]
  split
  · rw [handleNotFound_eq]
    refine setHttpBody_clean hreq (hcomm.foldl ?_) _
    exact List.forall_mem_cons.2 ⟨trivial, List.forall_mem_cons.2 ⟨contentTypeText_free, nofun⟩⟩
  · rename_i handle hhandle
    obtain ⟨calls, body, hcalls, heq⟩ := hservlets _ handle hhandle (setCommParam req { code := code }).1
      (setCommParam req { code := code }).2
    rw [heq]
    exact setHttpBody_clean hreq (hcomm.foldl hcalls) body

/-! ## On the wire -/

/-- The bytes that `dispatch` appends to the out buffer read back as the response, with the Connection value of
the request in it, and nothing is left over. -/
def Framed (servlets : Bytes → Option Servlet) (req : HttpRequest) (code : Int) (out : TcpBuffer) : Prop :=
  let response := respond servlets req code
  ∃ out' bytes, dispatch servlets req code out = .ok out' ∧ out'.readable = out.readable ++ bytes ∧
    readResponse bytes = some ⟨req.version, response.code, response.header, response.body, []⟩ ∧
    (ascii "Connection", req.header.get (ascii "Connection")) ∈ response.header

theorem writeText_room {out : TcpBuffer} (hout : out.WF) {text : Bytes} (hroom : out.Room text.length) :
    ∃ out', writeText out text = .ok out' ∧ out'.Holds (out.readable ++ text) := by
  have hlt := hroom.lt hout
  obtain ⟨out', h, hh, -⟩ := TcpBuffer.writeToBuffer_room hout hroom
  have hsize : wrap32 (text.length : Int) = text.length := wrap32_of_inInt32 ⟨by omega, by omega⟩
  refine ⟨out', ?_, hh⟩
  unfold writeText
  rw [hsize]
  dsimp only
  rw [if_pos (by omega), Int.toNat_natCast, List.take_length]
  exact h

/-- Without room nothing is written, or not all of it. -/
theorem writeText_noRoom {out : TcpBuffer} (hout : out.WF) {text : Bytes} (hroom : ¬ out.Room text.length)
    {out' : TcpBuffer} (h : writeText out text = .ok out') :
    ∃ bytes, bytes <+: text ∧ bytes ≠ text ∧ out'.readable = out.readable ++ bytes := by
  unfold writeText at h
  dsimp only at h
  split at h
  · rename_i hsize
    by_cases hroom' : out.Room (text.take (wrap32 text.length).toNat).length
    · obtain ⟨out'', hw, hh, -⟩ := TcpBuffer.writeToBuffer_room hout hroom'
      rw [hw] at h
      cases h
      exact ⟨_, List.take_prefix _ _, fun heq => hroom (heq ▸ hroom'), hh.queue⟩
    · rw [TcpBuffer.writeToBuffer_noRoom hroom'] at h
      cases h
  · cases h

theorem dispatch_eq {servlets : Bytes → Option Servlet} {req : HttpRequest} {code : Int} {out out' : TcpBuffer} :
    dispatch servlets req code out = .ok out' ↔
      writeText out (responseText (respond servlets req code)) = .ok out' := by
  unfold dispatch encode
  cases writeText out (responseText (respond servlets req code)) with
  | error e => exact ⟨nofun, nofun⟩
  | ok out'' => exact Iff.rfl

/-- What is framed was written as a whole. -/
theorem room_of_framed {servlets : Bytes → Option Servlet} {req : HttpRequest} {code : Int} {out : TcpBuffer}
    (hclean : Clean (respond servlets req code)) (hout : out.WF) (h : Framed servlets req code out) :
    out.Room (responseText (respond servlets req code)).length := by
  obtain ⟨out', bytes, hdis, hq, hread, -⟩ := h
  by_contra hroom
  -- what was written is a proper part of the response, which does not read
  obtain ⟨bytes', hpre, hne, hq'⟩ := writeText_noRoom hout hroom (dispatch_eq.1 hdis)
  rw [hq] at hq'
  rw [← List.append_cancel_left hq'] at hpre hne
  exact hne (eq_of_readResponse hclean hpre hread)

/-- The response to a decoded request is framed exactly when the out buffer has room for it. -/
theorem framed_iff {b b' : TcpBuffer} (hb : b.WF) {req : HttpRequest} (hd : decode b {} = .ok (b', req))
    (hsucc : req.decodeSucc = true) (hpath : req.path ≠ []) {servlets : Bytes → Option Servlet}
    (hservlets : ∀ path handle, servlets path = some handle → Fills handle) (code : Int) {out : TcpBuffer}
    (hout : out.WF) :
    Framed servlets req code out ↔ out.Room (responseText (respond servlets req code)).length := by
  obtain ⟨hclean, hfilling⟩ := respond_clean hservlets (decode_clean hb hd hsucc hpath) hpath code
  refine ⟨room_of_framed hclean hout, fun hroom => ?_⟩
  obtain ⟨out', hw, hh⟩ := writeText_room hout hroom
  refine ⟨out', _, dispatch_eq.2 hw, hh.queue, ?_, hfilling.connection⟩
  rw [readResponse_eq hclean, hfilling.version]

/-- `GET / HTTP/1.1` with a Connection header, and what is decoded from it. -/
def keepAlive : TcpBuffer := ⟨ascii "GET / HTTP/1.1" ++ (CRLF ++ (ascii "Connection:close" ++ CRLF_DOUBLE)), 0, 36⟩

def keepAliveRequest : HttpRequest where
  method := some .GET
  path := ascii "/"
  version := ascii "HTTP/1.1"
  header := [(ascii "Connection", ascii "close"), (ascii "Content-Length", [])]
  decodeSucc := true

theorem decode_keepAlive : decode keepAlive {} = .ok (.ofSize 36, keepAliveRequest) := by decide +kernel

theorem keepAlive_wf : keepAlive.WF := ⟨by decide, by decide, by decide, by decide⟩

theorem framed_iff_notFound : Framed (fun _ => none) keepAliveRequest 0 (.ofSize 0) ↔
    (TcpBuffer.ofSize 0).Room (responseText (respond (fun _ => none) keepAliveRequest 0)).length :=
  framed_iff keepAlive_wf decode_keepAlive rfl (by decide) (fun _ _ h => by cases h) 0 (TcpBuffer.ofSize_wf (by decide))

/-- A servlet with a body of 4 GiB. -/
def hugeServlet : Servlet := fun _ res => setHttpBody (setHttpCode res 200) (List.replicate (2 ^ 32) 0)

theorem hugeServlet_fills : Fills hugeServlet :=
  fun _ _ => ⟨[.code 200], _, List.forall_mem_cons.2 ⟨trivial, nofun⟩, rfl⟩

theorem length_body_le (r : HttpResponse) : r.body.length ≤ (responseText r).length := by
  unfold responseText
  simp only [List.length_append]
  omega

/-- A body of 4 GiB has no room in any buffer. -/
theorem not_framed_huge : ¬ ∀ (b b' : TcpBuffer) (req : HttpRequest), b.WF → decode b {} = .ok (b', req) →
    req.decodeSucc = true → req.path ≠ [] → ∀ servlets : Bytes → Option Servlet,
    (∀ path handle, servlets path = some handle → Fills handle) → ∀ (code : Int) (out : TcpBuffer), out.WF →
    Framed servlets req code out := by
  intro h
  have hservlets : ∀ path handle, (fun _ : Bytes => some hugeServlet) path = some handle → Fills handle := by
    rintro _ _ ⟨⟩
    exact hugeServlet_fills
  have hpath : keepAliveRequest.path ≠ [] := by decide
  have hout : (TcpBuffer.ofSize 0).WF := TcpBuffer.ofSize_wf (by decide)
  have hframed := h keepAlive _ keepAliveRequest keepAlive_wf decode_keepAlive rfl hpath _ hservlets 0 (.ofSize 0) hout
  obtain ⟨hclean, -⟩ := respond_clean hservlets (decode_clean keepAlive_wf decode_keepAlive rfl hpath) hpath 0
  have hlt := (room_of_framed hclean hout hframed).lt hout
  have hle := length_body_le (respond (fun _ => some hugeServlet) keepAliveRequest 0)
  have hbody : (respond (fun _ => some hugeServlet) keepAliveRequest 0).body = List.replicate (2 ^ 32) 0 := rfl
  rw [hbody, List.length_replicate] at hle
  omega

end Flconc.Http
