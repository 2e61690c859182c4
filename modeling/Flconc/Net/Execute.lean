/-
`TcpConnection::execute` of net/tcp/tcp_connection.cc, over both codecs: decode and hand on, as long
as something is readable and decode succeeds. The loop has no measure but the bytes its codec
consumes. FlconcPb consumes a byte with every packet it hands on; the HTTP codec reports success
without consuming when the first line break stands at the very end of what is readable, and moves
backwards on a negative Content-Length.
-/
import Flconc.FlconcPb.Scan
import Flconc.Http.Codec
import Flconc.Lib.Loop

namespace Flconc

open Wire

/-! ## The loop -/

/-- `ProtocalType`. -/
inductive Protocal
  | flconcPb
  | http
  deriving DecidableEq

/-- What a codec decodes into. -/
inductive Data
  | flconcPb (data : FlconcPb.FlconcPbStruct)
  | http (data : Http.HttpRequest)
  deriving DecidableEq

def Data.decodeSucc : Data → Bool
  | .flconcPb data => data.decodeSucc
  | .http data => data.decodeSucc

/-- The codec's `decode` into a new object. -/
def decodeNew (p : Protocal) (buf : TcpBuffer) : Except Fault (TcpBuffer × Data) :=
  match p with
  | .flconcPb => do
    let (buf, data) ← FlconcPb.decode buf {}
    return (buf, .flconcPb data)
  | .http => do
    let (buf, data) ← Http.decode buf {}
    return (buf, .http data)

/-- The read buffer, and what was handed on from it. -/
structure Reading where
  buf : TcpBuffer
  handed : List Data

/-- One round of `execute`. -/
def executeRound (p : Protocal) (s : Reading) : Reading ⊕ Except Fault Reading :=
  if s.buf.readAble > 0 then
    match decodeNew p s.buf with
    | .error e => .inr (.error e)
    | .ok (buf, data) =>
      if data.decodeSucc then .inl ⟨buf, s.handed ++ [data]⟩ else .inr (.ok ⟨buf, s.handed⟩)
  else .inr (.ok s)

theorem executeRound_inl {p : Protocal} {s s' : Reading} (h : executeRound p s = .inl s') :
    s.buf.readAble > 0 ∧ ∃ data, decodeNew p s.buf = .ok (s'.buf, data) ∧ data.decodeSucc = true ∧
      s'.handed = s.handed ++ [data] := by
  unfold executeRound at h
  split at h
  · rename_i hr
    split at h
    · cases h
    · rename_i buf data hd
      split at h
      · rename_i hs
        cases h
        exact ⟨hr, data, hd, hs, rfl⟩
      · cases h
  · cases h

/-! ## Progress -/

/-- Less is readable, and the read index moved forward, not past the write index, before the buffer
compacted itself. -/
def Advances (b b' : TcpBuffer) : Prop :=
  b'.readAble < b.readAble ∧ ∃ r, b.readIndex < r ∧ r ≤ b.writeIndex ∧
    TcpBuffer.adjustBuffer { b with readIndex := r } = .ok b'

theorem Advances.wf {b b' : TcpBuffer} (hb : b.WF) (h : Advances b b') : b'.WF := by
  obtain ⟨-, r, h1, h2, h⟩ := h
  obtain ⟨hr, ho, hw, hs⟩ := hb
  have hwf : TcpBuffer.WF { b with readIndex := r } := ⟨by show 0 ≤ r; omega, h2, hw, hs⟩
  obtain ⟨b₁, hb₁, hh, -⟩ := TcpBuffer.adjustBuffer_spec hwf
  rw [hb₁] at h
  cases h
  exact hh.wf

/-- Consuming `n` of the readable bytes is an advance exactly when `n` is positive. -/
theorem advances_recycleRead {b b' : TcpBuffer} (hb : b.WF) {n : Int} (h0 : -2 ^ 31 ≤ n) (hn : n ≤ b.readAble)
    (h : b.recycleRead n = .ok b') : Advances b b' ↔ 0 < n := by
  have hw := hb.write
  have hri := hb.read
  have hle : b.readIndex + n ≤ b.writeIndex := by unfold TcpBuffer.readAble at hn; omega
  have hin : b.readIndex + n ≤ b.getSize := by unfold TcpBuffer.getSize; omega
  have hr := TcpBuffer.readAble_recycleRead hb.size (by omega) hin h
  rw [TcpBuffer.recycleRead_move hb.size (by omega) hin] at h
  constructor
  · rintro ⟨hlt, -⟩
    omega
  · intro h0
    exact ⟨by omega, b.readIndex + n, by omega, hle, h⟩

/-! ## FlconcPb -/

theorem FlconcPb.executeRound_idle {r : Reading} (hr : ¬ r.buf.readAble > 0) :
    executeRound .flconcPb r = .inr (.ok r) := by
  unfold executeRound
  rw [if_neg hr]

theorem FlconcPb.executeRound_decode {r : Reading} (hr : r.buf.readAble > 0) {b : TcpBuffer} {d : FlconcPbStruct}
    (hd : FlconcPb.decode r.buf {} = .ok (b, d)) :
    executeRound .flconcPb r =
      if d.decodeSucc = true then .inl ⟨b, r.handed ++ [.flconcPb d]⟩ else .inr (.ok ⟨b, r.handed⟩) := by
  unfold executeRound decodeNew
  dsimp only
  rw [if_pos hr, hd, ok_bind]
  rfl

/-- A frame handed on has room for the length of its message number. -/
theorem FlconcPb.extract_succ {tmp : Bytes} {f : Frame} {data r : FlconcPbStruct} {cs : List Copy}
    (h : extract tmp f data = .ok (r, cs)) (hr : r.decodeSucc = true) : f.start + 5 < f.stop := by
  unfold extract at h
  dsimp only at h
  split at h
  · cases h
    cases hr
  · omega

theorem FlconcPb.decode_advances {b b' : TcpBuffer} (hb : b.WF) {d : FlconcPbStruct}
    (h : decode b {} = .ok (b', d)) (hd : d.decodeSucc = true) : Advances b b' := by
  unfold decode at h
  obtain ⟨o, ho, h⟩ := bind_eq_ok.1 h
  cases o with
  | none =>
    cases h
    cases hd
  | some f =>
    obtain ⟨ha, hf, hle⟩ := scan_accepts hb ho
    obtain ⟨b₁, hb₁, h⟩ := bind_eq_ok.1 h
    obtain ⟨⟨r, cs⟩, hx, h⟩ := bind_eq_ok.1 h
    cases h
    have hlong := extract_succ hx hd
    have hin := ha.inside
    refine (advances_recycleRead hb (by omega) ?_ hb₁).2 (by omega)
    unfold TcpBuffer.readAble
    omega

/-! ## HTTP -/

namespace Http

/-- The head of a request was parsed: a request line that ends at `i` and parses to `r₁`, and a
header block that ends `j` behind it and parses to `r₂`. -/
structure HeadParsed (strs : Bytes) (i j : Nat) (r₁ r₂ : HttpRequest) : Prop where
  line : Text.find CRLF strs = some i
  more : i ≠ strs.length - 2
  requestLine : parseHttpRequestLine {} (strs.take i) = .ok (true, r₁)
  block : Text.find CRLF_DOUBLE (strs.drop (i + 2)) = some j
  header : parseHttpRequestHeader r₁ ((strs.drop (i + 2)).take j) = .ok r₂

/-- A POST whose negative Content-Length takes back what its head takes. -/
def TakesBack (strs : Bytes) : Prop :=
  ∃ i j r₁ r₂, HeadParsed strs i j r₁ r₂ ∧ r₂.method = some .POST ∧
    i + 2 + (j + 4) + contentLength r₂ ≤ 0

/-- Readable bytes that are reported as a request and not consumed: the first line break ends them,
or they start with a POST of a very negative length. -/
def Stalls (strs : Bytes) : Prop :=
  (∃ i, Text.find CRLF strs = some i ∧ i = strs.length - 2) ∨ TakesBack strs

theorem HeadParsed.bound {strs : Bytes} {i j : Nat} {r₁ r₂ : HttpRequest} (h : HeadParsed strs i j r₁ r₂) :
    i + 2 + (j + 4) ≤ strs.length := by
  have h1 : i + 2 ≤ strs.length := Text.find_bound h.line
  have h2 : j + 4 ≤ (strs.drop (i + 2)).length := Text.find_bound h.block
  rw [List.length_drop] at h2
  omega

theorem HeadParsed.parse_eq {strs : Bytes} {i j : Nat} {r₁ r₂ : HttpRequest}
    (h : HeadParsed strs i j r₁ r₂) : parse {} strs =
      .ok (parseContent r₂ strs ((strs.drop (i + 2)).drop (j + 4)) (i + 2 + (j + 4))) := by
  have h1 : i + 2 ≤ strs.length := Text.find_bound h.line
  have h2 : j + 4 ≤ (strs.drop (i + 2)).length := Text.find_bound h.block
  unfold parse
  rw [h.line]
  dsimp only
  rw [if_neg h.more, Text.substr_front, ok_bind, h.requestLine, ok_bind]
  dsimp only
  rw [if_pos rfl]
  unfold parseRest
  rw [Text.substr_back h1 (by omega), ok_bind, h.block]
  dsimp only
  rw [Text.substr_front, ok_bind, h.header, ok_bind, Text.substr_back h2 (by omega), ok_bind]
  rfl

/-- A request reported as parsed was broken off, or its head was parsed. -/
theorem parse_cases {strs : Bytes} {o : Parsed} (h : parse {} strs = .ok o) :
    (∃ r, o = .pending r) ∨ (o = .broken ∧ ∃ i, Text.find CRLF strs = some i ∧ i = strs.length - 2) ∨
      ∃ i j r₁ r₂, HeadParsed strs i j r₁ r₂ := by
  unfold parse at h
  split at h
  · cases h
    exact .inl ⟨_, rfl⟩
  · rename_i i hi
    have h1 : i + 2 ≤ strs.length := Text.find_bound hi
    split at h
    · rename_i hlast
      cases h
      exact .inr (.inl ⟨rfl, i, hi, hlast⟩)
    · rename_i hmore
      rw [Text.substr_front, ok_bind] at h
      obtain ⟨⟨ok, r₁⟩, hline, h⟩ := bind_eq_ok.1 h
      dsimp only at h
      split at h
      · rename_i hok
        subst hok
        unfold parseRest at h
        rw [Text.substr_back h1 (by omega), ok_bind] at h
        split at h
        · cases h
          exact .inl ⟨_, rfl⟩
        · rename_i j hj
          rw [Text.substr_front, ok_bind] at h
          obtain ⟨r₂, hheader, -⟩ := bind_eq_ok.1 h
          exact .inr (.inr ⟨i, j, r₁, r₂, hi, hmore, hline, hj, hheader⟩)
      · cases h
        exact .inl ⟨_, rfl⟩

/-- What a parsed head with its body consumes. -/
theorem parseContent_complete {request r : HttpRequest} {strs tmp : Bytes} {n m : Int}
    (hn : n ≤ strs.length) (h : parseContent request strs tmp n = .complete r m) :
    m ≤ strs.length ∧ (m = n ∨ request.method = some .POST ∧ m = n + contentLength request) := by
  unfold parseContent at h
  dsimp only at h
  split at h
  · cases h
  · rename_i hlen
    split at h
    · rename_i hpost
      cases h
      exact ⟨by omega, .inr ⟨hpost.1, rfl⟩⟩
    · cases h
      exact ⟨hn, .inl rfl⟩

/-- A POST that takes back its head is complete at once, with nothing to consume. -/
theorem TakesBack.parse {strs : Bytes} (h : TakesBack strs) :
    ∃ r n, Http.parse {} strs = .ok (.complete r n) ∧ -2 ^ 31 ≤ n ∧ n ≤ 0 := by
  obtain ⟨i, j, r₁, r₂, hh, hpost, hneg⟩ := h
  have hbound := hh.bound
  have hint := (contentLength_inInt32 r₂).1
  rw [hh.parse_eq]
  unfold parseContent
  dsimp only
  rw [if_neg (by omega), if_pos ⟨hpost, by omega⟩]
  exact ⟨_, _, rfl, by omega, hneg⟩

/-- What `decode` reports as a request is what `parse` broke off or completed. -/
theorem decode_cases {b b' : TcpBuffer} (hb : b.WF) {r : HttpRequest} (h : decode b {} = .ok (b', r))
    (hr : r.decodeSucc = true) :
    (parse {} b.readable = .ok .broken ∧ b' = b ∧ r = { decodeSucc := true }) ∨
      ∃ r' n, parse {} b.readable = .ok (.complete r' n) ∧ b.recycleRead n = .ok b' ∧
        r = { r' with decodeSucc := true } := by
  unfold decode at h
  rw [TcpBuffer.getBufferString_eq hb, ok_bind] at h
  obtain ⟨o, ho, h⟩ := bind_eq_ok.1 h
  cases o with
  | pending r' =>
    cases h
    rw [parse_pending ho] at hr
    cases hr
  | broken =>
    cases h
    exact .inl ⟨ho, rfl, rfl⟩
  | complete r' n =>
    obtain ⟨b₁, hb₁, h⟩ := bind_eq_ok.1 h
    cases h
    exact .inr ⟨r', n, ho, hb₁, rfl⟩

/-- A reported request is an advance unless the readable bytes stall. -/
theorem decode_advances_iff {b b' : TcpBuffer} (hb : b.WF) {r : HttpRequest}
    (h : decode b {} = .ok (b', r)) (hr : r.decodeSucc = true) : Advances b b' ↔ ¬ Stalls b.readable := by
  have hlen := TcpBuffer.length_readable hb
  rcases decode_cases hb h hr with ⟨hp, rfl, -⟩ | ⟨r', n, hp, hrec, -⟩
  · -- broken off: the buffer is as it was
    constructor
    · intro ha
      have := ha.1
      omega
    · intro hs
      rcases parse_cases hp with ⟨r', h'⟩ | ⟨-, hlast⟩ | ⟨i, j, r₁, r₂, hh⟩
      · cases h'
      · exact absurd (.inl hlast) hs
      · rw [hh.parse_eq] at hp
        unfold parseContent at hp
        dsimp only at hp
        split at hp
        · cases hp
        · split at hp <;> cases hp
  · rcases parse_cases hp with ⟨r'', h'⟩ | ⟨h', -⟩ | ⟨i, j, r₁, r₂, hh⟩
    · cases h'
    · cases h'
    · have hbound := hh.bound
      have hpe := hh.parse_eq
      rw [hp] at hpe
      obtain ⟨hle, hn⟩ := parseContent_complete (by omega) (Except.ok.inj hpe).symm
      have hint := (contentLength_inInt32 r₂).1
      rw [advances_recycleRead hb (by omega) (by omega) hrec]
      constructor
      · rintro hpos (⟨i', hi', hlast⟩ | hback)
        · rw [hh.line] at hi'
          cases hi'
          exact hh.more hlast
        · obtain ⟨rq, m, hp', -, hm⟩ := hback.parse
          rw [hp] at hp'
          cases hp'
          omega
      · intro hs
        rcases hn with rfl | ⟨hpost, rfl⟩
        · omega
        · by_contra hneg
          exact hs (.inr ⟨i, j, r₁, r₂, hh, hpost, by omega⟩)

/-- Stalled bytes are reported as a request. -/
theorem decode_of_stalls {b : TcpBuffer} (hb : b.WF) (hs : Stalls b.readable) :
    ∃ b' r, decode b {} = .ok (b', r) ∧ r.decodeSucc = true := by
  unfold decode
  rw [TcpBuffer.getBufferString_eq hb, ok_bind]
  rcases hs with ⟨i, hi, hlast⟩ | hback
  · have hp : parse {} b.readable = .ok .broken := by
      unfold parse
      rw [hi]
      dsimp only
      rw [if_pos hlast]
    rw [hp]
    exact ⟨b, _, rfl, rfl⟩
  · obtain ⟨r, n, hp, hint, hneg⟩ := hback.parse
    rw [hp, ok_bind]
    dsimp only
    -- moving backwards never leaves the vector at its end, and compacting works from any index in it
    obtain ⟨b', hb'⟩ := TcpBuffer.recycleRead_back hb hint hneg
    rw [hb']
    exact ⟨b', _, rfl, rfl⟩

end Http

/-! ## Every buffer, both codecs -/

/-- Once the buffer is stalled at the head of a round, the round goes on without an advance. -/
theorem executeRound_stalls {s : Reading} (hb : s.buf.WF) (hr : 0 < s.buf.readAble)
    (hs : Http.Stalls s.buf.readable) :
    ∃ s', executeRound .http s = .inl s' ∧ ¬ Advances s.buf s'.buf := by
  obtain ⟨b', r, hd, hsucc⟩ := Http.decode_of_stalls hb hs
  refine ⟨⟨b', s.handed ++ [.http r]⟩, ?_, ?_⟩
  · unfold executeRound decodeNew
    dsimp only
    rw [if_pos hr, hd, ok_bind]
    show (if r.decodeSucc = true then _ else _) = _
    rw [if_pos hsucc]
  · intro ha
    exact (Http.decode_advances_iff hb hd hsucc).1 ha hs

theorem executeRound_advances {p : Protocal} {s s' : Reading} (hb : s.buf.WF)
    (hp : p = .http → ¬ Http.Stalls s.buf.readable) (h : executeRound p s = .inl s') :
    Advances s.buf s'.buf := by
  obtain ⟨-, data, hd, hsucc, -⟩ := executeRound_inl h
  unfold decodeNew at hd
  cases p with
  | flconcPb =>
    obtain ⟨⟨b₁, d⟩, hdec, h'⟩ := bind_eq_ok.1 hd
    cases h'
    exact FlconcPb.decode_advances hb hdec hsucc
  | http =>
    obtain ⟨⟨b₁, r⟩, hdec, h'⟩ := bind_eq_ok.1 hd
    cases h'
    exact (Http.decode_advances_iff hb hdec hsucc).2 (hp rfl)

/-- The loop ends, and every round that hands something on advances. -/
def ExecuteProgresses (p : Protocal) (s : Reading) : Prop :=
  Loop.Ends (executeRound p) s ∧
    ∀ s₁ s₂, Loop.Head (executeRound p) s s₁ → executeRound p s₁ = .inl s₂ → Advances s₁.buf s₂.buf

theorem head_wf {p : Protocal} {s s' : Reading} (hb : s.buf.WF)
    (hadv : ∀ s₁ s₂, Loop.Head (executeRound p) s s₁ → s₁.buf.WF → executeRound p s₁ = .inl s₂ →
      Advances s₁.buf s₂.buf) (h : Loop.Head (executeRound p) s s') : s'.buf.WF :=
  h.invariant (I := fun s => s.buf.WF) hb fun s₁ s₂ h₁ hw hr => (hadv s₁ s₂ h₁ hw hr).wf hw

/-- `execute` ends and progresses when no round of the HTTP codec starts on stalled bytes. -/
theorem executeProgresses_of (p : Protocal) {s : Reading} (hb : s.buf.WF)
    (hc : p = .http → ∀ s₁, Loop.Head (executeRound p) s s₁ →
      0 < s₁.buf.readAble → ¬ Http.Stalls s₁.buf.readable) : ExecuteProgresses p s := by
  have hadv : ∀ s₁ s₂, Loop.Head (executeRound p) s s₁ → s₁.buf.WF → executeRound p s₁ = .inl s₂ →
      Advances s₁.buf s₂.buf := fun s₁ s₂ h hw hr =>
    executeRound_advances hw (fun hp => hc hp s₁ h (executeRound_inl hr).1) hr
  refine ⟨?_, fun s₁ s₂ h hr => hadv s₁ s₂ h (head_wf hb hadv h) hr⟩
  refine Loop.ends_of_measure (fun s => s.buf.readAble.toNat) fun s₁ s₂ h hr => ?_
  have hpos := (executeRound_inl hr).1
  have hlt := (hadv s₁ s₂ h (head_wf hb hadv h) hr).1
  show s₂.buf.readAble.toNat < s₁.buf.readAble.toNat
  omega

/-- For FlconcPb always, and for HTTP exactly when no round starts on stalled bytes. -/
theorem executeProgresses_iff (p : Protocal) {s : Reading} (hb : s.buf.WF) :
    ExecuteProgresses p s ↔ (p = .http → ∀ s₁, Loop.Head (executeRound p) s s₁ →
      0 < s₁.buf.readAble → ¬ Http.Stalls s₁.buf.readable) := by
  constructor
  · rintro ⟨-, hadv⟩ rfl s₁ hs hr hst
    have hw := head_wf hb (fun s₁ s₂ h _ hr => hadv s₁ s₂ h hr) hs
    obtain ⟨s₂, hs₂, hna⟩ := executeRound_stalls hw hr hst
    exact hna (hadv s₁ s₂ hs hs₂)
  · exact executeProgresses_of p hb

/-- Two packets. -/
def twoPackets : TcpBuffer :=
  let bytes := FlconcPb.packet { msgReq := Text.ascii "1", serviceFullName := Text.ascii "S" }
  ⟨bytes ++ bytes, 0, 56⟩

/-- A request. -/
def oneRequest : TcpBuffer :=
  ⟨Text.ascii "GET / HTTP/1.1" ++ Http.CRLF ++ Text.ascii "Host: a" ++ Http.CRLF_DOUBLE, 0, 27⟩

theorem oneRequest_wf : oneRequest.WF := by constructor <;> decide

theorem decode_oneRequest : ∃ r, Http.decode oneRequest {} = .ok (.ofSize 27, r) ∧ r.decodeSucc = true := by
  have hmap : (Http.decode oneRequest {}).map (fun d => (d.1, d.2.decodeSucc)) = .ok (.ofSize 27, true) := by
    decide +kernel
  cases h : Http.decode oneRequest {} with
  | error e =>
    rw [h] at hmap
    cases hmap
  | ok d =>
    rw [h] at hmap
    obtain ⟨hb, hs⟩ := Prod.mk.inj (Except.ok.inj hmap)
    exact ⟨d.2, by rw [← hb], hs⟩

theorem not_stalls_oneRequest : ¬ Http.Stalls oneRequest.readable := by
  obtain ⟨r, hr, hsucc⟩ := decode_oneRequest
  exact (Http.decode_advances_iff oneRequest_wf hr hsucc).1 ⟨by decide, 27, by decide⟩

/-- `execute` is in front of the request, or behind it. -/
theorem head_oneRequest {s : Reading} (h : Loop.Head (executeRound .http) ⟨oneRequest, []⟩ s) :
    s.buf = oneRequest ∨ s.buf = .ofSize 27 := by
  refine h.invariant (I := fun s => s.buf = oneRequest ∨ s.buf = .ofSize 27) (.inl rfl) fun s₁ s₂ _ hs hround => ?_
  obtain ⟨hr, data, hd, -, -⟩ := executeRound_inl hround
  rcases hs with hs | hs
  · obtain ⟨r, hdec, -⟩ := decode_oneRequest
    unfold decodeNew at hd
    rw [hs, hdec] at hd
    exact .inr (congrArg Prod.fst (Except.ok.inj hd)).symm
  · rw [hs] at hr
    exact absurd hr (by decide)

/-- Two packets are handed on, and a request. -/
theorem executeProgresses_twoPackets : ExecuteProgresses .flconcPb ⟨twoPackets, []⟩ ∧
    ExecuteProgresses .http ⟨oneRequest, []⟩ := by
  refine ⟨(executeProgresses_iff .flconcPb (s := ⟨twoPackets, []⟩) (by constructor <;> decide)).2 nofun,
    (executeProgresses_iff .http (s := ⟨oneRequest, []⟩) oneRequest_wf).2 fun _ s₁ hs hr => ?_⟩
  rcases head_oneRequest hs with h | h
  · rw [h]
    exact not_stalls_oneRequest
  · rw [h] at hr
    exact absurd hr (by decide)

/-- A request of which the request line has arrived. -/
def halfRequest : TcpBuffer := ⟨Text.ascii "GET / HTTP/1.1" ++ Http.CRLF, 0, 16⟩

theorem not_executeProgresses_halfRequest : ¬ ExecuteProgresses .http ⟨halfRequest, []⟩ := by
  rintro ⟨hends, -⟩
  -- every round reports a request and leaves the buffer as it is
  have hd : Http.decode halfRequest {} = .ok (halfRequest, { decodeSucc := true }) := by decide +kernel
  refine Loop.not_ends_of_stuck (P := fun s => s.buf = halfRequest) rfl ?_ hends
  rintro ⟨buf, handed⟩ rfl
  refine ⟨⟨halfRequest, handed ++ [.http { decodeSucc := true }]⟩, ?_, rfl⟩
  unfold executeRound decodeNew
  dsimp only
  rw [if_pos (by decide), hd]
  rfl

end Flconc
