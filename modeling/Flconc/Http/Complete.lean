/-
When `HttpCodeC::decode` takes a request as complete: for the bytes of a well-formed request cut off
anywhere and alone in the read buffer. It waits for the rest but for three kinds of cut: right behind
the request line, where the loop is left as if the request were there; the whole of a request without
header lines, whose empty line it does not see, or with a target it refuses; and behind the head of a
request whose length does not fit an `int`.
-/
import Flconc.Http.Message

namespace Flconc.Http

open Wire Text

/-! ## Recognising a request -/

/-- The same request, and the same bytes left. -/
def SameResult (x y : Except Fault (TcpBuffer × HttpRequest)) : Prop :=
  x.map (fun (b, r) => (b.readable, r)) = y.map fun (b, r) => (b.readable, r)

/-- What `decode` should make of a buffer that holds a request as far as it has arrived. -/
structure Recognised (m : Message) (b b' : TcpBuffer) (r : HttpRequest) : Prop where
  complete : r.decodeSucc = true ↔ b.readable = m.serialize
  keeps : b.readable ≠ m.serialize → b' = b
  /-- Decoding when the rest has arrived is decoding the request in one piece. -/
  resumes : b.readable ≠ m.serialize → ∀ rest b₁ b₂, b.readable ++ rest = m.serialize →
    b₁.Holds (b'.readable ++ rest) → b₂.Holds m.serialize → SameResult (decode b₁ {}) (decode b₂ {})

def Recognises (m : Message) (b : TcpBuffer) : Prop :=
  ∃ b' r, decode b {} = .ok (b', r) ∧ Recognised m b b' r

/-- The cuts at which `decode` goes wrong. -/
inductive Misread (m : Message) (p : Bytes) : Prop
  /-- Behind the request line. -/
  | line (h : p = m.requestLine ++ CRLF)
  /-- Not cut at all, but never complete. -/
  | never (h : p = m.serialize) (hm : m.headers = [] ∨ SchemeEnds m.target)
  /-- In a body that the codec takes to be shorter than it is. -/
  | early (h : p ≠ m.serialize) (hm : ¬ (m.headers = [] ∨ SchemeEnds m.target)) (hhead : m.head.length ≤ p.length)
    (hlen : m.contentLen ≤ p.length - m.head.length)

/-! ## Cut requests -/

namespace Message

theorem serialize_eq (m : Message) :
    m.serialize = m.requestLine ++ (CRLF ++ (headerText m.headers ++ (CRLF ++ m.body))) := by
  simp only [serialize, head, List.append_assoc]

theorem find_serialize (m : Message) : find CRLF m.serialize = some m.requestLine.length := by
  rw [m.serialize_eq]
  exact m.find_line _

/-- Without header lines there is no body. -/
theorem body_of_headers (m : Message) (h : m.headers = []) : m.body = [] := by
  have hlength := m.length
  rw [h] at hlength
  exact hlength

/-- In the request line. -/
theorem parse_short (m : Message) {p : Bytes} (hp : p <+: m.serialize) (h : p.length < m.requestLine.length + 2) :
    parse {} p = .ok (.pending {}) := by
  have hfind : find CRLF p = none := by
    rw [find_of_isPrefix hp m.find_serialize, if_neg]
    show ¬ m.requestLine.length + 2 ≤ p.length
    omega
  unfold parse
  rw [hfind]

theorem parse_line (m : Message) : parse {} (m.requestLine ++ CRLF) = .ok .broken := by
  have hfind : find CRLF (m.requestLine ++ CRLF) = some m.requestLine.length := by
    have := m.find_line []
    rwa [List.append_nil] at this
  unfold parse
  rw [hfind]
  dsimp only
  rw [if_pos]
  rw [List.length_append]
  show m.requestLine.length = m.requestLine.length + 2 - 2
  omega

/-- What is behind the request line, in a request that is cut off there. -/
theorem find_cut (m : Message) {p q : Bytes} (hp : p <+: m.serialize) (hq : p = m.requestLine ++ (CRLF ++ q))
    (h : m.headers = [] ∨ p.length < m.head.length) : find CRLF_DOUBLE q = none := by
  have hqpre : q <+: headerText m.headers ++ (CRLF ++ m.body) := by
    rw [hq, m.serialize_eq] at hp
    exact (List.prefix_append_right_inj _).1 ((List.prefix_append_right_inj _).1 hp)
  cases hm : m.headers with
  | nil =>
    rw [hm, m.body_of_headers hm] at hqpre
    have hlen : q.length ≤ 2 := hqpre.length_le
    cases hf : find CRLF_DOUBLE q with
    | none => rfl
    | some j =>
      have : j + 4 ≤ q.length := find_bound hf
      omega
  | cons l hs =>
    have hshort : p.length < m.head.length := h.resolve_left (by rw [hm]; nofun)
    rw [hm, headerText_cons] at hqpre
    have hfull : find CRLF_DOUBLE (block l hs ++ CRLF ++ (CRLF ++ m.body)) = some (block l hs).length := by
      have := find_block l hs m.body
      rwa [show block l hs ++ CRLF ++ (CRLF ++ m.body) = block l hs ++ (CRLF_DOUBLE ++ m.body) by
        simp [CRLF, CRLF_DOUBLE]]
    rw [find_of_isPrefix hqpre hfull, if_neg]
    rw [m.length_head hm, hq, List.length_append, List.length_append] at hshort
    have hshort : m.requestLine.length + (2 + q.length) < m.requestLine.length + 2 + ((block l hs).length + 4) := hshort
    show ¬ (block l hs).length + 4 ≤ q.length
    omega

/-- Behind the request line, when the head is not whole or never taken as whole. -/
theorem parse_cut (m : Message) {p : Bytes} (hp : p <+: m.serialize) (hlong : m.requestLine.length + 2 < p.length)
    (h : (m.headers = [] ∨ SchemeEnds m.target) ∨ p.length < m.head.length) :
    ∃ r, parse {} p = .ok (.pending r) := by
  obtain ⟨q, hq⟩ : ∃ q, p = m.requestLine ++ (CRLF ++ q) := by
    have hpre : m.requestLine ++ CRLF <+: m.serialize := by
      rw [m.serialize_eq, ← List.append_assoc]
      exact List.prefix_append _ _
    have hle : (m.requestLine ++ CRLF).length ≤ p.length := by
      rw [List.length_append]
      exact hlong.le
    obtain ⟨q, rfl⟩ := List.prefix_of_prefix_length_le hpre hp hle
    exact ⟨q, List.append_assoc _ _ _⟩
  have hlen : p.length = m.requestLine.length + (2 + q.length) := by
    rw [hq, List.length_append, List.length_append]
    rfl
  have hfind : find CRLF p = some m.requestLine.length := by
    rw [hq]
    exact m.find_line q
  have htake : p.take m.requestLine.length = m.requestLine := by
    rw [hq, List.take_left]
  have hdrop : p.drop (m.requestLine.length + 2) = q := by
    rw [hq]
    exact drop_behind _ CRLF q
  obtain ⟨ok, r, hr, ht⟩ := parseTarget_cases { method := some m.method, version := m.version.text } rfl m.target
  unfold parse
  rw [hfind]
  dsimp only
  rw [if_neg (by omega), substr_front, ok_bind, htake, m.parseHttpRequestLine_eq, hr, ok_bind]
  cases ok with
  | false => exact ⟨r, rfl⟩
  | true =>
    have hnone : find CRLF_DOUBLE q = none := by
      refine m.find_cut hp hq ?_
      rcases h with (h | h) | h
      · exact .inl h
      · exact absurd (ht.refused.2 h) nofun
      · exact .inr h
    dsimp only
    rw [if_pos rfl]
    unfold parseRest
    rw [substr_back (by omega) (by omega), ok_bind, hdrop, hnone]
    exact ⟨r, rfl⟩

/-- Behind the head. -/
theorem parse_head (m : Message) (hm : ¬ (m.headers = [] ∨ SchemeEnds m.target)) (hlt : m.head.length < 2 ^ 31)
    (q : Bytes) :
    ∃ r, m.Read r ∧ parse {} (m.head ++ q) = .ok (parseContent r (m.head ++ q) q m.head.length) := by
  obtain ⟨hne, hscheme⟩ := not_or.1 hm
  obtain ⟨h, hs, hcons⟩ := List.exists_cons_of_ne_nil hne
  obtain ⟨r₁, r₂, hparsed, hread⟩ := m.headParsed hcons hscheme hlt q
  have hlen := m.length_head hcons
  refine ⟨r₂, hread, ?_⟩
  rw [hparsed.parse_eq, List.drop_drop, ← hlen, List.drop_left]
  have : ((m.requestLine.length : Int) + 2 + ((block h hs).length + 4)) = m.head.length := by omega
  rw [this]

end Message

/-! ## Decoding them -/

theorem decode_pending {b : TcpBuffer} (hb : b.WF) {r : HttpRequest} (h : parse {} b.readable = .ok (.pending r)) :
    decode b {} = .ok (b, r) := by
  unfold decode
  rw [TcpBuffer.getBufferString_eq hb, ok_bind, h]
  rfl

theorem decode_broken {b : TcpBuffer} (hb : b.WF) (h : parse {} b.readable = .ok .broken) :
    decode b {} = .ok (b, { decodeSucc := true }) := by
  unfold decode
  rw [TcpBuffer.getBufferString_eq hb, ok_bind, h]
  rfl

theorem decode_complete {b : TcpBuffer} (hb : b.WF) {r : HttpRequest} {n : Int}
    (h : parse {} b.readable = .ok (.complete r n)) :
    decode b {} = do
      let b ← b.recycleRead n
      return (b, { r with decodeSucc := true }) := by
  unfold decode
  rw [TcpBuffer.getBufferString_eq hb, ok_bind, h]
  rfl

theorem parseContent_short {request : HttpRequest} {strs : Bytes} {n : Int} (tmp : Bytes)
    (h : strs.length - n < contentLength request) : ∃ r, parseContent request strs tmp n = .pending r := by
  unfold parseContent
  dsimp only
  rw [if_pos h]
  exact ⟨_, rfl⟩

theorem parseContent_enough {request : HttpRequest} {strs : Bytes} {n : Int} (tmp : Bytes)
    (h : ¬ strs.length - n < contentLength request) : ∃ r k, parseContent request strs tmp n = .complete r k ∧
      (k = n ∨ k = n + contentLength request) := by
  unfold parseContent
  dsimp only
  rw [if_neg h]
  split
  · exact ⟨_, _, rfl, .inr rfl⟩
  · exact ⟨_, _, rfl, .inl rfl⟩

namespace Message

/-- Behind the head the codec goes by the length it has read. -/
theorem parse_body (m : Message) (hm : ¬ (m.headers = [] ∨ SchemeEnds m.target)) (hlt : m.head.length < 2 ^ 31)
    (q : Bytes) :
    if (q.length : Int) < m.contentLen then ∃ r, parse {} (m.head ++ q) = .ok (.pending r)
    else ∃ r k, parse {} (m.head ++ q) = .ok (.complete r k) ∧
      (k = m.head.length ∨ k = m.head.length + m.contentLen) := by
  obtain ⟨r, hread, hparse⟩ := m.parse_head hm hlt q
  have hlen : (((m.head ++ q).length : Int) - m.head.length) = q.length := by
    rw [List.length_append]
    omega
  rw [hparse, ← hread.length]
  split
  · rename_i hshort
    obtain ⟨r', hr'⟩ := parseContent_short q (hlen ▸ hshort)
    exact ⟨r', by rw [hr']⟩
  · rename_i henough
    obtain ⟨r', k, hr', hk⟩ := parseContent_enough q (hlen ▸ henough)
    exact ⟨r', k, by rw [hr'], hk⟩

/-- A whole request in a buffer is waited on for ever, or complete with no byte that is not its own. -/
theorem parse_whole (m : Message) (hlt : m.serialize.length < 2 ^ 31) :
    if m.headers = [] ∨ SchemeEnds m.target then ∃ r, parse {} m.serialize = .ok (.pending r)
    else ∃ r k, parse {} m.serialize = .ok (.complete r k) ∧ 0 ≤ k ∧ k ≤ m.serialize.length := by
  split
  · rename_i hm
    refine m.parse_cut (List.prefix_refl _) ?_ (.inl hm)
    rw [m.serialize_eq]
    simp only [List.length_append]
    show m.requestLine.length + 2 < m.requestLine.length + (2 + (_ + (2 + _)))
    omega
  · rename_i hm
    have hlen : m.head.length + m.body.length < 2 ^ 31 := by
      rw [← List.length_append]
      exact hlt
    have hcontent := m.contentLen_eq (by omega)
    have h := m.parse_body hm (by omega) m.body
    rw [if_neg (by omega)] at h
    obtain ⟨r, k, h, hk⟩ := h
    refine ⟨r, k, h, ?_⟩
    simp only [serialize, List.length_append]
    omega

/-- Two buffers with the request give the same. -/
theorem decode_same (m : Message) {b₁ b₂ : TcpBuffer} (h₁ : b₁.Holds m.serialize) (h₂ : b₂.Holds m.serialize) :
    SameResult (decode b₁ {}) (decode b₂ {}) := by
  have hr₁ := h₁.readAble
  have hr₂ := h₂.readAble
  have hwhole := m.parse_whole (h₁.queue ▸ h₁.wf.length_lt)
  rw [SameResult]
  split at hwhole
  · obtain ⟨r, h⟩ := hwhole
    rw [decode_pending h₁.wf (h₁.queue ▸ h), decode_pending h₂.wf (h₂.queue ▸ h)]
    show Except.ok (b₁.readable, r) = Except.ok (b₂.readable, r)
    rw [h₁.queue, h₂.queue]
  · obtain ⟨r, k, h, h0, hk⟩ := hwhole
    obtain ⟨b₁', hb₁, hq₁, -⟩ := TcpBuffer.recycleRead_spec h₁.wf h0 (by omega)
    obtain ⟨b₂', hb₂, hq₂, -⟩ := TcpBuffer.recycleRead_spec h₂.wf h0 (by omega)
    rw [decode_complete h₁.wf (h₁.queue ▸ h), decode_complete h₂.wf (h₂.queue ▸ h), hb₁, hb₂]
    show Except.ok (b₁'.readable, _) = Except.ok (b₂'.readable, _)
    rw [hq₁.queue, hq₂.queue, h₁.queue, h₂.queue]

end Message

/-! ## The cuts that go wrong -/

/-- A cut request that is waited for is recognised as such. -/
theorem recognises_of_pending {m : Message} {b : TcpBuffer} (hb : b.WF) (hne : b.readable ≠ m.serialize)
    {r : HttpRequest} (h : parse {} b.readable = .ok (.pending r)) : Recognises m b := by
  have hsucc : r.decodeSucc = false := parse_pending h
  refine ⟨b, r, decode_pending hb h, iff_of_false (by rw [hsucc]; nofun) hne, fun _ => rfl, ?_⟩
  intro _ rest b₁ b₂ hrest h₁ h₂
  rw [hrest] at h₁
  exact m.decode_same h₁ h₂

theorem recognises_of_not_misread {m : Message} {b : TcpBuffer} (hb : b.WF) (hp : b.readable <+: m.serialize)
    (h : ¬ Misread m b.readable) : Recognises m b := by
  have hlen := TcpBuffer.length_readable hb
  by_cases hwhole : b.readable = m.serialize
  · have hm : ¬ (m.headers = [] ∨ SchemeEnds m.target) := fun hm => h (.never hwhole hm)
    have hparse := m.parse_whole (hwhole ▸ hb.length_lt)
    rw [if_neg hm, ← hwhole] at hparse
    obtain ⟨r, k, hparse, h0, hk⟩ := hparse
    obtain ⟨b', hb', -⟩ := TcpBuffer.recycleRead_spec hb h0 (by omega)
    refine ⟨b', { r with decodeSucc := true }, ?_, iff_of_true rfl hwhole, fun h => absurd hwhole h,
      fun h => absurd hwhole h⟩
    rw [decode_complete hb hparse, hb']
    rfl
  · -- where the request is cut
    suffices ∃ r, parse {} b.readable = .ok (.pending r) by
      obtain ⟨r, hr⟩ := this
      exact recognises_of_pending hb hwhole hr
    rcases Nat.lt_trichotomy b.readable.length (m.requestLine.length + 2) with hlt | heq | hgt
    · exact ⟨_, m.parse_short hp hlt⟩
    · refine absurd (.line ?_) h
      refine List.IsPrefix.eq_of_length (List.prefix_of_prefix_length_le hp ?_ ?_) ?_
      · rw [m.serialize_eq, ← List.append_assoc]
        exact List.prefix_append _ _
      · rw [heq, List.length_append]
        exact Nat.le_refl _
      · rw [heq, List.length_append]
        rfl
    · by_cases hcut : (m.headers = [] ∨ SchemeEnds m.target) ∨ b.readable.length < m.head.length
      · exact m.parse_cut hp hgt hcut
      · obtain ⟨hm, hhead⟩ := not_or.1 hcut
        obtain ⟨q, hq⟩ : m.head <+: b.readable :=
          List.prefix_of_prefix_length_le (List.prefix_append _ _) hp (by omega)
        have hlt := hb.length_lt
        have hbody := m.parse_body hm (by omega) q
        rw [if_pos, hq] at hbody
        · exact hbody
        · by_contra henough
          refine h (.early hwhole hm (by omega) ?_)
          rw [← hq, List.length_append]
          omega

theorem not_recognises_of_misread {m : Message} {b : TcpBuffer} (hb : b.WF) (hp : b.readable <+: m.serialize)
    (h : Misread m b.readable) : ¬ Recognises m b := by
  rintro ⟨b', r, hd, hrec⟩
  cases h with
  | line h =>
    rw [decode_broken hb (by rw [h]; exact m.parse_line)] at hd
    cases hd
    have hwhole := hrec.complete.1 rfl
    have hlen := congrArg List.length hwhole
    rw [h, m.serialize_eq] at hlen
    simp only [List.length_append] at hlen
    have hlen : m.requestLine.length + 2 = m.requestLine.length + (2 + (_ + (2 + _))) := hlen
    omega
  | never h hm =>
    have hparse := m.parse_whole (h ▸ hb.length_lt)
    rw [if_pos hm, ← h] at hparse
    obtain ⟨r', hparse⟩ := hparse
    rw [decode_pending hb hparse] at hd
    cases hd
    have hsucc := hrec.complete.2 h
    rw [parse_pending hparse] at hsucc
    cases hsucc
  | early h hm hhead hlen =>
    obtain ⟨q, hq⟩ : m.head <+: b.readable :=
      List.prefix_of_prefix_length_le (List.prefix_append _ _) hp hhead
    have hbody := m.parse_body hm (hhead.trans_lt hb.length_lt) q
    rw [← hq, List.length_append] at hlen
    rw [if_neg (by omega), hq] at hbody
    obtain ⟨r', k, hparse, -⟩ := hbody
    rw [decode_complete hb hparse] at hd
    obtain ⟨b₁, -, hd⟩ := bind_eq_ok.1 hd
    cases hd
    exact h (hrec.complete.1 rfl)

/-- A well-formed request is recognised as complete when all of it is there, and its bytes are kept until
then, exactly when it is not cut where the codec misreads it. -/
theorem recognises_iff (m : Message) {b : TcpBuffer} (hb : b.WF) (hp : b.readable <+: m.serialize) :
    Recognises m b ↔ ¬ Misread m b.readable :=
  ⟨fun h hmis => not_recognises_of_misread hb hp hmis h, recognises_of_not_misread hb hp⟩

/-- `GET / HTTP/1.1` with a header line. -/
def sampleRequest : Message where
  method := .GET
  target := ascii "/"
  version := .http11
  headers := [⟨ascii "Host", ascii "a", by decide, by decide +kernel, by decide +kernel⟩]
  body := []
  origin := ⟨[], rfl⟩
  target_free := by decide +kernel
  length := rfl

theorem halfRequest_wf : halfRequest.WF := ⟨by decide, by decide, by decide, by decide⟩

theorem recognises_iff_halfRequest :
    Recognises sampleRequest halfRequest ↔ ¬ Misread sampleRequest halfRequest.readable :=
  recognises_iff sampleRequest halfRequest_wf (by decide +kernel)

/-- The request line has arrived: the request is reported. -/
theorem not_recognises_halfRequest :
    ¬ ∀ (m : Message) (b : TcpBuffer), b.WF → b.readable <+: m.serialize → Recognises m b := by
  intro h
  obtain ⟨b', r, hd, hrec⟩ := h sampleRequest halfRequest halfRequest_wf (by decide +kernel)
  rw [show decode halfRequest {} = .ok (halfRequest, { decodeSucc := true }) by decide +kernel] at hd
  cases hd
  exact absurd (hrec.complete.1 rfl) (by decide +kernel)

end Flconc.Http
