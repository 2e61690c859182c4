/-
Pipelined requests through `TcpConnection::execute`: requests in the read buffer back to back are
handed on one by one, each with its own bytes, and the buffer is empty in the end.
-/
import Flconc.Http.Complete

namespace Flconc.Http

open Wire Text

/-! ## One request -/

/-- What `execute` hands on for a request. -/
structure Dispatched (m : Message) (r : HttpRequest) : Prop where
  succ : r.decodeSucc = true
  method : r.method = some m.method
  path : r.path = pathOf m.target
  query : r.query = queryOf m.target
  version : r.version = m.version.text
  body : r.body = m.body

/-- Requests as they may stand in the read buffer together: with header lines, with a body for POST alone. -/
structure Pipelined (m : Message) : Prop where
  target : find (ascii "://") m.target = none
  headers : m.headers ≠ []
  get : m.method = .GET → m.body = []

namespace Message

/-- The body is read off in front of what follows it. -/
theorem parseContent_body (m : Message) (hget : m.method = .GET → m.body = []) (hlen : m.contentLen = m.body.length)
    {r : HttpRequest} (hr : m.Read r) {strs : Bytes} {n : Int} (rest : Bytes)
    (hstrs : n + (m.body.length + rest.length) ≤ strs.length) :
    ∃ r', parseContent r strs (m.body ++ rest) n = .complete r' (n + m.body.length) ∧ r'.method = r.method ∧
      r'.path = r.path ∧ r'.query = r.query ∧ r'.version = r.version ∧ r'.body = m.body := by
  have hcl : contentLength r = m.body.length := hr.length.trans hlen
  unfold parseContent
  dsimp only
  rw [if_neg (by omega), hcl]
  split
  · rename_i hpost
    have hne : m.body ≠ [] := fun h => hpost.2 (by rw [h]; rfl)
    rw [if_pos (by omega), Int.toNat_natCast, List.take_left]
    refine ⟨_, rfl, ?_⟩
    unfold parseHttpRequestContent
    rw [if_neg hne]
    exact ⟨rfl, rfl, rfl, rfl, rfl⟩
  · rename_i hpost
    -- nothing is taken as a body, and there is none
    have hnil : m.body = [] := by
      cases hmethod : m.method with
      | GET => exact hget hmethod
      | POST =>
        have hm : r.method = some .POST := by rw [hr.method, hmethod]
        have h0 : m.body.length = 0 := by
          by_contra h
          exact hpost ⟨hm, by omega⟩
        exact List.length_eq_zero_iff.1 h0
    rw [hnil, List.length_nil, Int.natCast_zero, Int.add_zero]
    exact ⟨_, rfl, rfl, rfl, rfl, rfl, hr.body⟩

theorem not_schemeEnds {target : Bytes} (h : find (ascii "://") target = none) : ¬ SchemeEnds target := by
  rintro ⟨j, hj, -⟩
  rw [h] at hj
  cases hj

/-- Decoding takes the first request out of the buffer. -/
theorem decode_front (m : Message) (hm : Pipelined m) {b : TcpBuffer} {rest : Bytes}
    (hb : b.Holds (m.serialize ++ rest)) :
    ∃ b' r, decode b {} = .ok (b', r) ∧ b'.Holds rest ∧ Dispatched m r := by
  have hreadAble := hb.readAble
  have hsize : (m.head.length : Int) + m.body.length + rest.length = b.readAble := by
    rw [hreadAble, serialize, List.length_append, List.length_append]
    omega
  have hlt := hb.wf.length_lt
  rw [hb.queue, serialize, List.length_append, List.length_append] at hlt
  have hlen : m.contentLen = m.body.length := m.contentLen_eq (by omega)
  have hshape : m.serialize ++ rest = m.head ++ (m.body ++ rest) := by
    rw [serialize, List.append_assoc]
  have hok : ¬ (m.headers = [] ∨ SchemeEnds m.target) := not_or.2 ⟨hm.headers, not_schemeEnds hm.target⟩
  obtain ⟨r, hread, hparse⟩ := m.parse_head hok (by omega) (m.body ++ rest)
  have hstrs : (m.head.length : Int) + (m.body.length + rest.length) ≤ (m.head ++ (m.body ++ rest)).length := by
    simp only [List.length_append]
    omega
  obtain ⟨r', hcontent, hmethod, hpath, hquery, hversion, hbody⟩ := m.parseContent_body hm.get hlen hread rest hstrs
  rw [hcontent, ← hshape, ← hb.queue] at hparse
  obtain ⟨b', hb', hq, -⟩ := TcpBuffer.recycleRead_spec hb.wf
    (n := m.head.length + m.body.length) (by omega) (by omega)
  refine ⟨b', { r' with decodeSucc := true }, ?_, ?_, rfl, hmethod.trans hread.method, ?_, ?_,
    hversion.trans hread.version, hbody⟩
  · rw [decode_complete hb.wf hparse, hb']
    rfl
  · have hdrop : (m.serialize ++ rest).drop ((m.head.length : Int) + m.body.length).toNat = rest := by
      rw [show ((m.head.length : Int) + m.body.length).toNat = m.serialize.length by
        rw [serialize, List.length_append]; omega, List.drop_left]
    rw [hb.queue, hdrop] at hq
    exact hq
  · exact hpath.trans (hread.path hm.target).1
  · exact hquery.trans (hread.path hm.target).2

theorem serialize_ne_nil (m : Message) : m.serialize ≠ [] := by
  rw [m.serialize_eq]
  simp [CRLF]

end Message

/-! ## The loop -/

/-- One round hands the first request on. -/
theorem executeRound_front {m : Message} (hm : Pipelined m) {s : Reading} {rest : Bytes}
    (hb : s.buf.Holds (m.serialize ++ rest)) : ∃ b' r, Dispatched m r ∧ b'.Holds rest ∧
      executeRound .http s = .inl ⟨b', s.handed ++ [.http r]⟩ := by
  obtain ⟨b', r, hd, hh, hr⟩ := m.decode_front hm hb
  have hpos : 0 < s.buf.readAble := by
    rw [hb.readAble, List.length_append]
    have := List.length_pos_of_ne_nil m.serialize_ne_nil
    omega
  refine ⟨b', r, hr, hh, ?_⟩
  unfold executeRound decodeNew
  dsimp only
  rw [if_pos hpos, hd, ok_bind]
  show (if r.decodeSucc = true then _ else _) = _
  rw [if_pos hr.succ]

/-- One run of `execute` hands on exactly the requests in the read buffer, in order, and empties it. -/
theorem execute_lossless (ms : List Message) (hms : ∀ m ∈ ms, Pipelined m) {s : Reading}
    (hb : s.buf.Holds (ms.flatMap Message.serialize)) : ∃ b' rs, List.Forall₂ Dispatched ms rs ∧ b'.Holds [] ∧
      Loop.Gives (executeRound .http) s (.ok ⟨b', s.handed ++ rs.map .http⟩) := by
  induction ms generalizing s with
  | nil =>
    have hround : executeRound .http s = .inr (.ok s) := by
      unfold executeRound
      rw [if_neg (by rw [hb.readAble]; decide)]
    refine ⟨s.buf, [], .nil, hb, (Loop.gives_exit hround).2 ?_⟩
    rw [List.map_nil, List.append_nil]
  | cons m ms ih =>
    obtain ⟨hm, hms⟩ := List.forall_mem_cons.1 hms
    obtain ⟨b₁, r, hr, hh, hround⟩ := executeRound_front hm hb
    obtain ⟨b', rs, hrs, hh', hgives⟩ := ih hms (s := ⟨b₁, s.handed ++ [.http r]⟩) hh
    refine ⟨b', r :: rs, .cons hr hrs, hh', (Loop.gives_next hround).2 ?_⟩
    rw [List.append_assoc] at hgives
    exact hgives

/-- `POST /a?b=c HTTP/1.0` with a body of two bytes. -/
def samplePost : Message where
  method := .POST
  target := ascii "/a?b=c"
  version := .http10
  headers := [⟨ascii "Content-Length", ascii " 2", by decide, by decide +kernel, by decide +kernel⟩]
  body := ascii "hi"
  origin := ⟨_, rfl⟩
  target_free := by decide +kernel
  length := ⟨ascii " ", ascii "2", [], rfl, by decide +kernel, by decide +kernel, by decide +kernel, nofun, rfl⟩

/-- A buffer with two requests. -/
def twoRequests : TcpBuffer :=
  ⟨samplePost.serialize ++ sampleRequest.serialize, 0, samplePost.serialize.length + sampleRequest.serialize.length⟩

theorem execute_lossless_two : ∃ b' rs, List.Forall₂ Dispatched [samplePost, sampleRequest] rs ∧ b'.Holds [] ∧
    Loop.Gives (executeRound .http) ⟨twoRequests, []⟩ (.ok ⟨b', [] ++ rs.map .http⟩) :=
  execute_lossless [samplePost, sampleRequest]
    (List.forall_mem_cons.2 ⟨⟨by decide, nofun, nofun⟩,
      List.forall_mem_cons.2 ⟨⟨by decide, nofun, fun _ => rfl⟩, nofun⟩⟩)
    (s := ⟨twoRequests, []⟩) ⟨⟨by decide, by decide, by decide, by decide +kernel⟩, by decide +kernel⟩

end Flconc.Http
