/-
A server connection that speaks HTTP: the loop of net/tcp/tcp_connection.cc over `HttpCodeC` and
`HttpDispacther`. Pipelined requests are answered in order, each one as if it had come alone, however they
are cut, unless behind a request line; and who reads the responses one behind the other gets them all back.
-/
import Flconc.Net.Serve
import Flconc.Http.Pipeline
import Flconc.Http.Framing

namespace Flconc.Http

open Wire Text Framing

/-! ## A request alone -/

/-- A request that may stand among others, and whose length is an `int`. -/
abbrev Request := { m : Message // Pipelined m ∧ m.serialize.length < 2 ^ 31 }

/-- What a request is read as when it comes alone. -/
def Message.request (m : Message) : HttpRequest :=
  match parse {} m.serialize with
  | .ok (.complete r _) => { r with decodeSucc := true }
  | _ => {}

/-- Two texts with one front, in which the head is, have one head. -/
theorem HeadParsed.front {s t : Bytes} {i j n : Nat} {r₁ r₂ r₁' r₂' : HttpRequest} (h : HeadParsed s i j r₁ r₂)
    (h' : HeadParsed t i j r₁' r₂') (hn : i + 2 + j ≤ n) (hst : s.take n = t.take n) : r₂ = r₂' := by
  have hline : s.take i = t.take i := by
    have := congrArg (List.take i) hst
    rwa [List.take_take, List.take_take, Nat.min_eq_left (by omega)] at this
  have hblock : (s.drop (i + 2)).take j = (t.drop (i + 2)).take j := by
    have := congrArg (fun l => (l.drop (i + 2)).take j) hst
    simpa only [List.drop_take, List.take_take, Nat.min_eq_left (by omega : j ≤ n - (i + 2))] using this
  have h₁ := h.requestLine
  rw [hline, h'.requestLine] at h₁
  cases h₁
  have h₂ := h.header
  rw [hblock, h'.header] at h₂
  exact (Except.ok.inj h₂).symm

/-- A body that is there is read off the same way whatever follows. -/
theorem parseContent_front {request : HttpRequest} {strs strs' tmp tmp' : Bytes} {n : Int}
    (h0 : 0 ≤ contentLength request) (h : contentLength request ≤ strs.length - n)
    (h' : contentLength request ≤ strs'.length - n)
    (htmp : tmp.take (contentLength request).toNat = tmp'.take (contentLength request).toNat) :
    parseContent request strs tmp n = parseContent request strs' tmp' n := by
  unfold parseContent
  dsimp only
  rw [if_neg (not_lt.2 h), if_neg (not_lt.2 h'), if_pos h0, if_pos h0, htmp]

namespace Message

/-- What follows a request does not change how it is parsed. -/
theorem parse_front (m : Message) (hm : Pipelined m) (hlt : m.serialize.length < 2 ^ 31) (rest : Bytes) :
    parse {} (m.serialize ++ rest) = parse {} m.serialize := by
  obtain ⟨h, hs, hcons⟩ := List.exists_cons_of_ne_nil hm.headers
  have hscheme := not_schemeEnds hm.target
  have hsize : m.head.length + m.body.length < 2 ^ 31 := by
    rw [← List.length_append]
    exact hlt
  obtain ⟨r₁, r₂, hparsed, hread⟩ := m.headParsed hcons hscheme (by omega) m.body
  obtain ⟨r₁', r₂', hparsed', -⟩ := m.headParsed hcons hscheme (by omega) (m.body ++ rest)
  have hlen := m.length_head hcons
  have hcl : contentLength r₂ = m.body.length := hread.length.trans (m.contentLen_eq (by omega))
  obtain rfl : r₂ = r₂' := hparsed.front hparsed' (n := m.head.length) (by omega) (by simp)
  have hdrop : ∀ q, ((m.head ++ q).drop (m.requestLine.length + 2)).drop ((block h hs).length + 4) = q := by
    intro q
    rw [List.drop_drop, ← hlen, List.drop_left]
  rw [serialize, List.append_assoc, hparsed.parse_eq, hparsed'.parse_eq, hdrop, hdrop]
  refine congrArg Except.ok (parseContent_front ?_ ?_ ?_ ?_)
  · omega
  · simp only [List.length_append]
    omega
  · simp only [List.length_append]
    omega
  · rw [hcl, Int.toNat_natCast, List.take_left, List.take_length]

/-- The request in front is read as if it were alone. -/
theorem decode_request (m : Message) (hm : Pipelined m) {b : TcpBuffer} {rest : Bytes}
    (hb : b.Holds (m.serialize ++ rest)) : ∃ b', decode b {} = .ok (b', m.request) ∧ b'.Holds rest := by
  obtain ⟨b', r, hd, hh, hr⟩ := m.decode_front hm hb
  have hlt := hb.wf.length_lt
  rw [hb.queue, List.length_append] at hlt
  obtain rfl : m.request = r := by
    rcases decode_cases hb.wf hd hr.succ with ⟨-, -, rfl⟩ | ⟨r', n, hp, -, rfl⟩
    · cases hr.method
    · rw [hb.queue, m.parse_front hm (by omega)] at hp
      unfold request
      rw [hp]
  exact ⟨b', hd, hh⟩

end Message

theorem recycleRead_nonempty {b b' : TcpBuffer} (hb : 0 < b.buffer.length) {n : Int} (h : b.recycleRead n = .ok b') :
    0 < b'.buffer.length := by
  unfold TcpBuffer.recycleRead TcpBuffer.adjustBuffer at h
  dsimp only at h
  split at h
  · cases h
    exact hb
  · split at h
    · obtain ⟨live, -, h⟩ := bind_eq_ok.1 h
      cases h
      simp only [TcpBuffer.zeroFilled, List.length_append, List.length_replicate]
      omega
    · cases h
      exact hb

theorem decode_usable {b b' : TcpBuffer} (hu : Usable b) {r : HttpRequest} (h : decode b {} = .ok (b', r))
    (hb' : b'.WF) : Usable b' := by
  unfold decode at h
  obtain ⟨strs, -, h⟩ := bind_eq_ok.1 h
  obtain ⟨o, -, h⟩ := bind_eq_ok.1 h
  cases o with
  | pending r' =>
    cases h
    exact hu
  | broken =>
    cases h
    exact hu
  | complete r' n =>
    obtain ⟨b₁, hb₁, h⟩ := bind_eq_ok.1 h
    cases h
    exact ⟨hb', TcpBuffer.recycleRead_compact hu.compact hb₁, recycleRead_nonempty hu.nonempty hb₁⟩

/-! ## The codec and the dispatcher -/

/-- What a dispatch meets: the servlets as they are then, and the code in a new response. -/
structure Servleted where
  servlets : Bytes → Option Servlet
  code : Int

/-- `HttpDispacther::dispatch` behind its `dynamic_cast`; the other codec's data is no request. -/
def dispatchData (x : Servleted) (data : Data) (out : TcpBuffer) : Except Fault TcpBuffer :=
  match data with
  | .http request => dispatch x.servlets request x.code out
  | .flconcPb _ => .error .memory

/-- The response to a request. -/
def Servleted.response (x : Servleted) (m : Request) : HttpResponse := respond x.servlets m.1.request x.code

/-- `decode` takes a whole request off, and leaves a part of one unless it ends behind the request line. -/
theorem speaks_http : Speaks .http (fun m : Request => m.1.serialize) (fun m data => data = .http m.1.request)
    fun m buf => buf.readable ≠ m.1.requestLine ++ CRLF where
  nonempty m := m.1.serialize_ne_nil
  front m buf rest hu hq := by
    obtain ⟨buf', hdec, hh⟩ := m.1.decode_request m.2.1 ⟨hu.wf, hq⟩
    obtain ⟨b₁, r, hd, -, hr⟩ := m.1.decode_front m.2.1 ⟨hu.wf, hq⟩
    rw [hdec] at hd
    cases hd
    refine ⟨buf', .http m.1.request, ?_, rfl, hr.succ, decode_usable hu hdec hh.wf, hh.queue⟩
    unfold decodeNew
    rw [hdec]
    rfl
  part m buf rest hu hpre hpart hline := by
    have hp : buf.readable <+: m.1.serialize :=
      (List.prefix_or_prefix_of_prefix hpre (List.prefix_append _ _)).resolve_right hpart
    have hne : buf.readable ≠ m.1.serialize := fun h => hpart (h ▸ List.prefix_refl _)
    have hmis : ¬ Misread m.1 buf.readable := by
      intro h
      cases h with
      | line h => exact hline h
      | never h => exact hne h
      | early _ _ hhead hlen =>
        have hlt := m.2.2
        rw [Message.serialize, List.length_append] at hlt
        rw [m.1.contentLen_eq (by omega)] at hlen
        refine hne (hp.eq_of_length_le ?_)
        rw [Message.serialize, List.length_append]
        omega
    obtain ⟨b', r, hdec, hrec⟩ := recognises_of_not_misread hu.wf hp hmis
    obtain rfl := hrec.keeps hne
    refine ⟨.http r, ?_, ?_⟩
    · unfold decodeNew
      rw [hdec]
      rfl
    · exact Bool.eq_false_iff.2 fun h => hne (hrec.complete.1 h)

theorem answers_http : Answers dispatchData (fun (m : Request) data => data = .http m.1.request)
    fun x m => responseText (x.response m) := by
  rintro m x _ out rfl hout hroom
  obtain ⟨out', hw, hh⟩ := writeText_room hout hroom
  exact ⟨out', dispatch_eq.2 hw, hh⟩

/-! ## Responses in order -/

/-- `Serves`, for requests. -/
abbrev ServesRequests (ms : List Request) (s : Serving Servleted) : Prop :=
  Serves (fun m : Request => m.1.serialize) (fun m data => data = .http m.1.request)
    (fun x m => responseText (x.response m)) ms s

/-- What arrives does not end behind a request line. -/
abbrev KeepsLines (ms : List Request) (s : Serving Servleted) (a : ServeAct Servleted) : Prop :=
  KeepsCuts (fun m : Request => m.1.serialize) (fun x m => responseText (x.response m))
    (fun m t => t = m.1.requestLine ++ CRLF) ms s a

/-! ## Reading them back -/

/-- Who reads the responses one behind the other gets these, and nothing else. -/
def ReadsBack : List HttpResponse → Bytes → Prop
  | [], bs => bs = []
  | r :: rs, bs => ∃ rest, readResponse bs = some ⟨r.version, r.code, r.header, r.body, rest⟩ ∧ ReadsBack rs rest

theorem readsBack_of_clean {rs : List HttpResponse} (hrs : ∀ r ∈ rs, Clean r) :
    ReadsBack rs (rs.flatMap responseText) := by
  induction rs with
  | nil => rfl
  | cons r rs ih =>
    obtain ⟨hr, hrs⟩ := List.forall_mem_cons.1 hrs
    obtain ⟨head, htext, -, hread⟩ := exists_head hr
    refine ⟨rs.flatMap responseText, ?_, ih hrs⟩
    rw [List.flatMap_cons, htext, List.append_assoc, List.append_assoc, hread, if_pos (by simp), List.take_left,
      List.drop_left]

/-- The responses to the requests that were dispatched. -/
def responses (ms : List Request) (handed : List (Servleted × Data)) : List HttpResponse :=
  List.zipWith (fun m h => h.1.response m) ms handed

theorem replies_eq (ms : List Request) (handed : List (Servleted × Data)) :
    replies (fun x m => responseText (Servleted.response x m)) ms handed =
      (responses ms handed).flatMap responseText := by
  unfold replies responses
  rw [List.flatMap, List.map_zipWith]

/-- A target in origin form has a path. -/
theorem Message.pathOf_target_ne (m : Message) : pathOf m.target ≠ [] := by
  obtain ⟨rest, hrest⟩ := m.origin
  rw [hrest]
  exact List.cons_ne_nil _ _

/-- A request alone is decoded, so its header values are free of line breaks. -/
theorem Message.request_clean (m : Request) : CleanRequest m.1.request ∧ m.1.request.path ≠ [] := by
  have hh := TcpBuffer.zeroFilled_holds (Nat.le_refl _) m.2.2
  rw [← List.append_nil m.1.serialize] at hh
  obtain ⟨b', hdec, -⟩ := m.1.decode_request m.2.1 hh
  obtain ⟨b₁, r, hd, -, hr⟩ := m.1.decode_front m.2.1 hh
  rw [hdec] at hd
  cases hd
  have hne : m.1.request.path ≠ [] := by
    rw [hr.path]
    exact m.1.pathOf_target_ne
  exact ⟨decode_clean hh.wf hdec hr.succ hne, hne⟩

/-- Every servlet fills its response. -/
def Servleted.Fills (x : Servleted) : Prop := ∀ path handle, x.servlets path = some handle → Http.Fills handle

/-- The servlets of a round fill their responses. -/
def RoundFills : ServeAct Servleted → Prop
  | .round x => x.Fills
  | _ => True

theorem handed_fills {p : Protocal} {s s' : Serving Servleted} {a : ServeAct Servleted}
    (hs : ∀ h ∈ s.handed, h.1.Fills) (ha : RoundFills a) (h : serveStep p dispatchData s a = some s') :
    ∀ h ∈ s'.handed, h.1.Fills := by
  rcases serveStep_handed h with heq | ⟨x, data, rfl, heq⟩
  · rw [heq]
    exact hs
  · rw [heq]
    exact List.forall_mem_append.2 ⟨hs, List.forall_mem_singleton.2 ha⟩

theorem responses_clean {ms : List Request} {handed : List (Servleted × Data)} (hfills : ∀ h ∈ handed, h.1.Fills) :
    ∀ r ∈ responses ms handed, Clean r := by
  intro r hr
  unfold responses at hr
  rw [← List.map_uncurry_zip_eq_zipWith] at hr
  obtain ⟨⟨m, h⟩, hmem, rfl⟩ := List.mem_map.1 hr
  obtain ⟨-, hh⟩ := List.of_mem_zip hmem
  obtain ⟨hclean, hne⟩ := Message.request_clean m
  exact (respond_clean (hfills h hh) hclean hne h.1.code).1

/-- Pipelined requests are answered in order, each as if it had come alone, however they are cut, unless behind
a request line; and back at `input`, unless the connection is being shut down, the peer can read the responses
to all that have arrived. -/
theorem servesRequests_of_keepsLines (ms : List Request) {size : Nat} (h0 : 0 < size) (hsize : size < 2 ^ 31)
    {acts : List (ServeAct Servleted)} (hk : Lts.Along (serveStep .http dispatchData)
      (fun s a => KeepsLines ms s a ∧ RoundFills a) (.new Servleted size) acts) :
    Lts.Always (serveStep .http dispatchData)
      (fun s => ServesRequests ms s ∧
        (s.phase = .input → s.state = .Connected → ReadsBack (responses ms s.handed) s.sent))
      (.new Servleted size) acts := by
  have hserves : Lts.Always (serveStep .http dispatchData) (ServesRequests ms) (.new Servleted size) acts :=
    serves_of_keepsCuts speaks_http answers_http (fun _ _ _ _ _ _ hline => hline) h0 hsize (hk.imp fun _ _ h => h.1)
  have hfills : Lts.Always (serveStep .http dispatchData) (fun s => ∀ h ∈ s.handed, h.1.Fills)
      (.new Servleted size) acts :=
    Lts.always_of_along (fun _ _ _ hs hk h => handed_fills hs hk.2 h) (by simp [Serving.new]) hk
  refine (hserves.and hfills).imp fun s hs => ⟨hs.1, fun hp hopen => ?_⟩
  rw [hs.1.answered (.inl hp) hopen, replies_eq]
  exact readsBack_of_clean (responses_clean hs.2)

/-- `GET /`, and a POST behind it. -/
def sampleRequests : List Request :=
  [⟨sampleRequest, ⟨by decide, List.cons_ne_nil _ _, fun _ => rfl⟩, by decide +kernel⟩,
    ⟨samplePost, ⟨by decide, List.cons_ne_nil _ _, nofun⟩, by decide +kernel⟩]

/-- Every path has a servlet, which answers with a body. -/
def bodyServlet : Servleted := ⟨fun _ => some fun _ res => setHttpBody (setHttpCode res 200) (ascii "hello"), 0⟩

theorem bodyServlet_fills : bodyServlet.Fills := by
  rintro path handle h
  cases h
  exact fun _ _ => ⟨[.code 200], ascii "hello", List.forall_mem_singleton.2 trivial, rfl⟩

/-- One byte arrives, and is left; then the rest. -/
def sampleServe : List (ServeAct Servleted) :=
  let bytes := sampleRequest.serialize ++ samplePost.serialize
  [.read (bytes.take 1), .round bodyServlet, .write 0, .read (bytes.drop 1), .round bodyServlet, .round bodyServlet,
    .round bodyServlet, .write 40, .write 70]

theorem keepsLines_sample : Lts.Along (serveStep .http dispatchData) (KeepsLines sampleRequests)
    (.new Servleted 128) sampleServe := by
  decide +kernel

theorem roundFills_sample : ∀ a ∈ sampleServe, RoundFills a := by
  simp [sampleServe, RoundFills, bodyServlet_fills]

/-- Both requests are answered, and the loop is back at `input`. -/
theorem servesRequests_sample :
    Lts.Always (serveStep .http dispatchData)
      (fun s => ServesRequests sampleRequests s ∧
        (s.phase = .input → s.state = .Connected → ReadsBack (responses sampleRequests s.handed) s.sent))
      (.new Servleted 128) sampleServe ∧
    (Lts.run (serveStep .http dispatchData) (.new Servleted 128) sampleServe).map
      (fun s => (s.phase, s.state, s.handed.length, s.sent.length)) = some (.input, .Connected, 2, 110) :=
  ⟨servesRequests_of_keepsLines sampleRequests (by decide) (by decide)
    (keepsLines_sample.and (.of_mem roundFills_sample)), by decide +kernel⟩

end Flconc.Http
