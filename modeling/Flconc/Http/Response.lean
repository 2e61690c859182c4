/-
Responses: `HttpResponse`, the setters of net/http/http_servlet.cc, `HttpCodeC::encode` and
`HttpDispacther::dispatch`. A reader of responses stands beside them, which cuts the bytes at their
first empty line and takes the body from the Content-Length; what is printed from clean parts reads back.
-/
import Flconc.Http.Message

namespace Flconc.Http

open Wire Text

/-! ## Responses -/

/-- `HttpResponse`; the code of a new response is indeterminate. -/
structure HttpResponse where
  version : Bytes := []
  code : Int
  info : Bytes := []
  header : StringMap := []
  body : Bytes := []
  encodeSucc : Bool := false
  deriving DecidableEq, Repr

def HTTP_NOTFOUND : Int := 404

def httpCodeToString (code : Int) : Bytes :=
  if code = 200 then ascii "OK"
  else if code = 400 then ascii "Bad Request"
  else if code = 403 then ascii "Forbidden"
  else if code = HTTP_NOTFOUND then ascii "Not Found"
  else if code = 500 then ascii "Internal Server Error"
  else ascii "UnKnown code"

/-- An `int` as a stream prints it. -/
def intText (n : Int) : Bytes := if n < 0 then 0x2D :: Decimal.digits n.natAbs else Decimal.digits n.natAbs

/-- `HttpHeaderComm::toHttpString`. -/
def toHttpString (m : StringMap) : Bytes := m.flatMap fun (key, value) => key ++ COLON :: (value ++ CRLF)

/-- The text that `encode` writes. -/
def responseText (response : HttpResponse) : Bytes :=
  response.version ++ (SPACE ++ (intText response.code ++ (SPACE ++ (response.info ++
    (CRLF ++ (toHttpString response.header ++ (CRLF ++ response.body)))))))

/-- `writeToBuffer(const char *, int)` with the size of a text cut to an `int`. -/
def writeText (buf : TcpBuffer) (text : Bytes) : Except Fault TcpBuffer :=
  let size := wrap32 text.length
  if 0 ≤ size then buf.writeToBuffer (text.take size.toNat) else .error .memory

/-- `HttpCodeC::encode`. -/
def encode (buf : TcpBuffer) (response : HttpResponse) : Except Fault (TcpBuffer × HttpResponse) := do
  let buf ← writeText buf (responseText response)
  return (buf, { response with encodeSucc := true })

/-! ## Servlets -/

def setHttpCode (res : HttpResponse) (code : Int) : HttpResponse :=
  { res with code := code, info := httpCodeToString code }

def setHttpContentType (res : HttpResponse) (contentType : Bytes) : HttpResponse :=
  { res with header := res.header.set (ascii "Content-Type") contentType }

def setHttpBody (res : HttpResponse) (body : Bytes) : HttpResponse :=
  { res with body := body, header := res.header.set (ascii "Content-Length") (Decimal.digits body.length) }

/-- `setCommParam`; looking for the header adds an empty one where there is none. -/
def setCommParam (req : HttpRequest) (res : HttpResponse) : HttpRequest × HttpResponse :=
  let value := req.header.get (ascii "Connection")
  ({ req with header := req.header.set (ascii "Connection") value },
    { res with version := req.version, header := res.header.set (ascii "Connection") value })

def contentTypeText : Bytes := ascii "text/html;charset=utf-8"

/-- `default_html_template` with its two strings. -/
def defaultHtmlTemplate (code info : Bytes) : Bytes :=
  ascii "<html><body><h1>" ++ (code ++ (ascii "</h1><p>" ++ (info ++ ascii "</p></body></html>")))

def handleNotFound (res : HttpResponse) : HttpResponse :=
  let res := setHttpCode res HTTP_NOTFOUND
  let res := { res with body := defaultHtmlTemplate (intText HTTP_NOTFOUND) (httpCodeToString HTTP_NOTFOUND) }
  let res := { res with header := res.header.set (ascii "Content-Type") contentTypeText }
  { res with header := res.header.set (ascii "Content-Length") (Decimal.digits res.body.length) }

/-- The `handle` of a servlet, as far as the response goes. -/
abbrev Servlet := HttpRequest → HttpResponse → HttpResponse

/-- The response of `HttpDispacther::dispatch`, from a new one with the code `code`. -/
def respond (servlets : Bytes → Option Servlet) (request : HttpRequest) (code : Int) : HttpResponse :=
  let response : HttpResponse := { code := code }
  if request.path ≠ [] then
    let (request', response) := setCommParam request response
    match servlets request.path with
    | none => handleNotFound response
    | some handle => handle request' response
  else response

def dispatch (servlets : Bytes → Option Servlet) (request : HttpRequest) (code : Int) (out : TcpBuffer) :
    Except Fault TcpBuffer := do
  let (out, _) ← encode out (respond servlets request code)
  return out

/-! ## Reading a response -/

/-- What a reader finds in a response. -/
structure Parts where
  version : Bytes
  code : Int
  header : StringMap
  body : Bytes
  rest : Bytes
  deriving DecidableEq

/-- The text cut at each CRLF. -/
def lines : Bytes → List Bytes
  | [] => [[]]
  | 0x0D :: 0x0A :: s => [] :: lines s
  | c :: s =>
    match lines s with
    | [] => [[c]]
    | l :: ls => (c :: l) :: ls

/-- The text cut at the first `c`. -/
def cut (c : UInt8) (s : Bytes) : Bytes × Bytes := (s.takeWhile (· ≠ c), (s.dropWhile (· ≠ c)).drop 1)

def readInt : Bytes → Int
  | 0x2D :: ds => -(Decimal.value ds : Int)
  | ds => (Decimal.value ds : Int)

/-- The status line and the header lines end at the first empty line, and the body has Content-Length bytes. -/
def readResponse (bs : Bytes) : Option Parts := do
  let i ← find CRLF_DOUBLE bs
  let status :: fields := lines (bs.take i) | none
  let (version, status) := cut 0x20 status
  let (code, _) := cut 0x20 status
  let header : StringMap := fields.map (cut COLON)
  let rest := bs.drop (i + 4)
  let n := Decimal.value (header.get (ascii "Content-Length"))
  if n ≤ rest.length then some ⟨version, readInt code, header, rest.take n, rest.drop n⟩ else none

theorem cut_behind {c : UInt8} {a : Bytes} (ha : c ∉ a) (b : Bytes) : cut c (a ++ c :: b) = (a, b) := by
  have hfree : ∀ d ∈ a, decide (d ≠ c) = true := fun d hd => decide_eq_true fun h => ha (h ▸ hd)
  unfold cut
  rw [List.takeWhile_append_of_pos hfree, List.dropWhile_append_of_pos hfree]
  simp

/-- A text free of line breaks goes to the front of the first line. -/
theorem lines_append {a : Bytes} (ha : ∀ c ∈ a, c ∉ CRLF) {s l : Bytes} {ls : List Bytes} (hs : lines s = l :: ls) :
    lines (a ++ s) = (a ++ l) :: ls := by
  induction a with
  | nil => exact hs
  | cons c a ih =>
    obtain ⟨hc, ha⟩ := List.forall_mem_cons.1 ha
    have hne : c ≠ 0x0D := fun h => hc (h ▸ CR_mem)
    rw [List.cons_append, lines]
    · rw [ih ha]
      rfl
    · rintro s' rfl
      exact absurd rfl hne

theorem lines_line {a : Bytes} (ha : ∀ c ∈ a, c ∉ CRLF) : lines a = [a] := by
  have := lines_append ha (show lines [] = [[]] from rfl)
  rwa [List.append_nil] at this

theorem lines_break {a : Bytes} (ha : ∀ c ∈ a, c ∉ CRLF) (s : Bytes) : lines (a ++ (CRLF ++ s)) = a :: lines s := by
  have := lines_append ha (show lines (CRLF ++ s) = [] :: lines s from rfl)
  rwa [List.append_nil] at this

theorem lines_block (h : HeaderLine) (hs : List HeaderLine) :
    lines (Message.block h hs) = (h :: hs).map HeaderLine.text := by
  induction hs generalizing h with
  | nil => exact lines_line h.text_free
  | cons h' hs ih =>
    rw [Message.block, lines_break h.text_free, ih h']
    rfl

theorem readInt_intText (n : Int) : readInt (intText n) = n := by
  unfold intText
  split
  · show -(Decimal.value (Decimal.digits n.natAbs) : Int) = n
    rw [Decimal.value_digits]
    omega
  · obtain ⟨d, ds, hd⟩ := List.exists_cons_of_ne_nil (Decimal.digits_ne_nil n.natAbs)
    have hdigit := Decimal.digits_isDigit n.natAbs d (by rw [hd]; exact List.mem_cons_self)
    have hread : readInt (Decimal.digits n.natAbs) = (Decimal.value (Decimal.digits n.natAbs) : Int) := by
      unfold readInt
      split
      · rename_i heq
        rw [hd] at heq
        injection heq with heq _
        rw [heq] at hdigit
        exact absurd hdigit (by decide)
      · rfl
    rw [hread, Decimal.value_digits]
    omega

theorem intText_free (n : Int) : ∀ c ∈ intText n, c ∉ SPACE ∧ c ∉ CRLF := by
  have hdigits : ∀ c ∈ Decimal.digits n.natAbs, c ∉ SPACE ∧ c ∉ CRLF := by
    intro c hc
    have hspace := isSpace_of_isDigit (Decimal.digits_isDigit _ c hc)
    constructor
    · intro h
      rw [List.mem_singleton.1 h] at hspace
      cases hspace
    · intro h
      rcases List.mem_cons.1 h with rfl | h
      · cases hspace
      · rw [List.mem_singleton.1 h] at hspace
        cases hspace
  intro c hc
  unfold intText at hc
  split at hc
  · rcases List.mem_cons.1 hc with rfl | hc
    · decide
    · exact hdigits c hc
  · exact hdigits c hc

/-! ## Clean responses -/

/-- A pair that makes a header line. -/
structure CleanPair (p : Bytes × Bytes) : Prop where
  nonempty : p.1 ≠ []
  key_free : ∀ c ∈ p.1, c ≠ COLON ∧ c ∉ CRLF ∧ c ≠ 0
  value_free : ∀ c ∈ p.2, c ∉ CRLF

/-- A response none of whose parts ends the line it stands in, with its length among its headers. -/
structure Clean (r : HttpResponse) : Prop where
  version : ∀ c ∈ r.version, c ∉ SPACE ∧ c ∉ CRLF
  info : ∀ c ∈ r.info, c ∉ CRLF
  header : ∀ p ∈ r.header, CleanPair p
  nonempty : r.header ≠ []
  length : r.header.get (ascii "Content-Length") = Decimal.digits r.body.length

theorem exists_headerLines {m : StringMap} (hm : ∀ p ∈ m, CleanPair p) :
    ∃ hs : List HeaderLine, hs.map (fun h => (h.key, h.value)) = m := by
  induction m with
  | nil => exact ⟨[], rfl⟩
  | cons p m ih =>
    obtain ⟨hp, hm⟩ := List.forall_mem_cons.1 hm
    obtain ⟨hs, rfl⟩ := ih hm
    exact ⟨⟨p.1, p.2, hp.nonempty, hp.key_free, hp.value_free⟩ :: hs, rfl⟩

theorem toHttpString_map (hs : List HeaderLine) :
    toHttpString (hs.map fun h => (h.key, h.value)) = Message.headerText hs := by
  induction hs with
  | nil => rfl
  | cons h hs ih =>
    show h.key ++ COLON :: (h.value ++ CRLF) ++ toHttpString _ = h.key ++ COLON :: h.value ++ (CRLF ++ _)
    rw [ih]
    simp

theorem cut_text (h : HeaderLine) : cut COLON h.text = (h.key, h.value) :=
  cut_behind (fun hc => (h.key_free _ hc).1 rfl) h.value

def statusLine (r : HttpResponse) : Bytes := r.version ++ 0x20 :: (intText r.code ++ 0x20 :: r.info)

theorem Clean.statusLine_free {r : HttpResponse} (hr : Clean r) : ∀ c ∈ statusLine r, c ∉ CRLF := by
  intro c hc
  rcases List.mem_append.1 hc with hc | hc
  · exact (hr.version c hc).2
  rcases List.mem_cons.1 hc with rfl | hc
  · decide
  rcases List.mem_append.1 hc with hc | hc
  · exact (intText_free r.code c hc).2
  rcases List.mem_cons.1 hc with rfl | hc
  · decide
  · exact hr.info c hc

/-- The double line break of a head is the first. -/
theorem find_head {status : Bytes} (hfree : ∀ c ∈ status, c ∉ CRLF) (h : HeaderLine) (hs : List HeaderLine)
    (q : Bytes) : find CRLF_DOUBLE ((status ++ (CRLF ++ Message.block h hs)) ++ (CRLF_DOUBLE ++ q)) =
      some (status ++ (CRLF ++ Message.block h hs)).length := by
  rw [List.append_assoc, List.append_assoc, find_double_skip hfree (Message.block_head h hs _), Message.find_block]
  simp only [Option.map_some, List.length_append]
  congr 1
  show status.length + 2 + (Message.block h hs).length = status.length + (2 + (Message.block h hs).length)
  omega

/-- The head of a clean response reads back whatever follows, and says how much should. -/
theorem exists_head {r : HttpResponse} (hr : Clean r) : ∃ head,
    responseText r = head ++ (CRLF_DOUBLE ++ r.body) ∧ find CRLF_DOUBLE (responseText r) = some head.length ∧
      ∀ q, readResponse (head ++ (CRLF_DOUBLE ++ q)) = if r.body.length ≤ q.length then
        some ⟨r.version, r.code, r.header, q.take r.body.length, q.drop r.body.length⟩ else none := by
  obtain ⟨hs, hmap⟩ := exists_headerLines hr.header
  cases hs with
  | nil => exact absurd hmap.symm hr.nonempty
  | cons h hs =>
    have hfree := hr.statusLine_free
    have htext : responseText r = (statusLine r ++ (CRLF ++ Message.block h hs)) ++ (CRLF_DOUBLE ++ r.body) := by
      unfold responseText statusLine
      rw [← hmap, toHttpString_map, Message.headerText_cons]
      simp [SPACE, CRLF, CRLF_DOUBLE]
    have hheader : ((h :: hs).map HeaderLine.text).map (cut COLON) = r.header := by
      rw [← hmap, List.map_map]
      exact List.map_congr_left fun h _ => cut_text h
    have hversion : cut 0x20 (statusLine r) = (r.version, intText r.code ++ 0x20 :: r.info) :=
      cut_behind (fun hc => (hr.version _ hc).1 (List.mem_singleton_self _)) _
    have hcode : cut 0x20 (intText r.code ++ 0x20 :: r.info) = (intText r.code, r.info) :=
      cut_behind (fun hc => (intText_free r.code _ hc).1 (List.mem_singleton_self _)) _
    refine ⟨statusLine r ++ (CRLF ++ Message.block h hs), htext, ?_, fun q => ?_⟩
    · rw [htext]
      exact find_head hfree h hs r.body
    · unfold readResponse
      rw [find_head hfree]
      simp only [Option.bind_eq_bind, Option.bind_some]
      rw [show 4 = CRLF_DOUBLE.length from rfl, drop_behind, List.take_left, lines_break hfree, lines_block]
      dsimp only
      rw [hversion]
      dsimp only
      rw [hcode, hheader, hr.length, Decimal.value_digits, readInt_intText]

/-- A clean response reads back, with nothing left over. -/
theorem readResponse_eq {r : HttpResponse} (hr : Clean r) :
    readResponse (responseText r) = some ⟨r.version, r.code, r.header, r.body, []⟩ := by
  obtain ⟨head, htext, -, hread⟩ := exists_head hr
  rw [htext, hread, if_pos (Nat.le_refl _), List.take_length, List.drop_length]

/-- A response that is cut off does not read. -/
theorem eq_of_readResponse {r : HttpResponse} (hr : Clean r) {bs : Bytes} (hbs : bs <+: responseText r) {parts : Parts}
    (h : readResponse bs = some parts) : bs = responseText r := by
  obtain ⟨head, htext, hfind, hread⟩ := exists_head hr
  -- a cut in the head leaves no double line break
  have hlong : head.length + 4 ≤ bs.length := by
    by_contra hshort
    have hnone := find_of_isPrefix hbs hfind
    rw [if_neg (show ¬ head.length + CRLF_DOUBLE.length ≤ bs.length from hshort)] at hnone
    unfold readResponse at h
    rw [hnone] at h
    cases h
  obtain ⟨q, rfl⟩ : head ++ CRLF_DOUBLE <+: bs := by
    have hpre : head ++ CRLF_DOUBLE <+: responseText r := by
      rw [htext, ← List.append_assoc]
      exact List.prefix_append _ _
    refine List.prefix_of_prefix_length_le hpre hbs ?_
    rw [List.length_append]
    exact hlong
  rw [List.append_assoc] at h hbs ⊢
  rw [hread] at h
  -- and a cut in the body leaves less than the head says
  refine hbs.eq_of_length_le ?_
  rw [htext]
  simp only [List.length_append]
  split at h
  · omega
  · cases h

end Flconc.Http
