/-
Well-formed HTTP requests and their bytes, and what the functions of net/http/http_codec.cc make of the
request line and of the header block of such a request, whatever follows them.
-/
import Flconc.Lib.Decimal
import Flconc.Http.Split
import Flconc.Net.Execute

namespace Flconc.Http

open Wire Text

/-! ## Requests -/

inductive Version
  | http10
  | http11
  deriving DecidableEq

def Version.text : Version → Bytes
  | .http10 => ascii "HTTP/1.0"
  | .http11 => ascii "HTTP/1.1"

def HttpMethod.text : HttpMethod → Bytes
  | .GET => ascii "GET"
  | .POST => ascii "POST"

def COLON : UInt8 := 0x3A

/-- A header line. -/
structure HeaderLine where
  key : Bytes
  value : Bytes
  nonempty : key ≠ []
  key_free : ∀ c ∈ key, c ≠ COLON ∧ c ∉ CRLF ∧ c ≠ 0
  value_free : ∀ c ∈ value, c ∉ CRLF

def HeaderLine.text (h : HeaderLine) : Bytes := h.key ++ COLON :: h.value

/-- The value of the last line with the key. -/
def lastValue (key : Bytes) : List HeaderLine → Option Bytes
  | [] => none
  | h :: hs => lastValue key hs <|> (if h.key = key then some h.value else none)

/-- A value that reads as `n`: digits, with blanks around them. -/
def ReadsAs (value : Bytes) (n : Nat) : Prop :=
  ∃ front digits back, value = front ++ (digits ++ back) ∧ (∀ c ∈ front, isSpace c = true) ∧
    digits ≠ [] ∧ (∀ c ∈ digits, Decimal.IsDigit c) ∧ (∀ c ∈ back, isSpace c = true) ∧ Decimal.value digits = n

/-- A request in origin form whose body has the length its header lines say. -/
structure Message where
  method : HttpMethod
  target : Bytes
  version : Version
  headers : List HeaderLine
  body : Bytes
  origin : ∃ rest, target = 0x2F :: rest
  target_free : ∀ c ∈ target, c ∉ SPACE ∧ c ∉ CRLF
  length : match lastValue (ascii "Content-Length") headers with
    | none => body = []
    | some value => ReadsAs value body.length

namespace Message

def requestLine (m : Message) : Bytes := m.method.text ++ (SPACE ++ (m.target ++ (SPACE ++ m.version.text)))

/-- The header lines, each with its line break. -/
def headerText : List HeaderLine → Bytes
  | [] => []
  | h :: hs => h.text ++ (CRLF ++ headerText hs)

/-- The request line and the header lines, up to and with the empty line. -/
def head (m : Message) : Bytes := m.requestLine ++ (CRLF ++ (headerText m.headers ++ CRLF))

def serialize (m : Message) : Bytes := m.head ++ m.body

/-- The Content-Length as the codec reads it. -/
def contentLen (m : Message) : Int := atoi ((lastValue (ascii "Content-Length") m.headers).getD [])

end Message

/-! ## The request line -/

theorem CR_mem : (0x0D : UInt8) ∈ CRLF := by decide

theorem HttpMethod.toupper_text (m : HttpMethod) : m.text.map toupper = m.text := by
  cases m <;> decide

theorem HttpMethod.methodOf_text (m : HttpMethod) : methodOf m.text = some m := by
  cases m <;> decide

theorem HttpMethod.text_free (m : HttpMethod) : ∀ c ∈ m.text, c ∉ SPACE ∧ c ∉ CRLF := by
  cases m <;> decide +kernel

theorem Version.toupper_text (v : Version) : v.text.map toupper = v.text := by
  cases v <;> decide

theorem Version.text_eq (v : Version) : v.text = ascii "HTTP/1.1" ∨ v.text = ascii "HTTP/1.0" := by
  cases v
  · exact .inr rfl
  · exact .inl rfl

theorem Version.text_free (v : Version) : ∀ c ∈ v.text, c ∉ SPACE ∧ c ∉ CRLF := by
  cases v <;> decide +kernel

/-- The request line is taken apart at its first and its last space. -/
theorem parseHttpRequestLine_of {method version : Bytes} (hm : ∀ c ∈ method, c ∉ SPACE) (hv : ∀ c ∈ version, c ∉ SPACE)
    {m : HttpMethod} (hmethod : methodOf (method.map toupper) = some m)
    (hversion : version.map toupper = ascii "HTTP/1.1" ∨ version.map toupper = ascii "HTTP/1.0")
    (url : Bytes) (requset : HttpRequest) :
    parseHttpRequestLine requset (method ++ (SPACE ++ (url ++ (SPACE ++ version)))) =
      parseTarget { requset with method := some m, version := version.map toupper } url := by
  generalize hline : method ++ (SPACE ++ (url ++ (SPACE ++ version))) = line
  have hsp : (0x20 : UInt8) ∈ SPACE := by decide
  have h1 : findFirstOf SPACE line = some method.length := hline ▸ findFirstOf_behind hm hsp _
  have hlast : line = (method ++ (SPACE ++ url)) ++ 0x20 :: version := by
    simp [← hline, SPACE]
  have h2 : findLastOf SPACE line = some (method ++ (SPACE ++ url)).length := by
    rw [hlast]
    exact findLastOf_behind hv hsp
  have hl : (method ++ (SPACE ++ url)).length = method.length + (1 + url.length) := by
    simp [SPACE, Nat.add_comm]
  have hlen : line.length = method.length + (1 + url.length) + (1 + version.length) := by
    rw [hlast, List.length_append, hl, List.length_cons]
    omega
  have hfront : line.take method.length = method := by rw [← hline, List.take_left]
  have hback : line.drop (method.length + (1 + url.length) + 1) = version := by
    rw [← hl, hlast, List.drop_append, List.drop_of_length_le (by omega)]
    simp
  have htarget : (line.drop (method.length + 1)).take (method.length + (1 + url.length) - method.length - 1) = url := by
    have hd : line.drop (method.length + 1) = url ++ (SPACE ++ version) := by
      rw [← List.drop_drop, ← hline, List.drop_left]
      rfl
    rw [hd, show method.length + (1 + url.length) - method.length - 1 = url.length by omega, List.take_left]
  unfold parseHttpRequestLine
  rw [h1, h2, hl]
  dsimp only
  rw [if_neg (by omega), substr_front, ok_bind, hfront, hmethod]
  dsimp only
  rw [substr_back (by omega) (by omega), ok_bind, hback]
  rw [if_neg (by rcases hversion with h | h <;> rw [h] <;> decide)]
  rw [substr_of_le (by omega), ok_bind, htarget]

namespace Message

theorem requestLine_free (m : Message) : ∀ c ∈ m.requestLine, c ∉ CRLF := by
  intro c hc
  have hspace : ∀ c ∈ SPACE, c ∉ CRLF := by decide +kernel
  rcases List.mem_append.1 hc with h | h
  · exact (m.method.text_free c h).2
  rcases List.mem_append.1 h with h | h
  · exact hspace c h
  rcases List.mem_append.1 h with h | h
  · exact (m.target_free c h).2
  rcases List.mem_append.1 h with h | h
  · exact hspace c h
  · exact (m.version.text_free c h).2

theorem parseHttpRequestLine_eq (m : Message) (requset : HttpRequest) :
    parseHttpRequestLine requset m.requestLine =
      parseTarget { requset with method := some m.method, version := m.version.text } m.target := by
  have hmethod : methodOf (m.method.text.map toupper) = some m.method := by
    rw [m.method.toupper_text, m.method.methodOf_text]
  have hversion : m.version.text.map toupper = ascii "HTTP/1.1" ∨ m.version.text.map toupper = ascii "HTTP/1.0" := by
    rw [m.version.toupper_text]
    exact m.version.text_eq
  have h := parseHttpRequestLine_of (fun c hc => (m.method.text_free c hc).1)
    (fun c hc => (m.version.text_free c hc).1) hmethod hversion m.target requset
  rw [m.version.toupper_text] at h
  exact h

end Message

/-! ## The target -/

/-- The target up to its first question mark, and behind it. -/
def pathOf (target : Bytes) : Bytes := target.takeWhile (· ≠ 0x3F)
def queryOf (target : Bytes) : Bytes := (target.dropWhile (· ≠ 0x3F)).drop 1

/-- Parsing a target does not fail on the query's pairs, and fills path and query. -/
theorem parsePath_eq (requset : HttpRequest) (hquery : requset.query = []) (url : Bytes) :
    ∃ maps, parsePath requset url =
      .ok (true, { requset with path := pathOf url, query := queryOf url, queryMaps := maps }) := by
  unfold parsePath
  split
  · rename_i hnone
    have hfree : ∀ c ∈ url, c ≠ 0x3F := fun c hc h =>
      findFirstOf_eq_none.1 hnone c hc (h ▸ List.mem_singleton_self _)
    have hpath : pathOf url = url := List.takeWhile_eq_self_iff.2 (by simpa using hfree)
    have hq : queryOf url = [] := by
      unfold queryOf
      rw [List.dropWhile_eq_nil_iff.2 (by simpa using hfree)]
      rfl
    exact ⟨requset.queryMaps, by rw [hpath, hq, ← hquery]⟩
  · rename_i j hj
    obtain ⟨a, c, b, rfl, rfl, hc, ha⟩ := findFirstOf_split hj
    obtain rfl : c = 0x3F := List.mem_singleton.1 hc
    have ha : ∀ d ∈ a, (decide (d ≠ 0x3F)) = true := fun d hd =>
      decide_eq_true fun h => ha d hd (h ▸ List.mem_singleton_self _)
    have hpath : pathOf (a ++ 0x3F :: b) = a := by
      unfold pathOf
      rw [List.takeWhile_append_of_pos ha]
      simp
    have hq : queryOf (a ++ 0x3F :: b) = b := by
      unfold queryOf
      rw [List.dropWhile_append_of_pos ha]
      simp
    obtain ⟨maps, hmaps⟩ := splitStrToMap_single b 0x26 0x3D requset.queryMaps
    refine ⟨maps, ?_⟩
    have hlen : (a ++ 0x3F :: b).length = a.length + (b.length + 1) := by simp
    rw [hpath, hq, substr_front, ok_bind, List.take_left, substr_back (by omega) (by omega), ok_bind, ← List.drop_drop,
      List.drop_left]
    show ((splitStrToMap b (ascii "&") (ascii "=") requset.queryMaps).bind _) = _
    rw [show ascii "&" = [0x26] from rfl, show ascii "=" = [0x3D] from rfl, hmaps]
    rfl

/-- A target that ends with its first `://` is refused. -/
def SchemeEnds (target : Bytes) : Prop := ∃ j, find (ascii "://") target = some j ∧ target.length = j + 3

instance (target : Bytes) : Decidable (SchemeEnds target) :=
  decidable_of_iff ((find (ascii "://") target).any fun j => target.length = j + 3)
    (by simp [SchemeEnds, Option.any_eq_true])

/-- What parsing a target comes to: `r` is the request `requset` but for the target's parts. -/
structure TargetParsed (requset : HttpRequest) (target : Bytes) (ok : Bool) (r : HttpRequest) : Prop where
  refused : ok = false ↔ SchemeEnds target
  path : find (ascii "://") target = none → r.path = pathOf target ∧ r.query = queryOf target
  method : r.method = requset.method
  version : r.version = requset.version
  header : r.header = requset.header
  body : r.body = requset.body

theorem parseTarget_cases (requset : HttpRequest) (hquery : requset.query = []) (target : Bytes) :
    ∃ ok r, parseTarget requset target = .ok (ok, r) ∧ TargetParsed requset target ok r := by
  unfold parseTarget
  cases hj : find (ascii "://") target with
  | none =>
    obtain ⟨maps, h⟩ := parsePath_eq requset hquery target
    refine ⟨_, _, h, iff_of_false nofun ?_, fun _ => ⟨rfl, rfl⟩, rfl, rfl, rfl, rfl⟩
    rintro ⟨j, h, -⟩
    rw [hj] at h
    cases h
  | some j =>
    have hbound : j + 3 ≤ target.length := find_bound hj
    have hsome : find (ascii "://") target ≠ none := by rw [hj]; nofun
    dsimp only
    split
    · rename_i hend
      exact ⟨_, _, rfl, iff_of_true rfl ⟨j, hj, by omega⟩, fun h => absurd h hsome, rfl, rfl, rfl, rfl⟩
    · rename_i hend
      have hmore : ¬ SchemeEnds target := by
        rintro ⟨j', h, hlen⟩
        rw [hj] at h
        cases h
        omega
      rw [substr_of_le hbound, ok_bind]
      split
      · exact ⟨_, _, rfl, iff_of_false nofun hmore, fun h => absurd h hsome, rfl, rfl, rfl, rfl⟩
      · rename_i i hi
        split
        · exact ⟨_, _, rfl, iff_of_false nofun hmore, fun h => absurd h hsome, rfl, rfl, rfl, rfl⟩
        · obtain ⟨a, c, b, hab, rfl, -, -⟩ := findFirstOf_split hi
          rw [substr_of_le (by rw [hab]; simp), ok_bind]
          obtain ⟨maps, h⟩ := parsePath_eq requset hquery _
          exact ⟨_, _, h, iff_of_false nofun hmore, fun h => absurd h hsome, rfl, rfl, rfl, rfl⟩

/-! ## The header block -/

theorem HeaderLine.text_free (h : HeaderLine) : ∀ c ∈ h.text, c ∉ CRLF := by
  intro c hc
  rcases List.mem_append.1 hc with hc | hc
  · exact (h.key_free c hc).2.1
  rcases List.mem_cons.1 hc with rfl | hc
  · decide
  · exact h.value_free c hc

theorem HeaderLine.text_ne_nil (h : HeaderLine) : h.text ≠ [] := by
  simp [HeaderLine.text]

/-- A text of whole lines, of which the first is not empty, has no empty line at its front. -/
theorem find_double_skip {a s : Bytes} (ha : ∀ c ∈ a, c ∉ CRLF) (hs : s.head? ≠ some 0x0D) :
    find CRLF_DOUBLE (a ++ (CRLF ++ s)) = (find CRLF_DOUBLE s).map (a.length + 2 + ·) := by
  have hskip : find CRLF_DOUBLE (CRLF ++ s) = (find CRLF_DOUBLE s).map (2 + ·) := by
    show find CRLF_DOUBLE (0x0D :: 0x0A :: s) = _
    rw [find_cons, if_neg, find_cons, if_neg, Option.map_map]
    · congr 1
      funext n
      show n + 1 + 1 = 2 + n
      omega
    · simp [CRLF_DOUBLE, List.isPrefixOf]
    · cases s with
      | nil => simp [CRLF_DOUBLE, List.isPrefixOf]
      | cons c s =>
        have hc : c ≠ 0x0D := fun h => hs (by rw [h]; rfl)
        simp [CRLF_DOUBLE, List.isPrefixOf, Ne.symm hc]
  rw [show CRLF_DOUBLE = 0x0D :: [0x0A, 0x0D, 0x0A] from rfl, find_skip _ fun h => ha _ h CR_mem]
  rw [← show CRLF_DOUBLE = 0x0D :: [0x0A, 0x0D, 0x0A] from rfl, hskip, Option.map_map]
  congr 1
  funext n
  show a.length + (2 + n) = a.length + 2 + n
  omega

namespace Message

/-- The header lines without the last line break. -/
def block (h : HeaderLine) : List HeaderLine → Bytes
  | [] => h.text
  | h' :: hs => h.text ++ (CRLF ++ block h' hs)

theorem headerText_cons (h : HeaderLine) (hs : List HeaderLine) : headerText (h :: hs) = block h hs ++ CRLF := by
  induction hs generalizing h with
  | nil => simp [headerText, block]
  | cons h' hs ih =>
    rw [headerText, ih h', block]
    simp

theorem block_head (h : HeaderLine) (hs : List HeaderLine) (s : Bytes) : (block h hs ++ s).head? ≠ some 0x0D := by
  obtain ⟨c, rest, hc⟩ := List.exists_cons_of_ne_nil h.text_ne_nil
  have hfree := h.text_free c (by rw [hc]; exact List.mem_cons_self)
  have hhead : (block h hs ++ s).head? = some c := by
    cases hs with
    | nil => rw [block, hc]; rfl
    | cons h' hs => rw [block, hc]; rfl
  rw [hhead]
  rintro ⟨⟩
  exact hfree CR_mem

theorem block_last (h : HeaderLine) (hs : List HeaderLine) : ∀ c ∈ (block h hs).getLast?, c ∉ CRLF := by
  induction hs generalizing h with
  | nil => exact fun c hc => h.text_free c (List.mem_of_getLast? hc)
  | cons h' hs ih =>
    intro c hc
    have hne : block h' hs ≠ [] := by cases hs <;> simp [block, HeaderLine.text]
    rw [block, List.getLast?_append_of_ne_nil _ (by simp [hne]), List.getLast?_append_of_ne_nil _ hne] at hc
    exact ih h' c hc

/-- The empty line is found behind the block. -/
theorem find_block (h : HeaderLine) (hs : List HeaderLine) (rest : Bytes) :
    find CRLF_DOUBLE (block h hs ++ (CRLF_DOUBLE ++ rest)) = some (block h hs).length := by
  induction hs generalizing h with
  | nil => exact find_behind (fun hc => h.text_free _ hc CR_mem) rest
  | cons h' hs ih =>
    rw [block, List.append_assoc, List.append_assoc, find_double_skip h.text_free (block_head h' hs _), ih h']
    simp only [Option.map_some, List.length_append]
    congr 1
    show h.text.length + 2 + (block h' hs).length = h.text.length + (2 + (block h' hs).length)
    omega

/-- The block falls apart into its lines. -/
theorem splitLoop_headerText {hs : List HeaderLine} (hlt : (headerText hs).length < 2 ^ 32) :
    splitLoop CRLF (by decide) (headerText hs) = .ok (hs.map HeaderLine.text) := by
  induction hs with
  | nil => exact splitLoop_none _ rfl
  | cons h hs ih =>
    have ih := ih ((length_behind_lt (by decide) h.text (headerText hs)).trans hlt)
    have hfind : findFirstOf CRLF (headerText (h :: hs)) = some h.text.length :=
      findFirstOf_behind h.text_free CR_mem (0x0A :: headerText hs)
    have hlen : h.text.length + CRLF.length ≤ (headerText (h :: hs)).length := by
      simp only [headerText, List.length_append]
      omega
    have hdrop : (headerText (h :: hs)).drop (h.text.length + CRLF.length) = headerText hs := drop_behind _ _ _
    have htake : (headerText (h :: hs)).take h.text.length = h.text := List.take_left
    rw [splitLoop_some _ hfind hlen, restBehind_of_lt hlt, hdrop, ih, htake, ok_bind, if_neg h.text_ne_nil]
    rfl

theorem splitStrToVector_block {h : HeaderLine} {hs : List HeaderLine}
    (hlt : (headerText (h :: hs)).length < 2 ^ 32) :
    splitStrToVector (block h hs) CRLF = .ok ((h :: hs).map HeaderLine.text) := by
  have hne : block h hs ≠ [] := by cases hs <;> simp [block, HeaderLine.text]
  have hlen : 2 ≤ (block h hs).length := by
    have hkey := List.length_pos_of_ne_nil h.nonempty
    cases hs <;> simp only [block, HeaderLine.text, List.length_append, List.length_cons] <;> omega
  have hlast : (block h hs).drop ((block h hs).length - CRLF.length) ≠ CRLF := by
    intro hd
    have hb := List.take_append_drop ((block h hs).length - CRLF.length) (block h hs)
    rw [hd] at hb
    have hc : (0x0A : UInt8) ∈ (block h hs).getLast? := by
      rw [← hb, List.getLast?_append_of_ne_nil _ (by decide)]
      rfl
    exact block_last h hs _ hc (by decide)
  unfold splitStrToVector terminated
  rw [if_neg hne, dif_neg (by decide), if_neg (by show ¬ (block h hs).length < 2; omega), if_pos hlast,
    ← headerText_cons]
  exact splitLoop_headerText hlt

end Message

/-- A header line gives its pair. -/
theorem insertPair_text (res : StringMap) (h : HeaderLine) :
    insertPair [COLON] res h.text = .ok (res.set h.key h.value) :=
  insertPair_pair h.nonempty (fun hc => (h.key_free COLON hc).1 rfl) (fun hc => (h.key_free 0 hc).2.2 rfl)
    h.value res

/-- The pairs of the lines, a later line overwriting an earlier one. -/
def readHeaders (res : StringMap) (hs : List HeaderLine) : StringMap :=
  hs.foldl (fun res h => res.set h.key h.value) res

theorem foldlM_insertPair (hs : List HeaderLine) (res : StringMap) :
    (hs.map HeaderLine.text).foldlM (insertPair [COLON]) res = .ok (readHeaders res hs) := by
  induction hs generalizing res with
  | nil => rfl
  | cons h hs ih =>
    rw [List.map_cons, List.foldlM_cons, insertPair_text, ok_bind]
    exact ih _

theorem readHeaders_get (key : Bytes) (hs : List HeaderLine) (res : StringMap) :
    (readHeaders res hs).get key = (lastValue key hs).getD (res.get key) := by
  induction hs generalizing res with
  | nil => rfl
  | cons h hs ih =>
    show (readHeaders (res.set h.key h.value) hs).get key = _
    rw [ih, StringMap.get_set, lastValue]
    cases hl : lastValue key hs with
    | some v => rfl
    | none =>
      by_cases hk : h.key = key
      · subst hk
        simp
      · rw [if_neg (Ne.symm hk), if_neg hk]
        rfl

/-- A line with the key takes its bytes. -/
theorem lastValue_length {key value : Bytes} {hs : List HeaderLine} (h : lastValue key hs = some value) :
    key.length + 3 ≤ (Message.headerText hs).length := by
  induction hs with
  | nil => cases h
  | cons l hs ih =>
    rw [lastValue] at h
    rw [Message.headerText]
    simp only [List.length_append]
    cases hl : lastValue key hs with
    | some v =>
      have := ih (by rw [hl] at h ⊢; exact h)
      omega
    | none =>
      rw [hl] at h
      by_cases hk : l.key = key
      · simp only [HeaderLine.text, List.length_append, List.length_cons, hk]
        show key.length + 3 ≤ key.length + (l.value.length + 1) + (2 + _)
        omega
      · rw [if_neg hk] at h
        cases h

theorem readHeaders_short {h : HeaderLine} {hs : List HeaderLine} (hshort : (Message.block h hs).length < 4) :
    lastValue (ascii "Content-Length") (h :: hs) = none := by
  cases hl : lastValue (ascii "Content-Length") (h :: hs) with
  | none => rfl
  | some value =>
    have := lastValue_length hl
    rw [Message.headerText_cons, List.length_append] at this
    have : (ascii "Content-Length").length + 3 ≤ (Message.block h hs).length + 2 := this
    have : (ascii "Content-Length").length = 14 := by decide
    omega

/-- Parsing the block keeps the rest of the request, and the Content-Length is the last line's. -/
theorem parseHttpRequestHeader_block {requset : HttpRequest} (hempty : requset.header = []) {h : HeaderLine}
    {hs : List HeaderLine} (hlt : (Message.headerText (h :: hs)).length < 2 ^ 32) :
    ∃ header, parseHttpRequestHeader requset (Message.block h hs) =
      .ok { requset with header := header } ∧
      header.get (ascii "Content-Length") = (lastValue (ascii "Content-Length") (h :: hs)).getD [] := by
  unfold parseHttpRequestHeader
  split
  · rename_i hor
    have hshort : (Message.block h hs).length < 4 := by
      refine hor.resolve_right fun he => ?_
      refine Message.block_last h hs 0x0A ?_ (by decide)
      rw [he]
      decide
    exact ⟨requset.header, rfl, by rw [readHeaders_short hshort, hempty]; rfl⟩
  · refine ⟨readHeaders requset.header (h :: hs), ?_, ?_⟩
    · have hne : Message.block h hs ≠ [] := by cases hs <;> simp [Message.block, HeaderLine.text]
      unfold splitStrToMap
      rw [if_neg (by simp [hne, CRLF, ascii]), Message.splitStrToVector_block hlt, ok_bind,
        show ascii ":" = [COLON] from rfl, foldlM_insertPair]
      rfl
    · rw [readHeaders_get, hempty, StringMap.get_nil]

/-! ## The length -/

/-- `atoi` reads the digits and stops behind them. -/
theorem atoi_eq {value : Bytes} {n : Nat} (h : ReadsAs value n) : atoi value = wrap32 (min (2 ^ 63 - 1) n) := by
  obtain ⟨front, digits, back, rfl, hfront, hne, hdigits, hback, rfl⟩ := h
  have hhead : ∀ c ∈ back.head?, ¬ Decimal.IsDigit c := by
    intro c hc hdigit
    have hspace := hback c (List.mem_of_mem_head? hc)
    rw [isSpace_of_isDigit hdigit] at hspace
    cases hspace
  have hleads : Leads (front ++ (digits ++ back)) (Decimal.value digits) :=
    ⟨front, [], digits, back, rfl, hfront, .inl rfl, hne, hdigits, hhead, rfl⟩
  rw [atoi_of_leads hleads, max_eq_right (by omega)]

theorem Message.contentLen_eq (m : Message) (h : m.body.length < 2 ^ 31) : m.contentLen = m.body.length := by
  have hlength := m.length
  unfold Message.contentLen
  cases hl : lastValue (ascii "Content-Length") m.headers with
  | none =>
    rw [hl] at hlength
    have hlength : m.body = [] := hlength
    rw [hlength]
    decide
  | some value =>
    rw [hl] at hlength
    rw [Option.getD_some, atoi_eq hlength, min_eq_right (by omega)]
    exact wrap32_of_inInt32 ⟨by omega, by omega⟩

/-! ## The head -/

namespace Message

theorem head_cons (m : Message) {h : HeaderLine} {hs : List HeaderLine} (hm : m.headers = h :: hs) :
    m.head = m.requestLine ++ (CRLF ++ (block h hs ++ CRLF_DOUBLE)) := by
  rw [head, hm, headerText_cons]
  simp [CRLF_DOUBLE, CRLF]

theorem length_head (m : Message) {h : HeaderLine} {hs : List HeaderLine} (hm : m.headers = h :: hs) :
    m.head.length = m.requestLine.length + 2 + ((block h hs).length + 4) := by
  rw [m.head_cons hm]
  simp only [List.length_append]
  show m.requestLine.length + (2 + ((block h hs).length + 4)) = _
  omega

/-- The first line break ends the request line. -/
theorem find_line (m : Message) (s : Bytes) : find CRLF (m.requestLine ++ (CRLF ++ s)) = some m.requestLine.length :=
  find_behind (fun hc => m.requestLine_free _ hc CR_mem) s

/-- What the codec makes of a request whose head is parsed, before the body. -/
structure Read (m : Message) (r : HttpRequest) : Prop where
  method : r.method = some m.method
  version : r.version = m.version.text
  path : find (ascii "://") m.target = none → r.path = pathOf m.target ∧ r.query = queryOf m.target
  body : r.body = []
  length : contentLength r = m.contentLen

/-- The head of a request with header lines is parsed, whatever follows. -/
theorem headParsed (m : Message) {h : HeaderLine} {hs : List HeaderLine} (hm : m.headers = h :: hs)
    (hscheme : ¬ SchemeEnds m.target) (hlt : m.head.length < 2 ^ 31) (q : Bytes) : ∃ r₁ r₂,
      HeadParsed (m.head ++ q) m.requestLine.length (block h hs).length r₁ r₂ ∧ m.Read r₂ := by
  have hlen := m.length_head hm
  have hstrs : m.head ++ q = m.requestLine ++ (CRLF ++ (block h hs ++ (CRLF_DOUBLE ++ q))) := by
    rw [m.head_cons hm]
    simp only [List.append_assoc]
  have htail : (m.head ++ q).drop (m.requestLine.length + 2) = block h hs ++ (CRLF_DOUBLE ++ q) := by
    rw [hstrs]
    exact drop_behind _ CRLF _
  obtain ⟨ok, r₁, hr₁, ht⟩ :=
    parseTarget_cases { method := some m.method, version := m.version.text } rfl m.target
  obtain rfl : ok = true := by
    cases ok with
    | true => rfl
    | false => exact absurd (ht.refused.1 rfl) hscheme
  have hblock : (headerText (h :: hs)).length < 2 ^ 32 := by
    rw [headerText_cons, List.length_append]
    show (block h hs).length + 2 < 2 ^ 32
    omega
  obtain ⟨header, hr₂, hlength⟩ := parseHttpRequestHeader_block ht.header hblock
  refine ⟨r₁, { r₁ with header := header }, ⟨?_, ?_, ?_, ?_, ?_⟩, ht.method, ht.version, ht.path, ht.body, ?_⟩
  · rw [hstrs]
    exact m.find_line _
  · rw [List.length_append]
    omega
  · rw [hstrs, List.take_left, m.parseHttpRequestLine_eq]
    exact hr₁
  · rw [htail]
    exact find_block h hs q
  · rw [htail, List.take_left]
    exact hr₂
  · unfold contentLength contentLen
    rw [hm, ← hlength]

end Message

end Flconc.Http
