/-
The HTTP codec of net/http/http_codec.cc with the string splitting of comm/string_util.cc: the
request line up to the first CRLF, the header block up to the next empty line, and a POST body of
Content-Length bytes, taken from a string copy of the readable bytes.
-/
import Flconc.Lib.Decimal
import Flconc.Lib.Text
import Flconc.Net.TcpBuffer

namespace Flconc.Http

open Wire Text

/-! ## Splitting -/

/-- `std::map<std::string, std::string>` as its entries in key order. -/
abbrev StringMap := List (Bytes × Bytes)

/-- `res[key] = value`. -/
def StringMap.set (key value : Bytes) : StringMap → StringMap
  | [] => [(key, value)]
  | (k, v) :: rest =>
    if key = k then (key, value) :: rest
    else if key < k then (key, value) :: (k, v) :: rest
    else (k, v) :: StringMap.set key value rest

/-- The value `operator[]` finds or inserts. -/
def StringMap.get (m : StringMap) (key : Bytes) : Bytes := (m.lookup key).getD []

/-- What a round of `SplitStrToVector` leaves of `tmp` behind the position `pos`. The length is kept in
an `int`; a count that comes out negative is larger than any string. -/
def restBehind (tmp : Bytes) (pos : Nat) : Bytes :=
  let l := wrap32 tmp.length
  if l < pos then tmp.drop pos else (tmp.drop pos).take (l - pos).toNat

theorem restBehind_isPrefix (tmp : Bytes) (pos : Nat) : restBehind tmp pos <+: tmp.drop pos := by
  unfold restBehind
  dsimp only
  split
  · exact List.prefix_refl _
  · exact List.take_prefix _ _

/-- Below four gigabytes nothing is cut off. -/
theorem restBehind_of_lt {tmp : Bytes} (h : tmp.length < 2 ^ 32) (pos : Nat) :
    restBehind tmp pos = tmp.drop pos := by
  unfold restBehind
  dsimp only
  split
  · rfl
  · rename_i hl
    refine List.take_of_length_le ?_
    have hwrap : wrap32 tmp.length = tmp.length := by
      refine wrap32_of_inInt32 ⟨by omega, ?_⟩
      by_contra hge
      rw [wrap32_overflow (by omega) (by omega)] at hl
      omega
    rw [hwrap, List.length_drop]
    omega

/-- The loop of `SplitStrToVector`: the pieces in front of a character of `split`, after each of
which as many characters are dropped as `split` has. -/
def splitLoop (split : Bytes) (hs : split ≠ []) (tmp : Bytes) : Except Fault (List Bytes) :=
  match findFirstOf split tmp with
  | none => .ok []
  | some i =>
    if _h : i + split.length ≤ tmp.length then do
      let rest ← splitLoop split hs (restBehind tmp (i + split.length))
      return if tmp.take i = [] then rest else tmp.take i :: rest
    else .error .thrown
termination_by tmp.length
decreasing_by
  have := List.length_pos_of_ne_nil hs
  have := (restBehind_isPrefix tmp (i + split.length)).length_le
  rw [List.length_drop] at this
  omega

/-- The separator is put at the end when it is missing there. -/
def terminated (str split : Bytes) : Bytes :=
  if str.drop (str.length - split.length) ≠ split then str ++ split else str

/-- `StringUtil::SplitStrToVector`; a text shorter than the separator throws. -/
def splitStrToVector (str split : Bytes) : Except Fault (List Bytes) :=
  if str = [] then .ok []
  else if hs : split = [] then .ok []
  else if str.length < split.length then .error .thrown
  else splitLoop split hs (terminated str split)

/-- One piece of `SplitStrToMap`: the key in front of the first character of `joiner`. -/
def insertPair (joiner : Bytes) (res : StringMap) (piece : Bytes) : Except Fault StringMap :=
  match findFirstOf joiner piece with
  | some (j + 1) => do
    let key ← substr piece 0 (j + 1)
    let value ← substr piece (j + 1 + joiner.length) (piece.length - (j + 1) - joiner.length)
    return res.set (cString key) value
  | _ => .ok res

/-- `StringUtil::SplitStrToMap`. -/
def splitStrToMap (str split joiner : Bytes) (res : StringMap) : Except Fault StringMap :=
  if str = [] ∨ split = [] ∨ joiner = [] then .ok res
  else do
    let vec ← splitStrToVector str split
    vec.foldlM (insertPair joiner) res

/-! ## Requests -/

inductive HttpMethod
  | GET
  | POST
  deriving DecidableEq, Repr

/-- `HttpRequest`; the method of a new request is none of the enumeration's. -/
structure HttpRequest where
  method : Option HttpMethod := none
  path : Bytes := []
  query : Bytes := []
  version : Bytes := []
  header : StringMap := []
  body : Bytes := []
  queryMaps : StringMap := []
  decodeSucc : Bool := false
  deriving DecidableEq, Repr

def SPACE : Bytes := [0x20]
def CRLF : Bytes := [0x0D, 0x0A]
def CRLF_DOUBLE : Bytes := [0x0D, 0x0A, 0x0D, 0x0A]

/-- `toupper` in the C locale. -/
def toupper (c : UInt8) : UInt8 := if 0x61 ≤ c ∧ c ≤ 0x7A then c - 0x20 else c

def methodOf (method : Bytes) : Option HttpMethod :=
  if method = ascii "GET" then some .GET else if method = ascii "POST" then some .POST else none

/-- The end of `parseHttpRequestLine`: path and query, split at the first `?`. -/
def parsePath (requset : HttpRequest) (url : Bytes) : Except Fault (Bool × HttpRequest) :=
  match findFirstOf (ascii "?") url with
  | none => .ok (true, { requset with path := url })
  | some j => do
    let path ← substr url 0 j
    let query ← substr url (j + 1) (url.length - j - 1)
    let maps ← splitStrToMap query (ascii "&") (ascii "=") requset.queryMaps
    return (true, { requset with path := path, query := query, queryMaps := maps })

/-- The target of `parseHttpRequestLine`: a scheme and an authority are cut off, with the slash
behind them. -/
def parseTarget (requset : HttpRequest) (url : Bytes) : Except Fault (Bool × HttpRequest) :=
  match find (ascii "://") url with
  | none => parsePath requset url
  | some j =>
    if j + 3 ≥ url.length then .ok (false, requset)
    else do
      let url ← substr url (j + 3) (url.length - j - 3)
      match findFirstOf (ascii "/") url with
      | none => return (true, requset)
      | some j =>
        if j = url.length - 1 then return (true, requset)
        else
          let url ← substr url (j + 1) (url.length - j - 1)
          parsePath requset url

/-- `parseHttpRequestLine`: whether it succeeds, and the request as far as it was filled. -/
def parseHttpRequestLine (requset : HttpRequest) (tmp : Bytes) : Except Fault (Bool × HttpRequest) :=
  match findFirstOf SPACE tmp, findLastOf SPACE tmp with
  | some s1, some s2 =>
    if s1 = s2 then .ok (false, requset)
    else do
      let method ← substr tmp 0 s1
      match methodOf (method.map toupper) with
      | none => return (false, requset)
      | some m =>
        let requset := { requset with method := some m }
        let version ← substr tmp (s2 + 1) (tmp.length - s2 - 1)
        let version := version.map toupper
        if version ≠ ascii "HTTP/1.1" ∧ version ≠ ascii "HTTP/1.0" then return (false, requset)
        else
          let url ← substr tmp (s1 + 1) (s2 - s1 - 1)
          parseTarget { requset with version := version } url
  | _, _ => .ok (false, requset)

/-- `parseHttpRequestHeader`, which always succeeds. -/
def parseHttpRequestHeader (requset : HttpRequest) (str : Bytes) : Except Fault HttpRequest :=
  if str.length < 4 ∨ str = CRLF_DOUBLE then .ok requset
  else do
    let header ← splitStrToMap str CRLF (ascii ":") requset.header
    return { requset with header := header }

/-- `parseHttpRequestContent`, which always succeeds. -/
def parseHttpRequestContent (requset : HttpRequest) (str : Bytes) : HttpRequest :=
  if str = [] then requset else { requset with body := str }

def isSpace (c : UInt8) : Bool := c = 0x20 || (0x09 ≤ c && c ≤ 0x0D)
def isDigit (c : UInt8) : Bool := 0x30 ≤ c && c ≤ 0x39

/-- `std::atoi`: `strtol` in base ten, which saturates at 64 bits, cut to an `int`. -/
def atoi (s : Bytes) : Int :=
  let s := s.dropWhile isSpace
  let (neg, s) := match s with
    | 0x2D :: rest => (true, rest)
    | 0x2B :: rest => (false, rest)
    | s => (false, s)
  let n : Nat := (s.takeWhile isDigit).foldl (fun n c => 10 * n + (c.toNat - 0x30)) 0
  wrap32 (max (-2 ^ 63) (min (2 ^ 63 - 1) (if neg then -(n : Int) else n)))

theorem isDigit_iff (c : UInt8) : isDigit c = true ↔ Decimal.IsDigit c := by
  simp [isDigit, Decimal.IsDigit]

theorem isSpace_of_isDigit {c : UInt8} (h : Decimal.IsDigit c) : isSpace c = false := by
  obtain ⟨h1, h2⟩ := h
  rw [UInt8.le_iff_toNat_le] at h1 h2
  have h1 : 0x30 ≤ c.toNat := h1
  unfold isSpace
  simp only [Bool.or_eq_false_iff, decide_eq_false_iff_not, Bool.and_eq_false_iff, UInt8.le_iff_toNat_le]
  refine ⟨?_, .inr ?_⟩
  · rintro rfl
    exact absurd h1 (by decide)
  · show ¬ c.toNat ≤ 0x0D
    omega

/-- A decimal number stands in the front of the text, behind blanks and a sign or none. -/
def Leads (s : Bytes) (n : Int) : Prop :=
  ∃ front sign digits back, s = front ++ (sign ++ (digits ++ back)) ∧ (∀ c ∈ front, isSpace c = true) ∧
    (sign = [] ∨ sign = [0x2B] ∨ sign = [0x2D]) ∧ digits ≠ [] ∧ (∀ c ∈ digits, Decimal.IsDigit c) ∧
    (∀ c ∈ back.head?, ¬ Decimal.IsDigit c) ∧
    n = if sign = [0x2D] then -(Decimal.value digits : Int) else Decimal.value digits

theorem takeWhile_isDigit {digits back : Bytes} (hdigits : ∀ c ∈ digits, Decimal.IsDigit c)
    (hback : ∀ c ∈ back.head?, ¬ Decimal.IsDigit c) : (digits ++ back).takeWhile isDigit = digits := by
  rw [List.takeWhile_append_of_pos fun c hc => (isDigit_iff c).2 (hdigits c hc)]
  suffices back.takeWhile isDigit = [] by rw [this, List.append_nil]
  cases back with
  | nil => rfl
  | cons c back => exact List.takeWhile_cons_of_neg fun h => hback c rfl ((isDigit_iff c).1 h)

/-- `atoi` reads the number and stops behind it. -/
theorem atoi_of_leads {s : Bytes} {n : Int} (h : Leads s n) :
    atoi s = wrap32 (max (-2 ^ 63) (min (2 ^ 63 - 1) n)) := by
  obtain ⟨front, sign, digits, back, rfl, hfront, hsign, hne, hdigits, hback, rfl⟩ := h
  have htake := takeWhile_isDigit hdigits hback
  obtain ⟨d, ds, rfl⟩ := List.exists_cons_of_ne_nil hne
  obtain ⟨hd, -⟩ := List.forall_mem_cons.1 hdigits
  have hdrop : (front ++ (sign ++ (d :: ds ++ back))).dropWhile isSpace = sign ++ (d :: ds ++ back) := by
    rw [List.dropWhile_append_of_pos hfront]
    rcases hsign with rfl | rfl | rfl
    · rw [List.nil_append, List.cons_append, List.dropWhile_cons_of_neg]
      rw [isSpace_of_isDigit hd]
      nofun
    · rfl
    · rfl
  unfold atoi
  rw [hdrop]
  dsimp only
  rcases hsign with rfl | rfl | rfl
  · rw [List.nil_append, List.cons_append]
    rw [List.cons_append] at htake
    split
    · rename_i heq
      rw [(List.cons.inj heq).1] at hd
      exact absurd hd (by decide)
    · rename_i heq
      rw [(List.cons.inj heq).1] at hd
      exact absurd hd (by decide)
    · rw [htake]
      rfl
  · show wrap32 (max (-2 ^ 63) (min (2 ^ 63 - 1)
      ((Decimal.value ((d :: ds ++ back).takeWhile isDigit) : Nat) : Int))) = _
    rw [htake]
    rfl
  · show wrap32 (max (-2 ^ 63) (min (2 ^ 63 - 1)
      (-((Decimal.value ((d :: ds ++ back).takeWhile isDigit) : Nat) : Int)))) = _
    rw [htake]
    rfl

/-- The Content-Length `decode` goes by: 0 without the header. -/
def contentLength (request : HttpRequest) : Int := atoi (request.header.get (ascii "Content-Length"))

theorem contentLength_inInt32 (request : HttpRequest) : InInt32 (contentLength request) := wrap32_inInt32 _

/-! ## Decoding -/

/-- What `decode` makes of the readable bytes. -/
inductive Parsed
  /-- It returns: more is needed, or the request line is bad. -/
  | pending (request : HttpRequest)
  /-- It leaves the loop before anything was parsed. -/
  | broken
  /-- It has parsed a request of `readSize` bytes. -/
  | complete (request : HttpRequest) (readSize : Int)

/-- The body: `substr` takes a negative length for a very long one. -/
def parseContent (request : HttpRequest) (strs tmp : Bytes) (readSize : Int) : Parsed :=
  let contentLen := contentLength request
  -- `operator[]` leaves an empty entry where there was no header
  let request := { request with
    header := request.header.set (ascii "Content-Length") (request.header.get (ascii "Content-Length")) }
  if strs.length - readSize < contentLen then .pending request
  else if request.method = some .POST ∧ contentLen ≠ 0 then
    let content := if 0 ≤ contentLen then tmp.take contentLen.toNat else tmp
    .complete (parseHttpRequestContent request content) (readSize + contentLen)
  else .complete request readSize

/-- The header block, behind a request line that ended at `i`. -/
def parseRest (request : HttpRequest) (strs : Bytes) (i : Nat) : Except Fault Parsed := do
  let tmp ← substr strs (i + 2) (strs.length - 2 - i)
  match find CRLF_DOUBLE tmp with
  | none => return .pending request
  | some j =>
    let head ← substr tmp 0 j
    let request ← parseHttpRequestHeader request head
    let tmp ← substr tmp (j + 4) (tmp.length - 4 - j)
    return parseContent request strs tmp (i + 2 + (j + 4))

/-- The loop of `decode`, whose one round ends in a return or a break. -/
def parse (request : HttpRequest) (strs : Bytes) : Except Fault Parsed :=
  match find CRLF strs with
  | none => .ok (.pending request)
  | some i =>
    if i = strs.length - 2 then .ok .broken
    else do
      let line ← substr strs 0 i
      let (ok, request) ← parseHttpRequestLine request line
      if ok then parseRest request strs i else return .pending request

/-- `HttpCodeC::decode`. -/
def decode (buf : TcpBuffer) (request : HttpRequest) : Except Fault (TcpBuffer × HttpRequest) := do
  let strs ← buf.getBufferString
  match ← parse request strs with
  | .pending request => return (buf, request)
  | .broken => return (buf, { request with decodeSucc := true })
  | .complete request readSize =>
    let buf ← buf.recycleRead readSize
    return (buf, { request with decodeSucc := true })

/-! ## The flag -/

/-- Parsing leaves `decode_succ` alone. -/
theorem parsePath_decodeSucc {requset r : HttpRequest} {url : Bytes} {ok : Bool}
    (h : parsePath requset url = .ok (ok, r)) : r.decodeSucc = requset.decodeSucc := by
  unfold parsePath at h
  split at h
  · cases h
    rfl
  · obtain ⟨path, -, h⟩ := bind_eq_ok.1 h
    obtain ⟨query, -, h⟩ := bind_eq_ok.1 h
    obtain ⟨maps, -, h⟩ := bind_eq_ok.1 h
    cases h
    rfl

theorem parseTarget_decodeSucc {requset r : HttpRequest} {url : Bytes} {ok : Bool}
    (h : parseTarget requset url = .ok (ok, r)) : r.decodeSucc = requset.decodeSucc := by
  unfold parseTarget at h
  split at h
  · exact parsePath_decodeSucc h
  split at h
  · cases h
    rfl
  obtain ⟨url', -, h⟩ := bind_eq_ok.1 h
  split at h
  · cases h
    rfl
  split at h
  · cases h
    rfl
  obtain ⟨url'', -, h⟩ := bind_eq_ok.1 h
  exact parsePath_decodeSucc h

theorem parseHttpRequestLine_decodeSucc {requset r : HttpRequest} {tmp : Bytes} {ok : Bool}
    (h : parseHttpRequestLine requset tmp = .ok (ok, r)) : r.decodeSucc = requset.decodeSucc := by
  unfold parseHttpRequestLine at h
  split at h
  · split at h
    · cases h
      rfl
    obtain ⟨method, -, h⟩ := bind_eq_ok.1 h
    split at h
    · cases h
      rfl
    obtain ⟨version, -, h⟩ := bind_eq_ok.1 h
    dsimp only at h
    split at h
    · cases h
      rfl
    obtain ⟨url, -, h⟩ := bind_eq_ok.1 h
    have h' := parseTarget_decodeSucc h
    exact h'
  · cases h
    rfl

theorem parseHttpRequestHeader_decodeSucc {requset r : HttpRequest} {str : Bytes}
    (h : parseHttpRequestHeader requset str = .ok r) : r.decodeSucc = requset.decodeSucc := by
  unfold parseHttpRequestHeader at h
  split at h
  · cases h
    rfl
  · obtain ⟨header, -, h⟩ := bind_eq_ok.1 h
    cases h
    rfl

theorem parse_pending {request r : HttpRequest} {strs : Bytes}
    (h : parse request strs = .ok (.pending r)) : r.decodeSucc = request.decodeSucc := by
  unfold parse at h
  split at h
  · cases h
    rfl
  split at h
  · cases h
  obtain ⟨line, -, h⟩ := bind_eq_ok.1 h
  obtain ⟨⟨ok, r₁⟩, hline, h⟩ := bind_eq_ok.1 h
  have h₁ := parseHttpRequestLine_decodeSucc hline
  dsimp only at h
  split at h
  · unfold parseRest at h
    obtain ⟨tmp, -, h⟩ := bind_eq_ok.1 h
    split at h
    · cases h
      exact h₁
    obtain ⟨head, -, h⟩ := bind_eq_ok.1 h
    obtain ⟨r₂, hheader, h⟩ := bind_eq_ok.1 h
    have h₂ := parseHttpRequestHeader_decodeSucc hheader
    obtain ⟨tmp', -, h⟩ := bind_eq_ok.1 h
    unfold parseContent at h
    dsimp only at h
    split at h
    · cases h
      exact h₂.trans h₁
    · split at h <;> cases h
  · cases h
    exact h₁

end Flconc.Http
