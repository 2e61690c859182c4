/-
Request targets of net/http/http_codec.cc in their two forms: the path with its query, and the same
behind a scheme and an authority. The first `://` anywhere in the target is taken for the end of a
scheme, and of what follows it everything up to and with the first slash is dropped. So the path is the
one the servlets are registered under in origin form only, and only without a `://`.
-/
import Flconc.Http.Message

namespace Flconc.Http

open Wire Text

/-! ## Targets and how they are written -/

def QUESTION : UInt8 := 0x3F
def SLASH : UInt8 := 0x2F

/-- A path, and a query if there is one. -/
structure RequestTarget where
  path : Bytes
  query : Option Bytes
  origin : ∃ rest, path = SLASH :: rest
  path_free : ∀ c ∈ path, c ≠ QUESTION ∧ c ∉ SPACE ∧ c ∉ CRLF
  query_free : ∀ q ∈ query, ∀ c ∈ q, c ∉ SPACE ∧ c ∉ CRLF

namespace RequestTarget

def queryText (t : RequestTarget) : Bytes :=
  match t.query with
  | none => []
  | some q => QUESTION :: q

/-- The origin form. -/
def text (t : RequestTarget) : Bytes := t.path ++ t.queryText

def Authority (a : Bytes) : Prop := ∀ c ∈ a, c ≠ SLASH ∧ c ≠ QUESTION ∧ c ∉ SPACE

/-- The ways to write a target. In absolute form the path of the root may be left out. -/
inductive Spelling (t : RequestTarget) : Bytes → Prop
  | origin : Spelling t t.text
  | absolute {authority : Bytes} : Authority authority →
      Spelling t (ascii "http" ++ (ascii "://" ++ (authority ++ t.text)))
  | root {authority : Bytes} : Authority authority → t.path = [SLASH] →
      Spelling t (ascii "http" ++ (ascii "://" ++ (authority ++ t.queryText)))

/-- The request line is parsed, and the request gets the path and the query of the target. -/
def SetBy (t : RequestTarget) (requset : HttpRequest) (line : Bytes) : Prop :=
  ∃ r, parseHttpRequestLine requset line = .ok (true, r) ∧ r.path = t.path ∧ r.query = t.query.getD []

theorem path_ne_nil (t : RequestTarget) : t.path ≠ [] := by
  obtain ⟨rest, h⟩ := t.origin
  rw [h]
  nofun

end RequestTarget

/-! ## Paths and queries -/

/-- A path without a question mark is read up to the one behind it. -/
theorem pathOf_text {path : Bytes} (h : ∀ c ∈ path, c ≠ QUESTION) (query : Option Bytes) :
    pathOf (path ++ match query with
      | none => []
      | some q => QUESTION :: q) = path := by
  have h : ∀ c ∈ path, decide (c ≠ 0x3F) = true := fun c hc => decide_eq_true (h c hc)
  unfold pathOf
  rw [List.takeWhile_append_of_pos h]
  cases query with
  | none => simp
  | some q => simp [QUESTION]

theorem queryOf_text {path : Bytes} (h : ∀ c ∈ path, c ≠ QUESTION) (query : Option Bytes) :
    queryOf (path ++ match query with
      | none => []
      | some q => QUESTION :: q) = query.getD [] := by
  have h : ∀ c ∈ path, decide (c ≠ 0x3F) = true := fun c hc => decide_eq_true (h c hc)
  unfold queryOf
  rw [List.dropWhile_append_of_pos h]
  cases query with
  | none => simp
  | some q => simp [QUESTION]

/-- Path and query are no longer than the text they are read from. -/
theorem length_pathOf_queryOf (s : Bytes) : (pathOf s).length + (queryOf s).length ≤ s.length := by
  have h := congrArg List.length (List.takeWhile_append_dropWhile (p := (· ≠ (0x3F : UInt8))) (l := s))
  rw [List.length_append] at h
  unfold pathOf queryOf
  rw [List.length_drop]
  omega

/-! ## The scheme -/

/-- Behind the first `://` the target is refused, left alone, or read from behind the next slash. -/
theorem parseTarget_scheme {a b : Bytes} (h : find (ascii "://") (a ++ (ascii "://" ++ b)) = some a.length)
    {requset : HttpRequest} (hquery : requset.query = []) :
    ∃ ok r, parseTarget requset (a ++ (ascii "://" ++ b)) = .ok (ok, r) ∧
      (r = requset ∨ ∃ x y, b = x ++ SLASH :: y ∧ (∀ c ∈ x, c ≠ SLASH) ∧ r.path = pathOf y ∧ r.query = queryOf y) := by
  have hlen : (a ++ (ascii "://" ++ b)).length = a.length + (3 + b.length) := by
    rw [List.length_append, List.length_append]
    rfl
  have hb : (a ++ (ascii "://" ++ b)).drop (a.length + 3) = b := drop_behind a (ascii "://") b
  unfold parseTarget
  rw [h]
  dsimp only
  split
  · exact ⟨_, _, rfl, .inl rfl⟩
  rw [substr_back (by omega) (by omega), ok_bind, hb]
  split
  · exact ⟨_, _, rfl, .inl rfl⟩
  · rename_i i hi
    obtain ⟨x, c, y, rfl, rfl, hc, hx⟩ := findFirstOf_split hi
    obtain rfl : c = SLASH := List.mem_singleton.1 hc
    split
    · exact ⟨_, _, rfl, .inl rfl⟩
    · have hy : (x ++ SLASH :: y).drop (x.length + 1) = y := drop_behind x [SLASH] y
      have hxy : (x ++ SLASH :: y).length = x.length + (y.length + 1) := by simp
      obtain ⟨maps, hmaps⟩ := parsePath_eq requset hquery y
      rw [substr_back (by omega) (by omega), ok_bind, hy, hmaps]
      refine ⟨_, _, rfl, .inr ⟨x, y, rfl, fun d hd heq => hx d hd ?_, rfl, rfl⟩⟩
      rw [heq]
      exact hc

/-! ## The two forms -/

namespace RequestTarget

variable {t : RequestTarget} {requset : HttpRequest}

/-- A request that has got neither path nor query yet. -/
structure Fresh (requset : HttpRequest) : Prop where
  path : requset.path = []
  query : requset.query = []

/-- Without `://`, the origin form gives path and query. -/
theorem parseTarget_text (hfresh : Fresh requset) (h : find (ascii "://") t.text = none) :
    ∃ r, parseTarget requset t.text = .ok (true, r) ∧ r.path = t.path ∧ r.query = t.query.getD [] := by
  have hfree : ∀ c ∈ t.path, c ≠ QUESTION := fun c hc => (t.path_free c hc).1
  obtain ⟨maps, hmaps⟩ := parsePath_eq requset hfresh.query t.text
  unfold parseTarget
  rw [h]
  exact ⟨_, hmaps, pathOf_text hfree t.query, queryOf_text hfree t.query⟩

/-- What is read behind a scheme is the target only if it is long enough for it. -/
theorem not_read_of_short {y : Bytes} (hy : y.length < t.path.length + (t.query.getD []).length) :
    ¬ (pathOf y = t.path ∧ queryOf y = t.query.getD []) := by
  rintro ⟨hp, hq⟩
  have h := length_pathOf_queryOf y
  rw [hp, hq] at h
  omega

/-- Behind a scheme the target is not read when it would be read from too short a rest, or from the path
without its slash. -/
theorem parseTarget_behind {a b : Bytes} (hfresh : Fresh requset)
    (h : find (ascii "://") (a ++ (ascii "://" ++ b)) = some a.length)
    (hb : ∀ x y, b = x ++ SLASH :: y → (∀ c ∈ x, c ≠ SLASH) →
      ¬ (pathOf y = t.path ∧ queryOf y = t.query.getD [])) :
    ¬ ∃ r, parseTarget requset (a ++ (ascii "://" ++ b)) = .ok (true, r) ∧ r.path = t.path ∧
      r.query = t.query.getD [] := by
  rintro ⟨r, hr, hp, hq⟩
  obtain ⟨ok, r', hr', hcases⟩ := parseTarget_scheme h hfresh.query
  rw [hr'] at hr
  cases hr
  rcases hcases with rfl | ⟨x, y, hbxy, hx, hp', hq'⟩
  · rw [hfresh.path] at hp
    exact t.path_ne_nil hp.symm
  · exact hb x y hbxy hx ⟨hp'.symm.trans hp, hq'.symm.trans hq⟩

theorem length_text (t : RequestTarget) : t.text.length ≤ t.path.length + (t.query.getD []).length + 1 := by
  unfold text queryText
  cases t.query with
  | none => simp
  | some q =>
    simp only [List.length_append, List.length_cons, Option.getD_some]
    omega

/-- In absolute form the path is read without its slash. -/
theorem not_read_absolute {authority x y : Bytes} (hauth : Authority authority) (hx : ∀ c ∈ x, c ≠ SLASH)
    (hxy : authority ++ t.text = x ++ SLASH :: y) : ¬ (pathOf y = t.path ∧ queryOf y = t.query.getD []) := by
  rintro ⟨hp, -⟩
  obtain ⟨rest, hrest⟩ := t.origin
  have htext : t.text = SLASH :: (rest ++ t.queryText) := by
    unfold text
    rw [hrest]
    rfl
  rw [htext] at hxy
  -- both sides have their first slash behind the authority
  have hmem : SLASH ∈ [SLASH] := List.mem_singleton_self _
  have hauth' : ∀ c ∈ authority, c ∉ [SLASH] := fun c hc h => (hauth c hc).1 (List.mem_singleton.1 h)
  have hx' : ∀ c ∈ x, c ∉ [SLASH] := fun c hc h => hx c hc (List.mem_singleton.1 h)
  have h1 := findFirstOf_behind hauth' hmem (rest ++ t.queryText)
  have h2 := findFirstOf_behind hx' hmem y
  rw [hxy, h2] at h1
  obtain ⟨-, hy⟩ := List.append_inj hxy (Option.some.inj h1).symm
  obtain rfl : rest ++ t.queryText = y := (List.cons.inj hy).2
  have hfree : ∀ c ∈ rest, c ≠ QUESTION :=
    fun c hc => (t.path_free c (by rw [hrest]; exact List.mem_cons_of_mem _ hc)).1
  have hpath : pathOf (rest ++ t.queryText) = rest := pathOf_text hfree t.query
  rw [hpath, hrest] at hp
  exact absurd (congrArg List.length hp) (by simp)

/-- Without the path of the root, what is read starts in the query. -/
theorem not_read_root {authority x y : Bytes} (hauth : Authority authority) (hroot : t.path = [SLASH])
    (hxy : authority ++ t.queryText = x ++ SLASH :: y) : ¬ (pathOf y = t.path ∧ queryOf y = t.query.getD []) := by
  refine not_read_of_short ?_
  rw [hroot]
  unfold queryText at hxy
  cases hq : t.query with
  | none =>
    rw [hq, List.append_nil] at hxy
    exact absurd rfl (hauth SLASH (by rw [hxy]; simp)).1
  | some q =>
    rw [hq] at hxy
    dsimp only at hxy
    rcases List.append_eq_append_iff.1 hxy with ⟨d, rfl, hd⟩ | ⟨d, rfl, hd⟩
    · cases d with
      | nil => cases hd
      | cons c d =>
        obtain rfl : q = d ++ SLASH :: y := (List.cons.inj hd).2
        simp only [Option.getD_some, List.length_append, List.length_cons, List.length_nil]
        omega
    · cases d with
      | nil => cases hd
      | cons c d =>
        cases hd
        exact absurd rfl (hauth SLASH (by simp)).1

/-- Of a spelling, only the origin form without `://` is read as the target. -/
theorem Spelling.parseTarget_iff {url : Bytes} (hs : t.Spelling url) (hfresh : Fresh requset) :
    (∃ r, parseTarget requset url = .ok (true, r) ∧ r.path = t.path ∧ r.query = t.query.getD []) ↔
      url = t.text ∧ find (ascii "://") url = none := by
  have hhttp : ∀ s, find (ascii "://") (ascii "http" ++ (ascii "://" ++ s)) = some (ascii "http").length :=
    fun s => find_behind (by decide) s
  constructor
  · intro hread
    cases hs with
    | origin =>
      refine ⟨rfl, ?_⟩
      cases hf : find (ascii "://") t.text with
      | none => rfl
      | some j =>
        obtain ⟨a, b, hab, rfl⟩ := find_split hf
        have hlen := t.length_text
        rw [hab] at hf hread hlen
        refine absurd hread (parseTarget_behind hfresh hf fun x y hxy _ => not_read_of_short ?_)
        rw [hxy] at hlen
        simp only [List.length_append, List.length_cons, show (ascii "://").length = 3 from rfl] at hlen
        omega
    | absolute hauth =>
      exact absurd hread (parseTarget_behind hfresh (hhttp _) fun x y hxy hx => not_read_absolute hauth hx hxy)
    | root hauth hroot =>
      exact absurd hread (parseTarget_behind hfresh (hhttp _) fun x y hxy _ => not_read_root hauth hroot hxy)
  · rintro ⟨rfl, hnone⟩
    exact parseTarget_text hfresh hnone

/-! ## The request line -/

theorem free_of_toupper {s : Bytes} (h : 0x20 ∉ s.map toupper) : ∀ c ∈ s, c ∉ SPACE := by
  intro c hc hsp
  obtain rfl : c = 0x20 := List.mem_singleton.1 hsp
  exact h (List.mem_map.2 ⟨0x20, hc, by decide⟩)

/-- A request line with a method and a version that the codec takes, in any case, sets path and query of
its target exactly when the target is in origin form and free of `://`. -/
theorem setBy_iff {t : RequestTarget} {url : Bytes} (hs : t.Spelling url) {method version : Bytes} {m : HttpMethod}
    (hmethod : methodOf (method.map toupper) = some m)
    (hversion : version.map toupper = ascii "HTTP/1.1" ∨ version.map toupper = ascii "HTTP/1.0")
    {requset : HttpRequest} (hfresh : Fresh requset) :
    t.SetBy requset (method ++ (SPACE ++ (url ++ (SPACE ++ version)))) ↔
      url = t.text ∧ find (ascii "://") url = none := by
  have hm : 0x20 ∉ method.map toupper := by
    unfold methodOf at hmethod
    split at hmethod
    · rename_i h
      rw [h]
      decide
    split at hmethod
    · rename_i h
      rw [h]
      decide
    · cases hmethod
  have hv : 0x20 ∉ version.map toupper := by
    rcases hversion with h | h <;> rw [h] <;> decide
  unfold SetBy
  rw [parseHttpRequestLine_of (free_of_toupper hm) (free_of_toupper hv) hmethod hversion]
  exact hs.parseTarget_iff ⟨hfresh.path, hfresh.query⟩

/-- `/qps`. -/
def qps : RequestTarget where
  path := ascii "/qps"
  query := none
  origin := ⟨ascii "qps", rfl⟩
  path_free := by decide +kernel
  query_free := nofun

theorem setBy_qps : qps.SetBy {} (ascii "get" ++ (SPACE ++ (qps.text ++ (SPACE ++ ascii "HTTP/1.1")))) :=
  (setBy_iff .origin (m := .GET) (by decide) (.inl (by decide)) ⟨rfl, rfl⟩).2 ⟨rfl, by decide⟩

/-- In absolute form its path is read as `qps`. -/
theorem not_setBy_qps : ¬ ∀ (t : RequestTarget) (url : Bytes), t.Spelling url →
    t.SetBy {} (ascii "GET" ++ (SPACE ++ (url ++ (SPACE ++ ascii "HTTP/1.1")))) := by
  intro h
  have hauth : Authority (ascii "localhost") := by
    unfold Authority
    decide +kernel
  obtain ⟨r, hr, hp, -⟩ := h qps _ (.absolute hauth)
  have hread : parseHttpRequestLine {} (ascii "GET" ++ (SPACE ++
      ((ascii "http" ++ (ascii "://" ++ (ascii "localhost" ++ qps.text))) ++ (SPACE ++ ascii "HTTP/1.1")))) =
      .ok (true, { method := some .GET, version := ascii "HTTP/1.1", path := ascii "qps" }) := by decide +kernel
  rw [hread] at hr
  cases hr
  exact absurd hp (by decide)

end RequestTarget

end Flconc.Http
