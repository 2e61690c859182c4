/-
What `gen_server` of generator/flconc_generator.py makes of the methods that were read out of the header: the entries
of `interface_list`, the declarations in server.h and the definitions in server.cc.

The type of a request is read up to the first `request` behind it, and the type of a response up to the first
`response`. So both are read back exactly when they do not hold these words.
-/
import Flconc.Generator.PbHeader

namespace Flconc.Generator

open PyStr

/-! ## A method -/

/-- An entry of `interface_list`, with the types of its request and response. -/
structure TypedInterface extends Interface where
  requestType : Name
  responseType : Name
  deriving DecidableEq

def namespaceId : Name := "PROTOBUF_NAMESPACE_ID".toList

/-- A declaration with the namespace of protobuf. -/
def withNamespace (each : Name) : Name := replace each namespaceId "google::protobuf".toList

/-- From `void` on. -/
def fromVoid (each : Name) : Name :=
  let tmp := withNamespace each
  sliceFrom tmp (find tmp "void".toList)

def methodName (tmp : Name) : Name := slice tmp 5 (find tmp ['('])

/-- What stands in front of a word, less the character before it. -/
def before (s word : Name) : Name := slice s 0 (find s word - 1)

def requestType (param : Name) : Name :=
  replace (replace (replace (replace (before param "request".toList) ['*'] []) "const ".toList []) ['\n'] []) [' '] []

def responseType (param : Name) : Name :=
  replace (replace (replace (before param "response".toList) ['*'] []) ['\n'] []) [' '] []

/-- What a method of `method_list` adds to `interface_list`; without a third parameter there is an `IndexError`. -/
def typedInterface (each : Name) : Option TypedInterface :=
  let tmp := fromVoid each
  let methodName := methodName tmp
  let l := tmp.splitOn ','
  match l[1]?, l[2]? with
  | some l1, some l2 =>
    some ⟨⟨toUnderline methodName, methodName, className methodName⟩, requestType l1, responseType l2⟩
  | _, _ => none

/-- What it adds to server.cc. -/
def definition (serverClassName each : Name) : Name :=
  let tmp := fromVoid each
  let interfaceClassName := className (methodName tmp)
  let tmp := slice tmp 0 5 ++ serverClassName ++ "::".toList ++ sliceFrom tmp 5
  slice tmp 0 (-1) ++ "\x7b\n\n  CALL_RPC_INTERFACE(".toList ++ interfaceClassName ++ ");\n\x7d".toList

/-- What it adds to server.h. -/
def override (serviceName each : Name) : Name :=
  "// override from ".toList ++ serviceName ++ "\n  ".toList ++ withNamespace each ++ "\n\n  ".toList

/-! ## Methods and how they are declared -/

def identChar (c : Char) : Bool := c.isAlphanum || c == '_'

def typeChar (c : Char) : Bool := identChar c || c == ':'

/-- An rpc method: its name, and the C++ names of its types. None of them holds `PROTOBUF_NAMESPACE_ID`, which
`gen_server` replaces wherever it stands. -/
structure Method where
  name : Name
  request : Name
  response : Name
  name_ident : ∀ c ∈ name, identChar c
  request_type : ∀ c ∈ request, typeChar c
  response_type : ∀ c ∈ response, typeChar c
  name_free : ¬ namespaceId <:+: name
  request_free : ¬ namespaceId <:+: request
  response_free : ¬ namespaceId <:+: response

/-- How protoc writes the parameters of a method: the first one, the blanks between them, and the last one. -/
structure Layout where
  controller : Name
  indent : Name
  done : Name
  controller_free : ∀ c ∈ controller, c ≠ ',' ∧ c ≠ ')' ∧ c ≠ '$'
  indent_blank : ∀ c ∈ indent, c = ' ' ∨ c = '\n'
  indent_ne : indent ≠ []
  done_free : ∀ c ∈ done, c ≠ ')' ∧ c ≠ '$'

namespace Layout

def requestParam (l : Layout) (m : Method) : Name := l.indent ++ "const ".toList ++ m.request ++ "* request".toList

def responseParam (l : Layout) (m : Method) : Name := l.indent ++ m.response ++ "* response".toList

/-- The name of the method and its parameters, up to the last parenthesis. -/
def signature (l : Layout) (m : Method) : Name :=
  m.name ++ '(' :: (l.controller ++ ',' :: (l.requestParam m ++ ',' :: (l.responseParam m ++
    ',' :: (l.indent ++ l.done))))

def declaration (l : Layout) (m : Method) : Name := virtualVoid ++ (' ' :: l.signature m) ++ closing

end Layout

/-! ## Characters -/

/-- Character by character, so that it can be evaluated. -/
theorem forall_mem_of_all {s : Name} {p : Char → Prop} [DecidablePred p] (h : s.all (fun c => decide (p c)) = true) :
    ∀ c ∈ s, p c := fun c hc => of_decide_eq_true (List.all_eq_true.1 h c hc)

theorem not_mem_name {m : Method} {c : Char} (hc : identChar c = false) : c ∉ m.name := fun h => by
  rw [m.name_ident c h] at hc
  cases hc

theorem not_mem_request {m : Method} {c : Char} (hc : typeChar c = false) : c ∉ m.request := fun h => by
  rw [m.request_type c h] at hc
  cases hc

theorem not_mem_response {m : Method} {c : Char} (hc : typeChar c = false) : c ∉ m.response := fun h => by
  rw [m.response_type c h] at hc
  cases hc

namespace Layout

variable {l : Layout} {m : Method}

theorem not_mem_indent {c : Char} (hc : c ≠ ' ' ∧ c ≠ '\n') : c ∉ l.indent := fun h =>
  (l.indent_blank c h).elim hc.1 hc.2

/-- No closing parenthesis and no dollar stands in a signature. -/
theorem not_mem_signature {c : Char} (hc : c = ')' ∨ c = '$') : c ∉ l.signature m := by
  have hcontroller : c ∉ l.controller := fun h => by
    obtain ⟨-, h1, h2⟩ := l.controller_free c h
    exact hc.elim h1 h2
  have hdone : c ∉ l.done := fun h => by
    obtain ⟨h1, h2⟩ := l.done_free c h
    exact hc.elim h1 h2
  have hchar : identChar c = false ∧ typeChar c = false ∧ c ≠ ' ' ∧ c ≠ '\n' := by
    rcases hc with rfl | rfl <;> decide
  have hindent : c ∉ l.indent := not_mem_indent hchar.2.2
  have hname : c ∉ m.name := not_mem_name hchar.1
  have hrequest : c ∉ m.request := not_mem_request hchar.2.1
  have hresponse : c ∉ m.response := not_mem_response hchar.2.1
  have hwords : c ∉ "const ".toList ∧ c ∉ "* request".toList ∧ c ∉ "* response".toList ∧ c ≠ '(' ∧ c ≠ ',' := by
    rcases hc with rfl | rfl <;> decide
  simp only [signature, requestParam, responseParam, List.mem_append, List.mem_cons, not_or]
  exact ⟨hname, hwords.2.2.2.1, hcontroller, hwords.2.2.2.2, ⟨⟨⟨hindent, hwords.1⟩, hrequest⟩, hwords.2.1⟩,
    hwords.2.2.2.2, ⟨⟨hindent, hresponse⟩, hwords.2.2.1⟩, hwords.2.2.2.2, hindent, hdone⟩

end Layout

/-! ## Types -/

/-- A word behind a text without it, of which the last character goes. -/
theorem before_eq {a word : Name} (hb : Borderless word) (ha : ¬ word <:+: a) (hne : a ≠ []) (b : Name) :
    before (a ++ (word ++ b)) word = a.dropLast := by
  have hpos := List.length_pos_of_ne_nil hne
  unfold before
  rw [find_behind hb ha, show (a.length : Int) - 1 = (a.length - 1 : Nat) by omega]
  refine (slice_natCast _ 0 _).trans ?_
  rw [List.drop_zero, List.take_append_of_le_length (Nat.sub_le _ _), List.dropLast_eq_take]

section

variable {front word type : Name}

/-- A type that does not hold the word. -/
theorem before_free (hb : Borderless word) (hfront : ∀ s, word <:+: front ++ s ↔ word <:+: s) (hne : front ≠ [])
    (hword : '*' ∉ word ∧ ¬ word <:+: [' ']) (hfree : ¬ word <:+: type) :
    before (front ++ type ++ '*' :: ' ' :: word) word = front ++ type ++ ['*'] := by
  have hstar : ¬ word <:+: front ++ (type ++ '*' :: [' ']) := by
    rw [hfront, infix_append_cons hword.1]
    exact not_or.2 ⟨hfree, hword.2⟩
  have h := before_eq hb hstar (List.append_ne_nil_of_left_ne_nil hne _) []
  rw [show front ++ (type ++ '*' :: [' ']) = front ++ type ++ ['*'] ++ [' '] by simp, List.dropLast_concat] at h
  rw [← h]
  congr 1
  simp

/-- A type that holds the word is cut in front of it. -/
theorem before_cut (hb : Borderless word) (hfront : ∀ s, word <:+: front ++ s ↔ word <:+: s) (hne : front ≠ [])
    (hword : word ≠ []) (hin : word <:+: type) : ∃ p, p.length + word.length ≤ type.length ∧
      before (front ++ type ++ '*' :: ' ' :: word) word = (front ++ p).dropLast := by
  obtain ⟨p, q, rfl, hp⟩ := exists_first hword hin
  refine ⟨p, by simp only [List.length_append]; omega, ?_⟩
  rw [← before_eq hb ((hfront p).not.2 hp) (List.append_ne_nil_of_left_ne_nil hne _) (q ++ '*' :: ' ' :: word)]
  simp only [List.append_assoc]

end

/-- Without line ends and spaces. -/
def blanksOut (s : Name) : Name := (s.filter (· ≠ '\n')).filter (· ≠ ' ')

theorem blanksOut_append (s t : Name) : blanksOut (s ++ t) = blanksOut s ++ blanksOut t := by
  unfold blanksOut
  rw [List.filter_append, List.filter_append]

theorem blanksOut_sublist {s t : Name} (h : s.Sublist t) : (blanksOut s).Sublist (blanksOut t) :=
  (h.filter _).filter _

theorem filter_free {c : Char} {s : Name} (h : c ∉ s) : s.filter (· ≠ c) = s :=
  List.filter_eq_self.2 fun d hd => by
    rw [decide_eq_true_eq]
    rintro rfl
    exact h hd

theorem blanksOut_free {s : Name} (hline : '\n' ∉ s) (hspace : ' ' ∉ s) : blanksOut s = s := by
  unfold blanksOut
  rw [filter_free hline, filter_free hspace]

theorem length_blanksOut_le (s : Name) : (blanksOut s).length ≤ s.length :=
  (List.filter_sublist.trans List.filter_sublist).length_le

namespace Layout

variable {l : Layout} {m : Method}

theorem blanksOut_indent (l : Layout) : blanksOut l.indent = [] := by
  unfold blanksOut
  rw [List.filter_filter, List.filter_eq_nil_iff]
  intro c hc
  rcases l.indent_blank c hc with rfl | rfl <;> decide

theorem requestType_eq (param : Name) : requestType param =
    blanksOut (replace ((before param "request".toList).filter (· ≠ '*')) "const ".toList []) := by
  unfold requestType blanksOut
  rw [replace_char, replace_char, replace_char]

theorem responseType_eq (param : Name) :
    responseType param = blanksOut ((before param "response".toList).filter (· ≠ '*')) := by
  unfold responseType blanksOut
  rw [replace_char, replace_char, replace_char]

/-- The parameters in front of the types do not take part in the search. -/
theorem request_front (l : Layout) (s : Name) :
    "request".toList <:+: l.indent ++ "const ".toList ++ s ↔ "request".toList <:+: s := by
  rw [List.append_assoc, infix_append_free (by decide) fun c hc => ?_]
  · exact (infix_append_cons (a := "const".toList) (by decide)).trans (or_iff_right (by decide))
  · rcases l.indent_blank c hc with rfl | rfl <;> decide

theorem response_front (l : Layout) (s : Name) :
    "response".toList <:+: l.indent ++ s ↔ "response".toList <:+: s := by
  refine infix_append_free (by decide) fun c hc => ?_
  rcases l.indent_blank c hc with rfl | rfl <;> decide

/-- The type of the request is read back when it does not hold the word that it is searched for. -/
theorem requestType_iff : requestType (l.requestParam m) = m.request ↔ ¬ "request".toList <:+: m.request := by
  have hne : l.indent ++ "const ".toList ≠ [] := by simp [l.indent_ne]
  rw [requestType_eq]
  constructor
  · intro heq hin
    obtain ⟨p, hp, hbefore⟩ := before_cut (by decide) l.request_front hne (by decide) hin
    have hcut : before (l.requestParam m) "request".toList = (l.indent ++ "const ".toList ++ p).dropLast := hbefore
    -- what is left of the type is shorter than the type
    have hshort : (blanksOut (l.indent ++ "const ".toList ++ p)).length ≤ 5 + p.length := by
      have hp := length_blanksOut_le p
      rw [blanksOut_append, blanksOut_append, blanksOut_indent, List.nil_append, List.length_append,
        show (blanksOut "const ".toList).length = 5 by decide]
      omega
    have hlen := congrArg List.length heq
    have hsub : (replace ((before (l.requestParam m) "request".toList).filter (· ≠ '*')) "const ".toList []).Sublist
        (l.indent ++ "const ".toList ++ p) := by
      rw [hcut]
      exact (replace_sublist _ _).trans (List.filter_sublist.trans (List.dropLast_sublist _))
    have hle := (blanksOut_sublist hsub).length_le
    have h7 : "request".toList.length = 7 := by decide
    omega
  · intro hfree
    have hbefore : before (l.requestParam m) "request".toList = l.indent ++ "const ".toList ++ m.request ++ ['*'] :=
      before_free (by decide) l.request_front hne (by decide) hfree
    have hconst : ¬ "const ".toList <:+: l.indent :=
      not_infix_of_not_mem (c := 'c') (by decide) (not_mem_indent (by decide))
    rw [hbefore]
    simp only [List.filter_append]
    rw [filter_free (not_mem_indent (by decide)), filter_free (s := "const ".toList) (by decide),
      filter_free (s := m.request) (not_mem_request (by decide)), show ['*'].filter (· ≠ '*') = [] by decide,
      List.append_nil, List.append_assoc, replace_behind (by decide) (by decide) hconst,
      replace_free (not_infix_of_not_mem (c := ' ') (by decide) (not_mem_request (by decide))), List.nil_append,
      blanksOut_append, blanksOut_indent, List.nil_append]
    exact blanksOut_free (not_mem_request (by decide)) (not_mem_request (by decide))

/-- And the same for the response. -/
theorem responseType_iff : responseType (l.responseParam m) = m.response ↔ ¬ "response".toList <:+: m.response := by
  rw [responseType_eq]
  constructor
  · intro heq hin
    obtain ⟨p, hp, hbefore⟩ := before_cut (by decide) l.response_front l.indent_ne (by decide) hin
    have hcut : before (l.responseParam m) "response".toList = (l.indent ++ p).dropLast := hbefore
    have hshort : (blanksOut (l.indent ++ p)).length ≤ p.length := by
      rw [blanksOut_append, blanksOut_indent, List.nil_append]
      exact length_blanksOut_le p
    have hlen := congrArg List.length heq
    have hsub : ((before (l.responseParam m) "response".toList).filter (· ≠ '*')).Sublist (l.indent ++ p) := by
      rw [hcut]
      exact List.filter_sublist.trans (List.dropLast_sublist _)
    have hle := (blanksOut_sublist hsub).length_le
    have h8 : "response".toList.length = 8 := by decide
    omega
  · intro hfree
    have hbefore : before (l.responseParam m) "response".toList = l.indent ++ m.response ++ ['*'] :=
      before_free (by decide) l.response_front l.indent_ne (by decide) hfree
    rw [hbefore]
    simp only [List.filter_append]
    rw [filter_free (not_mem_indent (by decide)), filter_free (s := m.response) (not_mem_response (by decide)),
      show ['*'].filter (· ≠ '*') = [] by decide, List.append_nil, blanksOut_append, blanksOut_indent,
      List.nil_append]
    exact blanksOut_free (not_mem_response (by decide)) (not_mem_response (by decide))

/-! ## A declaration from `void` on -/

theorem google_plain : ∀ c ∈ "google::protobuf".toList, c ≠ ',' ∧ c ≠ ')' ∧ c ≠ '$' := forall_mem_of_all (by decide)

/-- With the namespace of protobuf. -/
def qualified (l : Layout) : Layout where
  controller := replace l.controller namespaceId "google::protobuf".toList
  indent := l.indent
  done := replace l.done namespaceId "google::protobuf".toList
  controller_free c hc := by
    rcases mem_replace hc with h | h
    · exact l.controller_free c h
    · exact google_plain c h
  indent_blank := l.indent_blank
  indent_ne := l.indent_ne
  done_free c hc := by
    rcases mem_replace hc with h | h
    · exact l.done_free c h
    · exact (google_plain c h).2

theorem replace_requestParam (new : Name) : replace (l.requestParam m) namespaceId new = l.requestParam m := by
  refine replace_free ?_
  unfold requestParam
  rw [List.append_assoc, List.append_assoc, infix_append_free (by decide) fun c hc => ?_]
  · have hconst : "const ".toList ++ (m.request ++ "* request".toList) =
        "const".toList ++ ' ' :: (m.request ++ '*' :: " request".toList) := rfl
    rw [hconst, infix_append_cons (by decide), infix_append_cons (by decide)]
    exact not_or.2 ⟨by decide, not_or.2 ⟨m.request_free, by decide⟩⟩
  · rcases l.indent_blank c hc with rfl | rfl <;> decide

theorem replace_responseParam (new : Name) : replace (l.responseParam m) namespaceId new = l.responseParam m := by
  refine replace_free ?_
  unfold responseParam
  rw [List.append_assoc, infix_append_free (by decide) fun c hc => ?_]
  · have hstar : m.response ++ "* response".toList = m.response ++ '*' :: " response".toList := rfl
    rw [hstar, infix_append_cons (by decide)]
    exact not_or.2 ⟨m.response_free, by decide⟩
  · rcases l.indent_blank c hc with rfl | rfl <;> decide

theorem withNamespace_declaration (l : Layout) (m : Method) :
    withNamespace (l.declaration m) =
      "virtual ".toList ++ ("void ".toList ++ (l.qualified.signature m ++ closing)) := by
  have hblank : ∀ c ∈ l.indent, c ∉ namespaceId := fun c hc => by
    rcases l.indent_blank c hc with rfl | rfl <;> decide
  have hdeclaration : l.declaration m = virtualVoid ++ ' ' :: (m.name ++ '(' :: (l.controller ++ ',' ::
      (l.requestParam m ++ ',' :: (l.responseParam m ++ ',' :: (l.indent ++ (l.done ++ ')' :: [';'])))))) := by
    unfold declaration signature closing
    simp
  unfold withNamespace
  rw [hdeclaration, replace_append_cons (by decide) (by decide), replace_append_cons (by decide) (by decide),
    replace_append_cons (by decide) (by decide), replace_append_cons (by decide) (by decide),
    replace_append_cons (by decide) (by decide), replace_append_free (by decide) hblank,
    replace_append_cons (by decide) (by decide), replace_free (s := virtualVoid) (by decide),
    replace_free m.name_free, replace_requestParam, replace_responseParam, replace_free (s := [';']) (by decide)]
  unfold signature closing virtualVoid
  simp [qualified, requestParam, responseParam]

theorem fromVoid_declaration (l : Layout) (m : Method) :
    fromVoid (l.declaration m) = "void ".toList ++ (l.qualified.signature m ++ closing) := by
  have hspace : "void ".toList ++ (l.qualified.signature m ++ closing) =
      "void".toList ++ ' ' :: (l.qualified.signature m ++ closing) := rfl
  have hvoid : find ("virtual ".toList ++ ("void".toList ++ ' ' :: (l.qualified.signature m ++ closing)))
      "void".toList = (8 : Nat) := find_behind (by decide) (by decide) _
  unfold fromVoid
  dsimp only
  rw [withNamespace_declaration, hspace, hvoid, sliceFrom_natCast]
  rfl

theorem methodName_eq (l : Layout) (m : Method) :
    methodName ("void ".toList ++ (l.signature m ++ closing)) = m.name := by
  have hname : '(' ∉ "void ".toList ++ m.name := fun h =>
    (List.mem_append.1 h).elim (by decide) (not_mem_name (by decide))
  unfold methodName signature
  rw [List.append_assoc, List.cons_append]
  generalize l.controller ++ ',' :: _ ++ closing = rest
  have hfind : find ("void ".toList ++ (m.name ++ '(' :: rest)) ['('] =
      ("void ".toList.length + m.name.length : Nat) := by
    rw [← List.append_assoc, find_char hname, List.length_append]
  rw [hfind]
  exact slice_middle "void ".toList m.name ('(' :: rest)

/-- What is found in the declaration of a method. -/
def found (l : Layout) (m : Method) : TypedInterface :=
  ⟨⟨toUnderline m.name, m.name, className m.name⟩, requestType (l.requestParam m), responseType (l.responseParam m)⟩

theorem typedInterface_declaration (l : Layout) (m : Method) :
    typedInterface (l.declaration m) = some (l.found m) := by
  have hcontroller : ',' ∉ l.qualified.controller := fun h => (l.qualified.controller_free _ h).1 rfl
  have hindent : ',' ∉ l.indent := not_mem_indent (by decide)
  have hrequest : ',' ∉ m.request := not_mem_request (by decide)
  have hresponse : ',' ∉ m.response := not_mem_response (by decide)
  have hfirst : ',' ∉ "void ".toList ++ m.name ++ '(' :: l.qualified.controller := by
    have hname : ',' ∉ m.name := not_mem_name (by decide)
    simp [hname, hcontroller]
  have hsecond : ',' ∉ l.requestParam m := by
    unfold requestParam
    simp [hindent, hrequest]
  have hthird : ',' ∉ l.responseParam m := by
    unfold responseParam
    simp [hindent, hresponse]
  have hsplit : ("void ".toList ++ (l.qualified.signature m ++ closing)).splitOn ',' =
      ("void ".toList ++ m.name ++ '(' :: l.qualified.controller) :: l.requestParam m :: l.responseParam m ::
        (l.indent ++ l.qualified.done ++ closing).splitOn ',' := by
    have htext : "void ".toList ++ (l.qualified.signature m ++ closing) =
        ("void ".toList ++ m.name ++ '(' :: l.qualified.controller) ++ ',' :: (l.requestParam m ++ ',' ::
          (l.responseParam m ++ ',' :: (l.indent ++ l.qualified.done ++ closing))) := by
      unfold signature
      simp [requestParam, responseParam, qualified]
    rw [htext, List.splitOn_append_cons_self_of_not_mem hfirst, List.splitOn_append_cons_self_of_not_mem hsecond,
      List.splitOn_append_cons_self_of_not_mem hthird]
  unfold typedInterface
  dsimp only
  rw [fromVoid_declaration, hsplit, methodName_eq]
  rfl

/-- The declaration of a method with its signature. -/
def overridden (l : Layout) (serviceName : Name) (m : Method) : Name :=
  "// override from ".toList ++ serviceName ++ "\n  virtual void ".toList ++ l.qualified.signature m ++
    ");\n\n  ".toList

theorem override_declaration (serviceName : Name) (l : Layout) (m : Method) :
    override serviceName (l.declaration m) = l.overridden serviceName m := by
  unfold override overridden
  rw [withNamespace_declaration]
  unfold closing
  simp

/-- The signature of a method in a class, and a body that calls the interface of the method. -/
def defined (l : Layout) (serverClassName : Name) (m : Method) : Name :=
  "void ".toList ++ serverClassName ++ "::".toList ++ (l.qualified.signature m ++ [')']) ++
    "\x7b\n\n  CALL_RPC_INTERFACE(".toList ++ className m.name ++ ");\n\x7d".toList

/-- A declaration becomes a definition. -/
theorem definition_declaration (serverClassName : Name) (l : Layout) (m : Method) :
    definition serverClassName (l.declaration m) = l.defined serverClassName m := by
  have hfront : slice ("void ".toList ++ (l.qualified.signature m ++ closing)) 0 5 = "void ".toList :=
    slice_middle [] "void ".toList (l.qualified.signature m ++ closing)
  have hback : sliceFrom ("void ".toList ++ (l.qualified.signature m ++ closing)) 5 =
      l.qualified.signature m ++ closing :=
    (sliceFrom_natCast _ 5).trans rfl
  have hlast : "void ".toList ++ serverClassName ++ "::".toList ++ (l.qualified.signature m ++ closing) =
      "void ".toList ++ serverClassName ++ "::".toList ++ (l.qualified.signature m ++ [')']) ++ [';'] := by
    unfold closing
    simp
  unfold definition defined
  dsimp only
  rw [fromVoid_declaration, hfront, hback, methodName_eq, slice_zero_neg_one, hlast, List.dropLast_concat]

end Layout

/-! ## From the header on -/

/-- A method and the text behind its declaration. -/
structure Printed extends Method where
  behind : Name
  apart : behind ≠ []
  free : ¬ virtualVoid <:+: behind.tail

def Layout.declared (l : Layout) (p : Printed) : Declared where
  head := ' ' :: l.signature p.toMethod
  behind := p.behind
  closed := by
    refine not_infix_of_not_mem (c := ')') (by decide) fun h => ?_
    rcases List.mem_append.1 h with h | h
    · revert h
      decide
    · exact (List.mem_cons.1 h).elim (by decide) (Layout.not_mem_signature (.inl rfl))
  apart := p.apart
  free := p.free

/-- The header with these methods. -/
def PbHeader.write (h : PbHeader) (l : Layout) (ps : List Printed) : PbHeader :=
  { h with declared := ps.map l.declared }

/-- The interface that a method should get. -/
def Method.interface (m : Method) : TypedInterface :=
  ⟨⟨toUnderline m.name, m.name, className m.name⟩, m.request, m.response⟩

/-- The types do not hold the words they are searched for. -/
def Method.Plain (m : Method) : Prop := ¬ "request".toList <:+: m.request ∧ ¬ "response".toList <:+: m.response

instance (m : Method) : Decidable m.Plain := inferInstanceAs (Decidable (_ ∧ _))

theorem parseServiceName_write (h : PbHeader) (l : Layout) (ps : List Printed) :
    parseServiceName (h.write l ps).text = (h.service, ps.map fun p => l.declaration p.toMethod) := by
  rw [parseServiceName_text]
  unfold PbHeader.write
  rw [List.map_map]
  rfl

theorem mapM_some {α β γ : Type} {e : α → β} {g : β → Option γ} {f : α → γ} (h : ∀ a, g (e a) = some (f a))
    (as : List α) : (as.map e).mapM g = some (as.map f) := by
  induction as with
  | nil => rfl
  | cons a as ih =>
    rw [List.map_cons, List.mapM_cons, h a, ih]
    rfl

theorem found_eq_iff {l : Layout} {m : Method} : l.found m = m.interface ↔ m.Plain := by
  unfold Layout.found Method.interface
  rw [TypedInterface.mk.injEq]
  exact (and_iff_right rfl).trans (and_congr Layout.requestType_iff Layout.responseType_iff)

theorem typedInterfaces_write (h : PbHeader) (l : Layout) (ps : List Printed) :
    (parseServiceName (h.write l ps).text).2.mapM typedInterface = some (ps.map fun p => l.found p.toMethod) := by
  have hfound : ∀ p : Printed, typedInterface (l.declaration p.toMethod) = some (l.found p.toMethod) := by
    intro p
    exact l.typedInterface_declaration p.toMethod
  rw [parseServiceName_write]
  exact mapM_some hfound ps

/-- From the header on, every method (with a name and types free of the namespace macro) gets its own interface with
its own types, exactly when no type holds the word it is searched for. -/
theorem typedInterfaces_iff (h : PbHeader) (l : Layout) (ps : List Printed) :
    (parseServiceName (h.write l ps).text).2.mapM typedInterface = some (ps.map fun p => p.toMethod.interface) ↔
      ∀ p ∈ ps, p.toMethod.Plain := by
  rw [typedInterfaces_write, Option.some_inj, List.map_inj_left]
  exact forall₂_congr fun p _ => found_eq_iff

end Flconc.Generator
