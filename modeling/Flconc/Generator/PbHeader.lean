/-
`parse_service_name` of generator/flconc_generator.py: the header that protoc has written is searched for the
destructor of the service, and from there on for the methods.

Whatever else stands in the header, the name of the service and the declarations of its methods are read back as
they are and in order, as long as no declaration follows the one before it at once. The methods of another service
behind it are taken for methods of the first one.
-/
import Flconc.Generator.FlconcGenerator
import Flconc.Lib.PyStr

namespace Flconc.Generator

open PyStr

/-! ## The search -/

def virtualVoid : Name := "virtual void".toList

def virtualTilde : Name := "virtual ~".toList

def closing : Name := ");".toList

/-- The loop of `parse_service_name`. A declaration that is not closed is cut to its first character. -/
def methodList (originText : Name) : List Name :=
  let i1 := find originText virtualVoid
  if _h : i1 = -1 then []
  else
    let i2 := find (sliceFrom originText i1) closing
    slice originText i1 (i1 + i2 + 2) :: methodList (sliceFrom originText (i1 + i2 + 3))
termination_by originText.length
decreasing_by
  obtain ⟨i, hi, hle⟩ := (find_cases originText virtualVoid).resolve_left _h
  have hlen : virtualVoid.length = 12 := rfl
  have hfrom : ∀ j : Nat, 0 < j → (sliceFrom originText j).length < originText.length := fun j hj => by
    rw [sliceFrom_natCast, List.length_drop]
    omega
  rcases find_cases (sliceFrom originText (find originText virtualVoid)) closing with h | ⟨k, hk, -⟩
  · rw [h, hi, show (i : Int) + -1 + 3 = (i + 2 : Nat) by omega]
    exact hfrom (i + 2) (by omega)
  · rw [hk, hi, show (i : Int) + k + 3 = (i + k + 3 : Nat) by omega]
    exact hfrom (i + k + 3) (by omega)

/-- `service_name` and `method_list`. -/
def parseServiceName (originText : Name) : Name × List Name :=
  let start := find originText virtualTilde
  let i1 := find (sliceFrom originText start) ['~']
  let i2 := find (sliceFrom originText start) ['(']
  (slice originText (start + i1 + 1) (start + i2), methodList (sliceFrom originText (start + i2)))

/-! ## Headers -/

/-- The declaration of a method between `virtual void` and its `);`, and the text behind it, of which the first
character is passed over. -/
structure Declared where
  head : Name
  behind : Name
  closed : ¬ closing <:+: virtualVoid ++ head
  apart : behind ≠ []
  free : ¬ virtualVoid <:+: behind.tail

def Declared.text (d : Declared) : Name := virtualVoid ++ head d ++ closing

/-- A header with a service: the text in front of its destructor, its name, the text between that and the first
declaration, and the declarations with what stands behind each. -/
structure PbHeader where
  front : Name
  service : Name
  gap : Name
  declared : List Declared
  front_free : ¬ virtualTilde <:+: front
  service_free : '(' ∉ service
  gap_free : ¬ virtualVoid <:+: gap

def PbHeader.text (h : PbHeader) : Name :=
  h.front ++ (virtualTilde ++ (h.service ++ '(' :: (h.gap ++ h.declared.flatMap fun d => d.text ++ d.behind)))

/-! ## Reading it back -/

theorem methodList_free {s : Name} (h : ¬ virtualVoid <:+: s) : methodList s = [] := by
  rw [methodList]
  dsimp only
  rw [dif_pos (find_eq_neg_one_iff.2 h)]

/-- The next declaration. -/
theorem methodList_next {gap : Name} (hgap : ¬ virtualVoid <:+: gap) {head : Name}
    (hclosed : ¬ closing <:+: virtualVoid ++ head) (s : Name) :
    methodList (gap ++ (virtualVoid ++ head ++ closing ++ s)) =
      (virtualVoid ++ head ++ closing) :: methodList (s.drop 1) := by
  have hi1 : find (gap ++ (virtualVoid ++ head ++ closing ++ s)) virtualVoid = gap.length := by
    rw [List.append_assoc, List.append_assoc]
    exact find_behind (by decide) hgap _
  have hfrom : sliceFrom (gap ++ (virtualVoid ++ head ++ closing ++ s)) gap.length =
      virtualVoid ++ head ++ closing ++ s := by
    rw [sliceFrom_natCast, List.drop_left]
  have hi2 : find (virtualVoid ++ head ++ closing ++ s) closing = (virtualVoid ++ head).length := by
    rw [List.append_assoc]
    exact find_behind (by decide) hclosed s
  have hlen : (virtualVoid ++ head ++ closing).length = (virtualVoid ++ head).length + 2 := by
    rw [List.length_append]
    rfl
  rw [methodList]
  dsimp only
  rw [hi1, dif_neg (by omega), hfrom, hi2]
  congr 1
  · rw [show (gap.length : Int) + (virtualVoid ++ head).length + 2 =
      (gap.length + (virtualVoid ++ head ++ closing).length : Nat) by omega]
    exact slice_middle gap _ s
  · rw [show (gap.length : Int) + (virtualVoid ++ head).length + 3 =
      (gap.length + ((virtualVoid ++ head ++ closing).length + 1) : Nat) by omega, sliceFrom_natCast, ← List.drop_drop,
      List.drop_left, ← List.drop_drop, List.drop_left]

/-- All of them, in order. -/
theorem methodList_declared (ds : List Declared) : ∀ {gap : Name}, ¬ virtualVoid <:+: gap →
    methodList (gap ++ ds.flatMap fun d => d.text ++ d.behind) = ds.map Declared.text := by
  induction ds with
  | nil =>
    intro gap hgap
    rw [List.flatMap_nil, List.append_nil]
    exact methodList_free hgap
  | cons d ds ih =>
    intro gap hgap
    obtain ⟨c, behind, hbehind⟩ := List.exists_cons_of_ne_nil d.apart
    have hfree := d.free
    rw [hbehind, List.tail_cons] at hfree
    rw [List.flatMap_cons, List.append_assoc, Declared.text, methodList_next hgap d.closed, hbehind, List.map_cons,
      ← ih hfree]
    rfl

/-- The name of the service and the declarations are read back as they stand in the header. -/
theorem parseServiceName_text (h : PbHeader) : parseServiceName h.text = (h.service, h.declared.map Declared.text) := by
  obtain ⟨front, service, gap, declared, hfront, hservice, hgap⟩ := h
  unfold PbHeader.text
  dsimp only
  generalize hrest : gap ++ declared.flatMap (fun d => d.text ++ d.behind) = rest
  have hstart : find (front ++ (virtualTilde ++ (service ++ '(' :: rest))) virtualTilde = front.length :=
    find_behind (by decide) hfront _
  have hfrom : sliceFrom (front ++ (virtualTilde ++ (service ++ '(' :: rest))) front.length =
      virtualTilde ++ (service ++ '(' :: rest) := by
    rw [sliceFrom_natCast, List.drop_left]
  have hi1 : find (virtualTilde ++ (service ++ '(' :: rest)) ['~'] = (8 : Nat) :=
    find_char (a := "virtual ".toList) (by decide) _
  have hi2 : find (virtualTilde ++ (service ++ '(' :: rest)) ['('] = (virtualTilde ++ service).length := by
    rw [← List.append_assoc]
    refine find_char (fun hmem => ?_) rest
    exact (List.mem_append.1 hmem).elim (by decide) hservice
  have hlen : (virtualTilde ++ service).length = 9 + service.length := List.length_append
  unfold parseServiceName
  dsimp only
  rw [hstart, hfrom, hi1, hi2]
  refine Prod.ext ?_ ?_
  · show slice _ _ _ = service
    have hmiddle := slice_middle (front ++ virtualTilde) service ('(' :: rest)
    rw [List.append_assoc] at hmiddle
    have hfront9 : (front ++ virtualTilde).length = front.length + 9 := List.length_append
    rw [show (front.length : Int) + (8 : Nat) + 1 = ((front ++ virtualTilde).length : Nat) by omega,
      show (front.length : Int) + (virtualTilde ++ service).length =
        ((front ++ virtualTilde).length + service.length : Nat) by omega]
    exact hmiddle
  · show methodList (sliceFrom _ _) = _
    rw [show (front.length : Int) + (virtualTilde ++ service).length =
        (front.length + (virtualTilde ++ service).length : Nat) by omega, sliceFrom_natCast, ← List.drop_drop,
      List.drop_left, ← List.append_assoc, List.drop_left, ← hrest]
    have hopen : ¬ virtualVoid <:+: '(' :: gap := by
      rw [← List.nil_append ('(' :: gap), infix_append_cons (by decide)]
      exact not_or.2 ⟨by decide, hgap⟩
    exact methodList_declared declared hopen

theorem find_last {s : Name} {c : Char} (h : ∀ d ∈ s.getLast?, d ≠ c) : find (sliceFrom s (-1)) [c] = -1 := by
  have hfrom : sliceFrom s (-1) = s.drop (s.length - 1) := by
    unfold sliceFrom bound
    rw [if_pos (by decide)]
    congr 1
    omega
  rw [hfrom, find_eq_neg_one_iff]
  refine not_infix_of_not_mem (List.mem_singleton_self c) fun hmem => ?_
  by_cases hs : s = []
  · rw [hs] at hmem
    cases hmem
  · rw [List.drop_length_sub_one hs, List.mem_singleton] at hmem
    exact h _ (List.getLast?_eq_some_getLast hs) hmem.symm

/-- A header without a service gives no name and no methods: the searches fail, and the slices are at its end. -/
theorem parseServiceName_free {s : Name} (h : ¬ virtualTilde <:+: s) (hlast : ∀ c ∈ s.getLast?, c ≠ '~' ∧ c ≠ '(') :
    parseServiceName s = ([], []) := by
  have hempty : slice s (-1) (-2) = [] := by
    unfold slice bound
    rw [if_pos (by decide), if_pos (by decide), show min ((-2 : Int) + s.length).toNat s.length -
      min ((-1 : Int) + s.length).toNat s.length = 0 by omega, List.take_zero]
  have hend : methodList (sliceFrom s (-2)) = [] := by
    refine methodList_free fun hin => ?_
    have hlen := hin.length_le
    have h12 : virtualVoid.length = 12 := rfl
    unfold sliceFrom bound at hlen
    rw [if_pos (by decide), List.length_drop] at hlen
    omega
  unfold parseServiceName
  dsimp only
  rw [find_eq_neg_one_iff.2 h, find_last fun c hc => (hlast c hc).1, find_last fun c hc => (hlast c hc).2]
  exact Prod.ext hempty hend

end Flconc.Generator
