/-
`generate_framework_code` of generator/flconc_generator.py, as to server.h, server.cc and the files of the interfaces,
from the header that protoc has written on.
-/
import Flconc.Generator.Interfaces

namespace Flconc.Generator

open PyStr

/-! ## The files -/

def methodMark : Name := "$\x7bMETHOD\x7d".toList

def includeMark : Name := "$\x7bINCLUDE_SERVICE_HEADER\x7d".toList

def includeLine (projectName interfaceName : Name) : Name :=
  "#include \"".toList ++ projectName ++ "/interface/".toList ++ interfaceName ++ ".h\"\n".toList

/-- server.h from its template, in which the other names have been put. -/
def genServerHead (serviceName headFileContent : Name) (methodList : List Name) : Name :=
  let i1 := find headFileContent methodMark
  let preContent := slice headFileContent 0 i1
  let nextContent := sliceFrom headFileContent (i1 + 9)
  preContent ++ methodList.flatMap (override serviceName) ++ nextContent

/-- server.cc from its template, in which the other names have been put, and `interface_list`. -/
def genServerCc (projectName serverClassName ccFileContent : Name) (methodList : List Name) :
    Option (Name × List TypedInterface) :=
  let methodI := find ccFileContent methodMark
  let preContent := slice ccFileContent 0 methodI
  let nextContent := sliceFrom ccFileContent (methodI + 9)
  (methodList.mapM typedInterface).map fun interfaceList =>
    let preContent := preContent ++ methodList.flatMap fun each => definition serverClassName each ++ "\n\n".toList
    let includes := interfaceList.flatMap fun each => includeLine projectName each.interfaceName
    (replace preContent includeMark includes ++ nextContent, interfaceList)

/-- What `generate_framework_code` writes: server.h, and unless there is an `IndexError` server.cc and the files of
the interfaces. -/
def generateFrameworkCode (projectName originText headFileContent ccFileContent : Name) (files : Files) :
    Name × Option (Name × Files) :=
  let (serviceName, methodList) := parseServiceName originText
  (genServerHead serviceName headFileContent methodList,
    (genServerCc projectName (toCamel serviceName ++ "Impl".toList) ccFileContent methodList).map
      fun (content, interfaceList) =>
        (content, genEachInterface (interfaceList.map (·.toInterface)) (genInterfaceBase files)))

/-! ## Templates -/

/-- A template with its mark. -/
structure HeadTemplate where
  front : Name
  back : Name
  front_free : ¬ methodMark <:+: front

/-- With this text in the place of the mark. -/
def HeadTemplate.fill (t : HeadTemplate) (methods : Name) : Name := t.front ++ (methods ++ t.back)

/-- A template with its two marks on lines of their own. -/
structure CcTemplate where
  front : Name
  middle : Name
  back : Name
  front_free : ¬ methodMark <:+: front ∧ ¬ includeMark <:+: front
  middle_free : ¬ methodMark <:+: middle ∧ ¬ includeMark <:+: middle

/-- With these texts in the places of the marks. -/
def CcTemplate.fill (t : CcTemplate) (includes methods : Name) : Name :=
  t.front ++ '\n' :: (includes ++ '\n' :: (t.middle ++ '\n' :: (methods ++ t.back)))

theorem slice_mark {pre : Name} (h : ¬ methodMark <:+: pre) (back : Name) :
    slice (pre ++ (methodMark ++ back)) 0 (find (pre ++ (methodMark ++ back)) methodMark) = pre ∧
      sliceFrom (pre ++ (methodMark ++ back)) (find (pre ++ (methodMark ++ back)) methodMark + 9) = back := by
  have hfind : find (pre ++ (methodMark ++ back)) methodMark = pre.length := find_behind (by decide) h back
  rw [hfind]
  constructor
  · refine (slice_natCast _ 0 _).trans ?_
    rw [List.drop_zero, List.take_left]
  · refine (sliceFrom_natCast _ (pre.length + methodMark.length)).trans ?_
    rw [← List.drop_drop, List.drop_left, List.drop_left]

theorem genServerHead_fill (t : HeadTemplate) (serviceName : Name) (methodList : List Name) :
    genServerHead serviceName (t.fill methodMark) methodList =
      t.fill (methodList.flatMap (override serviceName)) := by
  obtain ⟨hfront, hback⟩ := slice_mark t.front_free t.back
  unfold genServerHead HeadTemplate.fill
  dsimp only
  rw [hfront, hback, List.append_assoc]

/-- The marks are filled in when no definition has a dollar. -/
theorem genServerCc_fill (t : CcTemplate) (projectName serverClassName : Name) {methodList : List Name}
    (hdollar : ∀ each ∈ methodList, '$' ∉ definition serverClassName each) :
    genServerCc projectName serverClassName (t.fill includeMark methodMark) methodList =
      (methodList.mapM typedInterface).map fun interfaceList =>
        (t.fill (interfaceList.flatMap fun each => includeLine projectName each.interfaceName)
          (methodList.flatMap fun each => definition serverClassName each ++ "\n\n".toList), interfaceList) := by
  obtain ⟨front, middle, back, ⟨hfront, hfront'⟩, hmiddle, hmiddle'⟩ := t
  generalize hpre : front ++ '\n' :: (includeMark ++ '\n' :: (middle ++ ['\n'])) = pre
  have htext : CcTemplate.fill ⟨front, middle, back, ⟨hfront, hfront'⟩, hmiddle, hmiddle'⟩ includeMark methodMark =
      pre ++ (methodMark ++ back) := by
    rw [← hpre]
    unfold CcTemplate.fill
    simp
  have hfree : ¬ methodMark <:+: pre := by
    rw [← hpre, infix_append_cons (by decide), infix_append_cons (by decide), infix_append_cons (by decide)]
    exact not_or.2 ⟨hfront, not_or.2 ⟨by decide, not_or.2 ⟨hmiddle, by decide⟩⟩⟩
  obtain ⟨hslice, hback⟩ := slice_mark hfree back
  unfold genServerCc
  dsimp only
  rw [htext, hslice, hback]
  congr 1
  funext interfaceList
  generalize hdefs : (methodList.flatMap fun each => definition serverClassName each ++ "\n\n".toList) = defs
  generalize hincludes : (interfaceList.flatMap fun each => includeLine projectName each.interfaceName) = includes
  have hdollars : '$' ∉ defs := by
    rw [← hdefs, List.mem_flatMap]
    rintro ⟨each, heach, h⟩
    exact (List.mem_append.1 h).elim (hdollar each heach) (by decide)
  have hreplace : replace (pre ++ defs) includeMark includes =
      front ++ '\n' :: (includes ++ '\n' :: (middle ++ '\n' :: defs)) := by
    have hshape : pre ++ defs = front ++ '\n' :: (includeMark ++ ([] ++ '\n' :: (middle ++ '\n' :: defs))) := by
      rw [← hpre]
      simp
    rw [hshape, replace_append_cons (by decide) (by decide), replace_old (by decide),
      replace_append_cons (by decide) (by decide), replace_append_cons (by decide) (by decide), replace_free hfront',
      replace_free hmiddle', replace_free (not_infix_of_not_mem (c := '$') (by decide) hdollars)]
    rfl
  rw [hreplace]
  unfold CcTemplate.fill
  simp

theorem toUpper_eq_dollar {c : Char} (h : c.toUpper = '$') : c = '$' := by
  unfold Char.toUpper at h
  split at h
  · rename_i hc
    have hval := congrArg UInt32.toNat (congrArg Char.val h)
    have hlow := UInt32.le_iff_toNat_le.1 hc.1
    have hhigh := UInt32.le_iff_toNat_le.1 hc.2
    simp at hval hlow hhigh
    omega
  · exact h

theorem toLower_eq_dollar {c : Char} (h : c.toLower = '$') : c = '$' := by
  unfold Char.toLower at h
  split at h
  · rename_i hc
    have hval := congrArg UInt32.toNat (congrArg Char.val h)
    have hlow := UInt32.le_iff_toNat_le.1 hc.1
    have hhigh := UInt32.le_iff_toNat_le.1 hc.2
    simp at hval hlow hhigh
    omega
  · exact h

/-- Camel case makes no dollars. -/
theorem not_mem_toCamel {s : Name} (h : '$' ∉ s) : '$' ∉ toCamel s := by
  unfold toCamel
  split
  · exact h
  · intro hmem
    obtain ⟨w, hw, hc⟩ := List.mem_flatMap.1 hmem
    have hword : '$' ∉ w := fun hin => by
      have hall : '$' ∈ (s.splitOn '_').flatMap ('_' :: ·) :=
        List.mem_flatMap.2 ⟨w, hw, List.mem_cons_of_mem _ hin⟩
      rw [flatMap_splitOn] at hall
      exact (List.mem_cons.1 hall).elim (by decide) h
    cases w with
    | nil => cases hc
    | cons c w =>
      rcases List.mem_cons.1 hc with hc | hc
      · exact hword (toUpper_eq_dollar hc.symm ▸ List.mem_cons_self)
      · obtain ⟨d, hd, hlower⟩ := List.mem_map.1 hc
        exact hword (List.mem_cons_of_mem c (toLower_eq_dollar hlower ▸ hd))

theorem not_mem_defined {serverClassName : Name} (h : '$' ∉ serverClassName) (l : Layout) (m : Method) :
    '$' ∉ l.defined serverClassName m := by
  have hsignature : '$' ∉ l.qualified.signature m := Layout.not_mem_signature (.inr rfl)
  have hname : '$' ∉ toCamel m.name := not_mem_toCamel (not_mem_name (by decide))
  unfold Layout.defined className
  simp [h, hsignature, hname]

/-- From the header on: server.h declares the methods and server.cc defines them, each once, in order and with one
signature; server.cc includes the interfaces of the methods, and each definition calls its own. When their file
names differ, a method whose files do not exist yet gets them with its own interface, unless it has the file name of
the base class; and no file that exists is written over. -/
theorem generates_own (h : PbHeader) (l : Layout) (ps : List Printed) (th : HeadTemplate) (tc : CcTemplate)
    (projectName : Name) (files : Files) (hservice : '$' ∉ h.service) :
    ∃ files', generateFrameworkCode projectName (h.write l ps).text (th.fill methodMark)
          (tc.fill includeMark methodMark) files =
        (th.fill (ps.flatMap fun p => l.overridden h.service p.toMethod),
          some (tc.fill (ps.flatMap fun p => includeLine projectName (toUnderline p.name))
            (ps.flatMap fun p => l.defined (toCamel h.service ++ "Impl".toList) p.toMethod ++ "

".toList), files')) ∧
      ((ps.map fun p => toUnderline p.name).Nodup → ∀ p ∈ ps, (∀ f ∈ paths (toUnderline p.name), files f = none) →
        (files'.Own p.name ↔ toUnderline p.name ≠ "interface".toList)) ∧
      ∀ f content, files f = some content → files' f = some content := by
  have hclass : '$' ∉ toCamel h.service ++ "Impl".toList := fun hmem =>
    (List.mem_append.1 hmem).elim (not_mem_toCamel hservice) (by decide)
  refine ⟨genEachInterface (genServer (ps.map fun p => p.name)) (genInterfaceBase files), ?_, fun hn p hp hfree => ?_,
    fun f content hf => ?_⟩
  · have hfound := typedInterfaces_write h l ps
    unfold generateFrameworkCode
    rw [parseServiceName_write] at hfound ⊢
    dsimp only at hfound ⊢
    rw [genServerHead_fill, genServerCc_fill tc projectName _ fun each heach => ?_, hfound]
    · dsimp only [Option.map_some]
      rw [List.flatMap_map, List.flatMap_map, List.flatMap_map, List.map_map]
      simp only [Layout.override_declaration, Layout.definition_declaration]
      unfold genServer
      rw [List.map_map]
      rfl
    · obtain ⟨p, -, rfl⟩ := List.mem_map.1 heach
      rw [Layout.definition_declaration]
      exact not_mem_defined hclass l p.toMethod
  · refine own_iff_of_nodup ?_ (List.mem_map_of_mem hp) hfree
    rw [List.map_map]
    exact hn
  · rw [genEachInterface_eq]
    exact Files.foldl_writeNew_stays (Files.writeNew_stays (Files.writeNew_stays hf _ _) _ _)

/-- How protoc lays out a method. -/
def protocLayout : Layout where
  controller := "::PROTOBUF_NAMESPACE_ID::RpcController* controller".toList
  indent := "\n                       ".toList
  done := "::google::protobuf::Closure* done".toList
  controller_free := forall_mem_of_all (by decide)
  indent_blank := forall_mem_of_all (by decide)
  indent_ne := by decide
  done_free := forall_mem_of_all (by decide)

def queryHeader : PbHeader where
  front := "class QueryService : public Service \x7b\n public:\n  ".toList
  service := "QueryService".toList
  gap := ");\n\n  ".toList
  declared := []
  front_free := by decide
  service_free := by decide
  gap_free := by decide

def queryName : Printed where
  name := "query_name".toList
  request := "::queryNameReq".toList
  response := "::queryNameRes".toList
  name_ident := forall_mem_of_all (by decide)
  request_type := forall_mem_of_all (by decide)
  response_type := forall_mem_of_all (by decide)
  name_free := by decide
  request_free := by decide
  response_free := by decide
  behind := "\n  ".toList
  apart := by decide
  free := by decide

/-- Its request type is read back as `::query`. -/
def queryAge : Printed where
  name := "query_age".toList
  request := "::query_request".toList
  response := "::queryAgeRes".toList
  name_ident := forall_mem_of_all (by decide)
  request_type := forall_mem_of_all (by decide)
  response_type := forall_mem_of_all (by decide)
  name_free := by decide
  request_free := by decide
  response_free := by decide
  behind := "\n\x7d;\n".toList
  apart := by decide
  free := by decide

example : queryName.toMethod.Plain ∧ ¬ queryAge.toMethod.Plain := by decide

def headTemplate : HeadTemplate where
  front := "class QueryServiceImpl : public QueryService \x7b\n public:\n\n  ".toList
  back := "\n\x7d;\n".toList
  front_free := by decide

def ccTemplate : CcTemplate where
  front := "#include <exception>\n".toList
  middle := "\nnamespace order \x7b\n".toList
  back := "\n\x7d\n".toList
  front_free := by decide
  middle_free := by decide

/-- A method whose interface has the file name of the base class. -/
def interfaceMethod : Printed :=
  { queryName with
    name := "Interface".toList
    name_ident := forall_mem_of_all (by decide)
    name_free := by decide }

/-- Two methods get their files; of the third the base class has written two, and they are not written over. -/
theorem generates_own_query : ∃ files,
    generateFrameworkCode "order".toList (queryHeader.write protocLayout [queryName, interfaceMethod, queryAge]).text
        (headTemplate.fill methodMark) (ccTemplate.fill includeMark methodMark) (fun _ => none) =
      (headTemplate.fill ([queryName, interfaceMethod, queryAge].flatMap fun p =>
          protocLayout.overridden queryHeader.service p.toMethod),
        some (ccTemplate.fill ([queryName, interfaceMethod, queryAge].flatMap fun p =>
            includeLine "order".toList (toUnderline p.name))
          ([queryName, interfaceMethod, queryAge].flatMap fun p =>
            protocLayout.defined (toCamel queryHeader.service ++ "Impl".toList) p.toMethod ++ "

".toList), files)) ∧
    files.Own queryName.name ∧ ¬ files.Own interfaceMethod.name ∧ files.Own queryAge.name := by
  obtain ⟨files, hcode, hown, -⟩ := generates_own queryHeader protocLayout [queryName, interfaceMethod, queryAge]
    headTemplate ccTemplate "order".toList (fun _ => none) (by decide)
  have hiff := hown (by decide +kernel)
  refine ⟨files, hcode, (hiff queryName ?_ fun _ _ => rfl).2 (by decide +kernel),
    fun h => (hiff interfaceMethod ?_ fun _ _ => rfl).1 h (by decide +kernel),
    (hiff queryAge ?_ fun _ _ => rfl).2 (by decide +kernel)⟩
  · exact List.mem_cons_self
  · exact List.mem_cons_of_mem _ List.mem_cons_self
  · exact List.mem_cons_of_mem _ (List.mem_cons_of_mem _ List.mem_cons_self)

end Flconc.Generator
