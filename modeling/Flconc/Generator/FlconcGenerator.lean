/-
`Generator` of generator/flconc_generator.py: the names of the interface classes and files are made
from the names of the rpc methods, and a file is written where none of its name exists.
-/
import Mathlib.Data.List.Nodup

namespace Flconc.Generator

/-! ## Names -/

abbrev Name := List Char

/-- `str.capitalize`. -/
def capitalize : Name → Name
  | [] => []
  | c :: s => c.toUpper :: s.map Char.toLower

/-- A name without an underscore is taken to be in camel case already. -/
def toCamel (inputS : Name) : Name :=
  if '_' ∉ inputS then inputS else (inputS.splitOn '_').flatMap capitalize

/-- What the loop of `to_underline` adds for one character. -/
def underline (s : Char) : Name := if s.isLower then [s] else ['_', s.toLower]

/-- The first character is dropped at the end, as the underscore before the first word. -/
def toUnderline (inputS : Name) : Name := ((toCamel inputS).flatMap underline).drop 1

/-- `interface_class_name`. -/
def className (methodName : Name) : Name := toCamel methodName ++ "Interface".toList

/-! ## Files -/

/-- An entry of `interface_list`. -/
structure Interface where
  interfaceName : Name
  methodName : Name
  interfaceClassName : Name
  deriving DecidableEq

def genServer (methodList : List Name) : List Interface :=
  methodList.map fun methodName => ⟨toUnderline methodName, methodName, className methodName⟩

inductive Dir
  | interface
  | testClient
  deriving DecidableEq

/-- For each path what its file is about: the class that is declared or defined in it, or the method
that is called in it. -/
abbrev Files := Dir × Name → Option Name

/-- Nothing is written over a file. -/
def Files.writeNew (files : Files) (file : Dir × Name) (content : Name) : Files :=
  if files file = none then fun f => if f = file then some content else files f else files

def headFile (interfaceName : Name) : Dir × Name := (.interface, interfaceName ++ ".h".toList)

def ccFile (interfaceName : Name) : Dir × Name := (.interface, interfaceName ++ ".cc".toList)

def testFile (interfaceName : Name) : Dir × Name :=
  (.testClient, "test_".toList ++ interfaceName ++ "_client.cc".toList)

/-- The base class of the interfaces has files of its own. -/
def genInterfaceBase (files : Files) : Files :=
  (files.writeNew (headFile "interface".toList) "Interface".toList).writeNew (ccFile "interface".toList)
    "Interface".toList

def Files.genInterface (files : Files) (each : Interface) : Files :=
  ((files.writeNew (headFile each.interfaceName) each.interfaceClassName).writeNew
    (ccFile each.interfaceName) each.interfaceClassName).writeNew
      (testFile each.interfaceName) each.methodName

def genEachInterface (interfaceList : List Interface) (files : Files) : Files :=
  interfaceList.foldl Files.genInterface files

/-! ## Snake case -/

def wordChars : List Char := "abcdefghijklmnopqrstuvwxyz0123456789".toList

/-- Non-empty words joined by single underscores; a letter comes first. -/
structure SnakeCase (name : Name) : Prop where
  word : ∀ w ∈ name.splitOn '_', w ≠ [] ∧ ∀ c ∈ w, c ∈ wordChars
  letter : ∀ c ∈ name.head?, c.isLower

instance (name : Name) : Decidable (SnakeCase name) :=
  decidable_of_iff (((name.splitOn '_').all fun w => !w.isEmpty && w.all fun c => c ∈ wordChars) = true ∧
      name.head?.all Char.isLower = true) (by
    simp only [List.all_eq_true, Bool.and_eq_true, Bool.not_eq_true', List.isEmpty_eq_false_iff, decide_eq_true_eq,
      Option.all_eq_true]
    exact ⟨fun h => ⟨h.1, h.2⟩, fun h => ⟨h.word, h.letter⟩⟩)

/-- The files of a method hold its own interface and its own call. -/
structure Files.Own (files : Files) (methodName : Name) : Prop where
  head : files (headFile (toUnderline methodName)) = some (className methodName)
  cc : files (ccFile (toUnderline methodName)) = some (className methodName)
  test : files (testFile (toUnderline methodName)) = some methodName

/-- The generated names identify the methods. -/
structure Identify (names : List Name) : Prop where
  back : ∀ name ∈ names, toUnderline name = name
  files_nodup : (names.map toUnderline).Nodup
  classes_nodup : (names.map className).Nodup
  own : ∀ name ∈ names, (genEachInterface (genServer names) fun _ => none).Own name

/-! ## Words -/

theorem wordChars_upper : ∀ c ∈ wordChars, underline c.toUpper = ['_', c] := by
  have h : (wordChars.all fun c => underline c.toUpper = ['_', c]) = true := by decide +kernel
  simpa using h

theorem wordChars_lower : ∀ c ∈ wordChars, c.toLower = c := by
  have h : (wordChars.all fun c => c.toLower = c) = true := by decide +kernel
  simpa using h

/-- A capitalized word begins with an underscore afterwards. -/
theorem underline_capitalize {c : Char} {s : Name} (h : ∀ d ∈ c :: s, d ∈ wordChars) :
    (capitalize (c :: s)).flatMap underline = '_' :: c :: s.flatMap underline := by
  have hs : s.map Char.toLower = s := by
    rw [List.map_congr_left fun d hd => wordChars_lower d (h d (List.mem_cons_of_mem c hd))]
    exact List.map_id' s
  unfold capitalize
  rw [List.flatMap_cons, wordChars_upper c (h c List.mem_cons_self), hs]
  rfl

theorem length_underline (s : Name) :
    (s.flatMap underline).length = s.length + s.countP (fun c => !c.isLower) := by
  induction s with
  | nil => rfl
  | cons c s ih =>
    rw [List.flatMap_cons, List.length_append, ih, List.countP_cons, List.length_cons]
    unfold underline
    cases c.isLower <;> simp <;> omega

/-- Each character behind the first of a word that is no letter adds an underscore. -/
theorem length_words : ∀ {words : List Name}, (∀ w ∈ words, w ≠ [] ∧ ∀ c ∈ w, c ∈ wordChars) →
    ((words.flatMap capitalize).flatMap underline).length =
      (words.flatMap ('_' :: ·)).length + (words.flatMap List.tail).countP (fun c => !c.isLower)
  | [], _ => rfl
  | [] :: words, h => absurd rfl (h [] List.mem_cons_self).1
  | (c :: s) :: words, h => by
    have hw := length_words fun w hw => h w (List.mem_cons_of_mem _ hw)
    have hs := underline_capitalize (h (c :: s) List.mem_cons_self).2
    rw [List.flatMap_cons, List.flatMap_append, hs, List.length_append, hw]
    simp only [List.flatMap_cons, List.length_append, List.length_cons, List.tail_cons,
      List.countP_append, length_underline]
    omega

/-- Words with letters behind their first characters are given back. -/
theorem underline_words : ∀ {words : List Name}, (∀ w ∈ words, w ≠ [] ∧ ∀ c ∈ w, c ∈ wordChars) →
    (∀ w ∈ words, ∀ c ∈ w.tail, c.isLower) →
      (words.flatMap capitalize).flatMap underline = words.flatMap ('_' :: ·)
  | [], _, _ => rfl
  | [] :: words, h, _ => absurd rfl (h [] List.mem_cons_self).1
  | (c :: s) :: words, h, hl => by
    have hw := underline_words (fun w hw => h w (List.mem_cons_of_mem _ hw))
      fun w hw => hl w (List.mem_cons_of_mem _ hw)
    have hs : s.flatMap underline = s := by
      have := hl (c :: s) List.mem_cons_self
      calc s.flatMap underline = s.flatMap fun d => [d] :=
            List.flatMap_congr fun d hd => if_pos (this d hd)
        _ = s := List.flatMap_singleton' s
    rw [List.flatMap_cons, List.flatMap_append, hw, underline_capitalize (h _ List.mem_cons_self).2,
      hs, List.flatMap_cons]

/-- The words of a name, with an underscore before each. -/
theorem flatMap_splitOn (name : Name) :
    (name.splitOn '_').flatMap ('_' :: ·) = '_' :: name := by
  induction name with
  | nil => rfl
  | cons c name ih =>
    rw [List.splitOn_cons_eq_if_modifyHead]
    split
    · rename_i hc
      rw [List.flatMap_cons, ih, eq_of_beq hc]
      rfl
    · obtain ⟨w, words, hw⟩ := List.exists_cons_of_ne_nil (List.splitOn_ne_nil '_' name)
      rw [hw, List.flatMap_cons] at ih
      rw [hw, List.modifyHead_cons, List.flatMap_cons]
      exact congrArg ('_' :: c :: ·) (List.cons.inj ih).2

theorem toUnderline_words {name : Name} (hu : '_' ∈ name) :
    toUnderline name = (((name.splitOn '_').flatMap capitalize).flatMap underline).drop 1 := by
  unfold toUnderline toCamel
  rw [if_neg (not_not_intro hu)]

/-- A single word loses its first letter. -/
theorem toUnderline_word {name : Name} (h : SnakeCase name) (hu : '_' ∉ name) :
    toUnderline name ≠ name := by
  have hw := h.word name (by rw [List.splitOn_eq_singleton hu]; exact List.mem_singleton_self name)
  obtain ⟨c, s, rfl⟩ := List.exists_cons_of_ne_nil hw.1
  have hc : underline c = [c] := if_pos (h.letter c rfl)
  have hr : toUnderline (c :: s) = s.flatMap underline := by
    unfold toUnderline toCamel
    rw [if_pos hu, List.flatMap_cons, hc]
    rfl
  intro he
  rw [hr] at he
  have hl := length_underline s
  rw [he, List.length_cons] at hl
  -- one character more has to be an underscore, which a word does not have
  obtain ⟨d, hd, hdl⟩ := List.countP_pos_iff.1 (show 0 < s.countP fun c => !c.isLower by omega)
  refine hu (he ▸ List.mem_flatMap.2 ⟨d, hd, ?_⟩)
  unfold underline
  rw [if_neg (by simpa using hdl)]
  exact List.mem_cons_self

/-- Two words or more, with letters only behind their first characters. -/
theorem toUnderline_eq_self_iff {name : Name} (h : SnakeCase name) :
    toUnderline name = name ↔ '_' ∈ name ∧ ∀ w ∈ name.splitOn '_', ∀ c ∈ w.tail, c.isLower := by
  constructor
  · intro he
    have hu : '_' ∈ name := by
      by_contra hu
      exact toUnderline_word h hu he
    refine ⟨hu, ?_⟩
    have hl := length_words h.word
    have ht := congrArg List.length (toUnderline_words hu)
    rw [flatMap_splitOn, List.length_cons] at hl
    rw [he, List.length_drop] at ht
    have hz : ((name.splitOn '_').flatMap List.tail).countP (fun c => !c.isLower) = 0 := by omega
    rw [List.countP_eq_zero] at hz
    intro w hw c hc
    simpa using hz c (List.mem_flatMap.2 ⟨w, hw, hc⟩)
  · rintro ⟨hu, ht⟩
    rw [toUnderline_words hu, underline_words h.word ht, flatMap_splitOn]
    rfl

/-- `to_underline` is made from the class name, so it tells class names apart where it gives the
names back. -/
theorem className_inj {m n : Name} (hm : toUnderline m = m) (hn : toUnderline n = n)
    (h : className m = className n) : m = n := by
  have hc : toCamel m = toCamel n := List.append_cancel_right h
  calc m = toUnderline m := hm.symm
    _ = toUnderline n := by unfold toUnderline; rw [hc]
    _ = n := hn

/-! ## Writing -/

namespace Files

theorem writeNew_self {files : Files} {file : Dir × Name} (content : Name) (h : files file = none) :
    files.writeNew file content file = some content := by
  unfold writeNew
  rw [if_pos h]
  exact if_pos rfl

theorem writeNew_ne {files : Files} {file f : Dir × Name} (content : Name) (h : f ≠ file) :
    files.writeNew file content f = files f := by
  unfold writeNew
  split
  · exact if_neg h
  · rfl

/-- A file that exists stays as it is. -/
theorem writeNew_stays {files : Files} {f : Dir × Name} {content : Name} (h : files f = some content)
    (file : Dir × Name) (content' : Name) : files.writeNew file content' f = some content := by
  by_cases hf : f = file
  · subst hf
    unfold writeNew
    rw [if_neg (by rw [h]; nofun)]
    exact h
  · rw [writeNew_ne content' hf]
    exact h

theorem foldl_writeNew_stays {f : Dir × Name} {content : Name} : ∀ {l : List ((Dir × Name) × Name)} {files : Files},
    files f = some content → l.foldl (fun f p => f.writeNew p.1 p.2) files f = some content
  | [], _, h => h
  | p :: _, _, h => by
    rw [List.foldl_cons]
    exact foldl_writeNew_stays (writeNew_stays h p.1 p.2)

/-- Of different paths the files that do not exist are written. -/
theorem foldl_writeNew : ∀ {l : List ((Dir × Name) × Name)} (files : Files), (l.map Prod.fst).Nodup →
    ∀ p ∈ l, files p.1 = none → l.foldl (fun f p => f.writeNew p.1 p.2) files p.1 = some p.2
  | [], _, _ => nofun
  | q :: l, files, hn => by
    rw [List.map_cons, List.nodup_cons] at hn
    intro p hp hfree
    rw [List.foldl_cons]
    rcases List.mem_cons.1 hp with rfl | hp
    · exact foldl_writeNew_stays (writeNew_self p.2 hfree)
    · refine foldl_writeNew _ hn.2 p hp ?_
      have hne : p.1 ≠ q.1 := fun he => hn.1 (he ▸ List.mem_map_of_mem hp)
      rw [writeNew_ne q.2 hne]
      exact hfree

end Files

/-- What is written for a method. -/
def interfaceFiles (each : Interface) : List ((Dir × Name) × Name) :=
  [(headFile each.interfaceName, each.interfaceClassName),
    (ccFile each.interfaceName, each.interfaceClassName),
    (testFile each.interfaceName, each.methodName)]

theorem genEachInterface_eq (list : List Interface) (files : Files) :
    genEachInterface list files =
      (list.flatMap interfaceFiles).foldl (fun f p => f.writeNew p.1 p.2) files := by
  unfold genEachInterface
  rw [List.foldl_flatMap]
  rfl

def paths (interfaceName : Name) : List (Dir × Name) :=
  [headFile interfaceName, ccFile interfaceName, testFile interfaceName]

theorem headFile_ne_ccFile (m n : Name) : headFile m ≠ ccFile n := by
  intro h
  have := congrArg (fun f => f.2.getLast?) h
  simp [headFile, ccFile] at this

theorem headFile_ne_testFile (m n : Name) : headFile m ≠ testFile n :=
  fun h => Dir.noConfusion (congrArg Prod.fst h)

theorem ccFile_ne_testFile (m n : Name) : ccFile m ≠ testFile n :=
  fun h => Dir.noConfusion (congrArg Prod.fst h)

/-- The paths of different names have nothing in common. -/
theorem eq_of_mem_paths {m n : Name} {f : Dir × Name} (hm : f ∈ paths m) (hn : f ∈ paths n) : m = n := by
  simp only [paths, List.mem_cons, List.not_mem_nil, or_false] at hm hn
  rcases hm with rfl | rfl | rfl <;> rcases hn with h | h | h
  · exact List.append_cancel_right (congrArg Prod.snd h)
  · exact absurd h (headFile_ne_ccFile m n)
  · exact absurd h (headFile_ne_testFile m n)
  · exact absurd h.symm (headFile_ne_ccFile n m)
  · exact List.append_cancel_right (congrArg Prod.snd h)
  · exact absurd h (ccFile_ne_testFile m n)
  · exact absurd h.symm (headFile_ne_testFile n m)
  · exact absurd h.symm (ccFile_ne_testFile n m)
  · exact List.append_cancel_left (List.append_cancel_right (congrArg Prod.snd h))

theorem paths_nodup (n : Name) : (paths n).Nodup := by
  simp [paths, headFile_ne_ccFile n n, headFile_ne_testFile n n, ccFile_ne_testFile n n]

theorem interfaceFiles_nodup {list : List Interface} (h : (list.map (·.interfaceName)).Nodup) :
    ((list.flatMap interfaceFiles).map Prod.fst).Nodup := by
  rw [List.map_flatMap, List.nodup_flatMap]
  refine ⟨fun each _ => paths_nodup each.interfaceName, ?_⟩
  refine (List.pairwise_map.1 h).imp fun hne f hm hn => ?_
  exact hne (eq_of_mem_paths hm hn)

/-- Different file names keep the interfaces apart, where no file is in the way. -/
theorem own_of_nodup {names : List Name} (h : (names.map toUnderline).Nodup) {files : Files} {name : Name}
    (hname : name ∈ names) (hfree : ∀ f ∈ paths (toUnderline name), files f = none) :
    (genEachInterface (genServer names) files).Own name := by
  have hl : ((genServer names).map (·.interfaceName)).Nodup := by
    unfold genServer
    rw [List.map_map]
    exact h
  have hw := Files.foldl_writeNew files (interfaceFiles_nodup hl)
  rw [← genEachInterface_eq] at hw
  have hm : ∀ p ∈ interfaceFiles ⟨toUnderline name, name, className name⟩,
      genEachInterface (genServer names) files p.1 = some p.2 := fun p hp =>
    hw p (List.mem_flatMap.2 ⟨_, List.mem_map_of_mem hname, hp⟩) (hfree p.1 (List.mem_map_of_mem (f := Prod.fst) hp))
  simp only [interfaceFiles, List.forall_mem_cons] at hm
  exact ⟨hm.1, hm.2.1, hm.2.2.1⟩

/-- The files of the base class are in the way of a method of its name, and of no other. -/
theorem own_iff_of_nodup {names : List Name} (h : (names.map toUnderline).Nodup) {files : Files} {name : Name}
    (hname : name ∈ names) (hfree : ∀ f ∈ paths (toUnderline name), files f = none) :
    (genEachInterface (genServer names) (genInterfaceBase files)).Own name ↔
      toUnderline name ≠ "interface".toList := by
  constructor
  · intro hown hbase
    have hpath : headFile "interface".toList ∈ paths (toUnderline name) := by
      rw [hbase]
      exact List.mem_cons_self
    have hhead : genInterfaceBase files (headFile "interface".toList) = some "Interface".toList :=
      Files.writeNew_stays (Files.writeNew_self _ (hfree _ hpath)) _ _
    have hstays := Files.foldl_writeNew_stays (l := (genServer names).flatMap interfaceFiles) hhead
    rw [← genEachInterface_eq, ← hbase, hown.head] at hstays
    -- a class of that name is made from the empty name only
    have hclass : toCamel name ++ "Interface".toList = [] ++ "Interface".toList := Option.some.inj hstays
    have hcamel : toCamel name = [] := List.append_cancel_right hclass
    have hempty : toUnderline name = [] := by
      unfold toUnderline
      rw [hcamel]
      rfl
    rw [hempty] at hbase
    cases hbase
  · intro hne
    refine own_of_nodup h hname fun f hf => ?_
    have hother : ∀ g ∈ paths "interface".toList, f ≠ g := fun g hg heq => hne (eq_of_mem_paths hf (heq ▸ hg))
    unfold genInterfaceBase
    rw [Files.writeNew_ne _ (hother _ (by simp [paths])), Files.writeNew_ne _ (hother _ (by simp [paths]))]
    exact hfree f hf

/-- Different method names are identified by what is generated exactly where each has two words or
more, with letters only behind the first characters of the words. -/
theorem identify_iff {names : List Name} (hn : names.Nodup) (hs : ∀ name ∈ names, SnakeCase name) :
    Identify names ↔
      ∀ name ∈ names, '_' ∈ name ∧ ∀ w ∈ name.splitOn '_', ∀ c ∈ w.tail, c.isLower := by
  constructor
  · intro h name hname
    exact (toUnderline_eq_self_iff (hs name hname)).1 (h.back name hname)
  · intro h
    have hb : ∀ name ∈ names, toUnderline name = name :=
      fun name hname => (toUnderline_eq_self_iff (hs name hname)).2 (h name hname)
    have hf : (names.map toUnderline).Nodup := by
      rw [List.map_congr_left hb, List.map_id']
      exact hn
    have hc : (names.map className).Nodup :=
      hn.map_on fun m hm n hn' he => className_inj (hb m hm) (hb n hn') he
    exact ⟨hb, hf, hc, fun _ hname => own_of_nodup hf hname fun _ _ => rfl⟩

/-- `query_name` and `ping_all` come back as they are. -/
theorem identify_iff_two_words :
    Identify ["query_name".toList, "ping_all".toList] ↔
      ∀ name ∈ ["query_name".toList, "ping_all".toList],
        '_' ∈ name ∧ ∀ w ∈ name.splitOn '_', ∀ c ∈ w.tail, c.isLower := by
  refine identify_iff (by decide +kernel) fun name hname => ?_
  simp only [List.mem_cons, List.not_mem_nil, or_false] at hname
  rcases hname with rfl | rfl
  · decide +kernel
  · decide +kernel

/-- `ping` and `king` share the file names of `ing`: the interface of the second is not written. -/
theorem ping_king_shadowed :
    SnakeCase "ping".toList ∧ SnakeCase "king".toList ∧ toUnderline "ping".toList = "ing".toList ∧
      toUnderline "king".toList = "ing".toList ∧ ¬ Identify ["ping".toList, "king".toList] := by
  refine ⟨by decide +kernel, by decide +kernel, by decide +kernel, by decide +kernel, fun h => ?_⟩
  exact absurd h.files_nodup (by decide +kernel)

end Flconc.Generator
