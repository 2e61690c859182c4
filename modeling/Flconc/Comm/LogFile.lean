/-
The files of the two `AsyncLogger` threads of comm/log.cc: the part of `excute` behind the queue, which writes one
batch, over a directory that both threads write to and that is empty when they start. Their batches come in any
order.

A new date starts at number 0, and a file over the maximal size is left for the next number, so the batches of a
day lie in its files one after the other. The lines of the two loggers never get into one file.
-/
import Flconc.Comm.Log
import Flconc.Lib.Decimal
import Flconc.Lib.Segments
import Flconc.Lib.Text

namespace Flconc.LogFile

open Wire Text Log Function

/-! ## The model -/

/-- What the directory holds, as the lines written to each file. -/
abbrev Files := Bytes → List String

/-- The size of a file with these lines, and where `ftell` stands behind them. -/
def ftell (content : List String) : Nat := (content.map String.utf8ByteSize).sum

def logTypeToString : LogType → Bytes
  | .app => ascii "app"
  | .rpc => ascii "rpc"

def UNDERSCORE : UInt8 := 0x5F

structure AsyncLogger where
  filePath : Bytes
  fileName : Bytes
  maxSize : Int
  logType : LogType
  no : Nat := 0
  needReopen : Bool := false
  /-- The name that `m_file_handle` was opened with. -/
  fileHandle : Option Bytes := none
  date : Bytes := []

/-- A batch, the date at which it is written, and whether the files open that it takes. -/
structure Round where
  tmp : List String
  date : Bytes
  opens : Bool := true
  opensNext : Bool := true

namespace AsyncLogger

def fullFileName (l : AsyncLogger) (date : Bytes) (no : Nat) : Bytes :=
  l.filePath ++ (l.fileName ++ UNDERSCORE :: (date ++ UNDERSCORE :: logTypeToString l.logType) ++
    UNDERSCORE :: (Decimal.digits no ++ ascii ".log"))

def newDate (l : AsyncLogger) (date : Bytes) : AsyncLogger :=
  if l.date ≠ date then { l with no := 0, date := date, needReopen := true } else l

def fopen (l : AsyncLogger) (opens : Bool) : AsyncLogger :=
  { l with fileHandle := if opens then some (l.fullFileName l.date l.no) else none, needReopen := false }

def reopen (l : AsyncLogger) (opens : Bool) : AsyncLogger :=
  let l := if l.fileHandle = none then { l with needReopen := true } else l
  if l.needReopen then l.fopen opens else l

/-- `ftell` needs a file, and so does `fclose`. -/
def roll (l : AsyncLogger) (files : Files) (opens : Bool) : Option AsyncLogger :=
  l.fileHandle.map fun name =>
    if l.maxSize < ftell (files name) then { l with no := l.no + 1 }.fopen opens else l

/-- So does `fwrite`, if there is a line; `fflush` does not. -/
def fwrite (l : AsyncLogger) (files : Files) (tmp : List String) : Option Files :=
  match l.fileHandle with
  | some name => some (update files name (files name ++ lines tmp))
  | none => if lines tmp = [] then some files else none

/-- What `excute` does with a batch; `none` is a call with no file. -/
def excute (l : AsyncLogger) (files : Files) (r : Round) : Option (AsyncLogger × Files) := do
  let l ← ((l.newDate r.date).reopen r.opens).roll files r.opensNext
  let files ← l.fwrite files r.tmp
  return (l, files)

end AsyncLogger

/-- Both loggers and their directory. The batches that each has written, with their dates, are history. -/
structure Directory where
  logger : LogType → AsyncLogger
  files : Files := fun _ => []
  history : LogType → List (Bytes × List String) := fun _ => []

/-- `Logger::init`, in an empty directory: the files of an earlier run would be appended to. -/
def init (filePath fileName : Bytes) (maxSize : Int) : Directory where
  logger := fun t => { filePath := filePath, fileName := fileName, maxSize := maxSize, logType := t }

def step (s : Directory) (a : LogType × Round) : Option Directory :=
  ((s.logger a.1).excute s.files a.2).map fun r =>
    { logger := update s.logger a.1 r.1
      files := r.2
      history := update s.history a.1 (s.history a.1 ++ [(a.2.date, a.2.tmp)]) }

/-! ## Names -/

theorem append_cons_inj {α : Type*} {a : α} {x x' y y' : List α} (hy : a ∉ y) (hy' : a ∉ y')
    (h : x ++ a :: y = x' ++ a :: y') : x = x' ∧ y = y' := by
  rcases List.append_eq_append_iff.1 h with ⟨t, rfl, ht⟩ | ⟨t, rfl, ht⟩
  · cases t with
    | nil => exact ⟨by simp, by simpa using ht⟩
    | cons b t =>
      obtain ⟨rfl, rfl⟩ := List.cons.inj ht
      exact absurd (by simp) hy
  · cases t with
    | nil => exact ⟨by simp, by simpa using ht.symm⟩
    | cons b t =>
      obtain ⟨rfl, rfl⟩ := List.cons.inj ht
      exact absurd (by simp) hy'

theorem underscore_notMem_digits (n : Nat) : UNDERSCORE ∉ Decimal.digits n := by
  intro h
  exact absurd (Decimal.digits_isDigit n _ h) (by decide)

theorem digits_inj {n m : Nat} (h : Decimal.digits n = Decimal.digits m) : n = m := by
  rw [← Decimal.value_digits n, h, Decimal.value_digits]

/-- Read from the back: the number, the kind of log, the date. -/
theorem fullFileName_inj {l l' : AsyncLogger} (hpath : l'.filePath = l.filePath) (hname : l'.fileName = l.fileName)
    {date date' : Bytes} {no no' : Nat} (h : l.fullFileName date no = l'.fullFileName date' no') :
    l.logType = l'.logType ∧ date = date' ∧ no = no' := by
  unfold AsyncLogger.fullFileName at h
  rw [hpath, hname] at h
  have hlog : UNDERSCORE ∉ ascii ".log" := by decide
  have hno : ∀ n : Nat, UNDERSCORE ∉ Decimal.digits n ++ ascii ".log" := fun n hmem =>
    (List.mem_append.1 hmem).elim (underscore_notMem_digits n) hlog
  obtain ⟨hfront, hback⟩ := append_cons_inj (hno no) (hno no') (List.append_cancel_left h)
  have hinside := List.append_cancel_left hfront
  have htype : ∀ t : LogType, UNDERSCORE ∉ logTypeToString t := by
    intro t
    cases t <;> decide
  obtain ⟨hdate, hkind⟩ := append_cons_inj (htype _) (htype _) (List.cons.inj hinside).2
  refine ⟨?_, hdate, digits_inj (List.append_cancel_right hback)⟩
  cases hl : l.logType <;> cases hl' : l'.logType <;> rw [hl, hl'] at hkind
  · revert hkind
    decide
  · revert hkind
    decide

/-! ## One batch -/

def batchSize (tmp : List String) : Nat := ftell (lines tmp)

/-- The batches written on a date. -/
def onDate (history : List (Bytes × List String)) (date : Bytes) : List (List String) :=
  (history.filter fun h => h.1 = date).map (·.2)

/-- How they are to lie in the files of that date. -/
def segments (maxSize : Int) (history : List (Bytes × List String)) (date : Bytes) : Segments.Chain (List String) :=
  .ofItems batchSize maxSize (onDate history date)

theorem onDate_concat_self (history : List (Bytes × List String)) (date : Bytes) (tmp : List String) :
    onDate (history ++ [(date, tmp)]) date = onDate history date ++ [tmp] := by
  simp [onDate]

theorem onDate_concat_ne (history : List (Bytes × List String)) {date d : Bytes} (tmp : List String) (h : d ≠ date) :
    onDate (history ++ [(date, tmp)]) d = onDate history d := by
  simp [onDate, h.symm]

theorem ftell_flatMap (bs : List (List String)) : ftell (bs.flatMap lines) = Segments.weight batchSize bs := by
  induction bs with
  | nil => rfl
  | cons b bs ih =>
    unfold ftell Segments.weight at ih ⊢
    rw [List.flatMap_cons, List.map_append, List.sum_append, ih, List.map_cons, List.sum_cons]
    rfl

/-- Between two batches: the file is the last one of the date, or could not be opened and holds nothing; and the
files hold what they are to. -/
structure LogInv (l : AsyncLogger) (files : Files) (history : List (Bytes × List String)) : Prop where
  file : l.fileHandle = some (l.fullFileName l.date l.no) ∨ l.fileHandle = none
  reopen : l.needReopen = false
  number : l.no = (segments l.maxSize history l.date).closed.length
  content : ∀ (d : Bytes) (k : Nat),
    files (l.fullFileName d k) = ((segments l.maxSize history d).all[k]?.getD []).flatMap lines

variable {l l' : AsyncLogger} {files files' : Files} {history : List (Bytes × List String)} {r : Round}

/-- The logger behind `fopen`, with the last file of the date. -/
def atFile (l : AsyncLogger) (history : List (Bytes × List String)) (date : Bytes) : AsyncLogger :=
  let no := (segments l.maxSize history date).closed.length
  { l with date := date, no := no, fileHandle := some (l.fullFileName date no), needReopen := false }

theorem fopen_cases (l : AsyncLogger) (opens : Bool) : (l.fopen opens).fileHandle = none ∨
    l.fopen opens = { l with fileHandle := some (l.fullFileName l.date l.no), needReopen := false } := by
  unfold AsyncLogger.fopen
  cases opens
  · exact .inl rfl
  · exact .inr rfl

/-- A new date has no files yet. -/
theorem reopen_eq (hi : LogInv l files history) (hnew : l.date = r.date ∨ onDate history r.date = []) :
    ((l.newDate r.date).reopen r.opens).fileHandle = none ∨
      (l.newDate r.date).reopen r.opens = atFile l history r.date := by
  have hnum := hi.number
  unfold AsyncLogger.newDate
  split
  · rename_i hdate
    have hzero : (segments l.maxSize history r.date).closed.length = 0 := by
      unfold segments
      rw [hnew.resolve_left hdate]
      rfl
    have hre : ({ l with no := 0, date := r.date, needReopen := true } : AsyncLogger).reopen r.opens =
        ({ l with no := 0, date := r.date, needReopen := true } : AsyncLogger).fopen r.opens := by
      unfold AsyncLogger.reopen
      split <;> rfl
    rw [hre]
    refine (fopen_cases _ _).imp_right fun hopen => ?_
    rw [hopen]
    unfold atFile
    rw [hzero]
    rfl
  · rename_i hdate
    have hsame : l.date = r.date := not_not.1 hdate
    rw [hsame] at hnum
    rcases hi.file with hfile | hfile
    · have hre : l.reopen r.opens = l := by simp [AsyncLogger.reopen, hfile, hi.reopen]
      rw [hre]
      rw [hsame] at hfile
      refine .inr ?_
      unfold atFile
      dsimp only
      rw [← hnum, ← hfile, ← hsame, ← hi.reopen]
    · unfold AsyncLogger.reopen
      rw [if_pos hfile]
      refine (fopen_cases _ _).imp_right fun hopen => ?_
      unfold atFile
      rw [← hnum, ← hsame]
      exact hopen

/-- How far the date has got with its files. -/
def lastNo (l : AsyncLogger) (history : List (Bytes × List String)) (date : Bytes) : Nat :=
  (segments l.maxSize history date).closed.length

theorem segments_concat (maxSize : Int) (history : List (Bytes × List String)) (date : Bytes) (tmp : List String) :
    segments maxSize (history ++ [(date, tmp)]) date =
      (segments maxSize history date).place batchSize maxSize tmp := by
  unfold segments
  rw [onDate_concat_self, Segments.Chain.ofItems_concat]

theorem roll_eq (hi : LogInv l files history) (date : Bytes) (tmp : List String) (opens : Bool) :
    ∃ handle, (atFile l history date).roll files opens = some { l with
        date := date, no := lastNo l (history ++ [(date, tmp)]) date, fileHandle := handle, needReopen := false } ∧
      (handle = some (l.fullFileName date (lastNo l (history ++ [(date, tmp)]) date)) ∨
        opens = false ∧ handle = none) := by
  have hsize : ftell (files (l.fullFileName date (segments l.maxSize history date).closed.length)) =
      Segments.weight batchSize (segments l.maxSize history date).last := by
    rw [hi.content, Segments.Chain.getElem?_all_last, Option.getD_some, ftell_flatMap]
  unfold lastNo
  rw [segments_concat]
  unfold AsyncLogger.roll atFile
  dsimp only
  rw [Option.map_some, hsize]
  split
  · rename_i hfull
    rw [Segments.Chain.place_full hfull, List.length_append, List.length_singleton]
    cases opens with
    | true => exact ⟨_, rfl, .inl rfl⟩
    | false => exact ⟨none, rfl, .inr ⟨rfl, rfl⟩⟩
  · rename_i hsmall
    rw [Segments.Chain.place_small hsmall]
    exact ⟨_, rfl, .inl rfl⟩

/-- Where the batch gets to. -/
theorem excute_spec (hi : LogInv l files history) (hnew : l.date = r.date ∨ onDate history r.date = [])
    (h : l.excute files r = some (l', files')) :
    ∃ handle, l' = { l with
        date := r.date, no := lastNo l (history ++ [(r.date, r.tmp)]) r.date, fileHandle := handle,
        needReopen := false } ∧
      (handle = some (l.fullFileName r.date l'.no) ∧
          files' = update files (l.fullFileName r.date l'.no) (files (l.fullFileName r.date l'.no) ++ lines r.tmp) ∨
        handle = none ∧ lines r.tmp = [] ∧ files' = files) := by
  unfold AsyncLogger.excute at h
  obtain ⟨l₂, hroll, h⟩ := Option.bind_eq_some_iff.1 h
  obtain ⟨files₂, hwrite, h⟩ := Option.bind_eq_some_iff.1 h
  cases h
  rcases reopen_eq hi hnew with hnone | hat
  · unfold AsyncLogger.roll at hroll
    rw [hnone] at hroll
    cases hroll
  · rw [hat] at hroll
    obtain ⟨handle, hrolled, hhandle⟩ := roll_eq hi r.date r.tmp r.opensNext
    rw [hrolled] at hroll
    cases hroll
    refine ⟨handle, rfl, ?_⟩
    unfold AsyncLogger.fwrite at hwrite
    rcases hhandle with rfl | ⟨-, rfl⟩
    · exact .inl ⟨rfl, (Option.some.inj hwrite).symm⟩
    · obtain ⟨hempty, hfiles⟩ := Option.ite_none_right_eq_some.1 hwrite
      exact .inr ⟨rfl, hempty, (Option.some.inj hfiles).symm⟩

theorem fullFileName_self {date date' : Bytes} {no no' : Nat}
    (h : l.fullFileName date no = l.fullFileName date' no') : date = date' ∧ no = no' :=
  (fullFileName_inj rfl rfl h).2

/-- A batch keeps what is promised of its log. -/
theorem LogInv.excute (hi : LogInv l files history) (hnew : l.date = r.date ∨ onDate history r.date = [])
    (h : l.excute files r = some (l', files')) : LogInv l' files' (history ++ [(r.date, r.tmp)]) := by
  obtain ⟨handle, hl', hcase⟩ := excute_spec hi hnew h
  have hno : l'.no = lastNo l (history ++ [(r.date, r.tmp)]) r.date := by rw [hl']
  have hname : ∀ d k, l'.fullFileName d k = l.fullFileName d k := fun d k => by rw [hl']; rfl
  have hmax : l'.maxSize = l.maxSize := by rw [hl']
  refine ⟨?_, by rw [hl'], ?_, fun d k => ?_⟩
  · rw [hname, hl']
    rcases hcase with ⟨hhandle, -⟩ | ⟨hhandle, -⟩
    · rw [← hno]
      exact .inl hhandle
    · exact .inr hhandle
  · rw [hno, hmax, hl']
    rfl
  · rw [hname, hmax]
    by_cases hd : d = r.date
    · -- the batch goes to the last file, and the other ones of the date stay
      subst hd
      have hcontent : files' (l.fullFileName r.date k) =
          files (l.fullFileName r.date k) ++ if k = l'.no then lines r.tmp else [] := by
        rcases hcase with ⟨-, rfl⟩ | ⟨-, hempty, rfl⟩
        · by_cases hk : k = l'.no
          · rw [hk, update_self, if_pos rfl]
          · rw [update_of_ne fun heq => hk (fullFileName_self heq).2, if_neg hk, List.append_nil]
        · rw [hempty, ite_self, List.append_nil]
      rw [hcontent, hi.content, hno]
      unfold lastNo
      rw [segments_concat, Segments.Chain.getElem?_place, List.flatMap_append]
      congr 1
      split <;> simp
    · have hsame : files' (l.fullFileName d k) = files (l.fullFileName d k) := by
        rcases hcase with ⟨-, rfl⟩ | ⟨-, -, rfl⟩
        · exact update_of_ne (fun heq => hd (fullFileName_self heq).1) _ _
        · rfl
      rw [hsame, hi.content]
      unfold segments
      rw [onDate_concat_ne history r.tmp hd]

/-! ## Both loggers -/

/-- The batches of a day lie in its files one after the other: every file but the last one has outgrown the
maximal size, and none had before its last batch. -/
structure Day (files : Nat → List String) (maxSize : Int) (batches : List (List String))
    (segs : List (List (List String))) : Prop where
  inOrder : segs.flatten = batches
  content : ∀ k, files k = (segs[k]?.getD []).flatMap lines
  full : ∀ seg ∈ segs.dropLast, maxSize < ftell (seg.flatMap lines)
  small : ∀ seg ∈ segs, seg.length ≤ 1 ∨ ftell (seg.dropLast.flatMap lines) ≤ maxSize

/-- So it is with every day of either log, and batches go on being written as long as files open. -/
structure Rolls (s : Directory) : Prop where
  days : ∀ (t : LogType) (d : Bytes), ∃ segs,
    Day (fun k => s.files ((s.logger t).fullFileName d k)) (s.logger t).maxSize (onDate (s.history t) d) segs
  writes : ∀ a : LogType × Round, a.2.opens = true → a.2.opensNext = true → step s a ≠ none

/-- The date has not gone back. -/
def NewDate (s : Directory) (a : LogType × Round) : Prop :=
  (s.logger a.1).date = a.2.date ∨ onDate (s.history a.1) a.2.date = []

instance (s : Directory) (a : LogType × Round) : Decidable (NewDate s a) := inferInstanceAs (Decidable (_ ∨ _))

structure Inv (s : Directory) : Prop where
  log : ∀ t, LogInv (s.logger t) s.files (s.history t)
  kind : ∀ t, (s.logger t).logType = t
  path : ∀ t t', (s.logger t').filePath = (s.logger t).filePath
  name : ∀ t t', (s.logger t').fileName = (s.logger t).fileName

theorem LogInv.day (hi : LogInv l files history) (d : Bytes) :
    Day (fun k => files (l.fullFileName d k)) l.maxSize (onDate history d) (segments l.maxSize history d).all := by
  have hfits : (segments l.maxSize history d).Fits batchSize l.maxSize := Segments.Chain.fits_ofItems _
  refine ⟨Segments.Chain.flatten_ofItems _, hi.content d, fun seg hseg => ?_, fun seg hseg => ?_⟩
  · rw [ftell_flatMap]
    unfold Segments.Chain.all at hseg
    rw [List.dropLast_concat] at hseg
    exact hfits.full seg hseg
  · rw [ftell_flatMap]
    exact hfits.small seg hseg

theorem reopen_opens (l : AsyncLogger) : ∃ name, (l.reopen true).fileHandle = some name := by
  unfold AsyncLogger.reopen AsyncLogger.fopen
  split
  · exact ⟨_, rfl⟩
  · dsimp only
    split
    · exact ⟨_, rfl⟩
    · exact Option.ne_none_iff_exists'.1 ‹_›

/-- With its files, a batch gets written. -/
theorem excute_opens (l : AsyncLogger) (files : Files) {r : Round} (hopens : r.opens = true)
    (hnext : r.opensNext = true) : l.excute files r ≠ none := by
  obtain ⟨name, hname⟩ := reopen_opens (l.newDate r.date)
  have hroll : ∃ l₂ name₂, ((l.newDate r.date).reopen r.opens).roll files r.opensNext = some l₂ ∧
      l₂.fileHandle = some name₂ := by
    rw [hopens, hnext]
    unfold AsyncLogger.roll
    rw [hname, Option.map_some]
    split
    · exact ⟨_, _, rfl, rfl⟩
    · exact ⟨_, _, rfl, hname⟩
  obtain ⟨l₂, name₂, hl₂, hname₂⟩ := hroll
  unfold AsyncLogger.excute
  rw [hl₂, Option.bind_eq_bind, Option.bind_some]
  unfold AsyncLogger.fwrite
  rw [hname₂]
  simp

theorem Inv.rolls {s : Directory} (hi : Inv s) : Rolls s where
  days t d := ⟨_, (hi.log t).day d⟩
  writes a hopens hnext h := by
    unfold step at h
    exact excute_opens _ _ hopens hnext (Option.map_eq_none_iff.1 h)

/-- The other log has other files. -/
theorem LogInv.frame {l₂ : AsyncLogger} {h₂ : List (Bytes × List String)} (hi₂ : LogInv l₂ files h₂)
    (hi : LogInv l files history) (hnew : l.date = r.date ∨ onDate history r.date = [])
    (h : l.excute files r = some (l', files')) (hpath : l₂.filePath = l.filePath) (hname : l₂.fileName = l.fileName)
    (hkind : l.logType ≠ l₂.logType) : LogInv l₂ files' h₂ := by
  refine ⟨hi₂.file, hi₂.reopen, hi₂.number, fun d k => ?_⟩
  rw [← hi₂.content]
  obtain ⟨handle, -, ⟨-, rfl⟩ | ⟨-, -, rfl⟩⟩ := excute_spec hi hnew h
  · exact update_of_ne (fun heq => hkind (fullFileName_inj hpath hname heq.symm).1) _ _
  · rfl

theorem Inv.step {s s' : Directory} {a : LogType × Round} (hi : Inv s) (hnew : NewDate s a) (h : step s a = some s') :
    Inv s' := by
  obtain ⟨t, r⟩ := a
  obtain ⟨⟨l', files'⟩, hexc, rfl⟩ := Option.map_eq_some_iff.1 h
  obtain ⟨handle, hl', -⟩ := excute_spec (hi.log t) hnew hexc
  have hstatic : ∀ t₂, (update s.logger t l' t₂).filePath = (s.logger t₂).filePath ∧
      (update s.logger t l' t₂).fileName = (s.logger t₂).fileName ∧
      (update s.logger t l' t₂).logType = (s.logger t₂).logType := by
    intro t₂
    by_cases ht : t₂ = t
    · subst ht
      rw [update_self, hl']
      exact ⟨rfl, rfl, rfl⟩
    · rw [update_of_ne ht]
      exact ⟨rfl, rfl, rfl⟩
  refine ⟨fun t₂ => ?_, fun t₂ => (hstatic t₂).2.2.trans (hi.kind t₂), fun t₁ t₂ => ?_, fun t₁ t₂ => ?_⟩
  · by_cases ht : t₂ = t
    · subst ht
      show LogInv (update s.logger t₂ l' t₂) files' (update s.history t₂ _ t₂)
      rw [update_self, update_self]
      exact (hi.log t₂).excute hnew hexc
    · show LogInv (update s.logger t l' t₂) files' (update s.history t _ t₂)
      rw [update_of_ne ht, update_of_ne ht]
      refine (hi.log t₂).frame (hi.log t) hnew hexc (hi.path t t₂) (hi.name t t₂) ?_
      rw [hi.kind, hi.kind]
      exact Ne.symm ht
  · exact (hstatic t₂).1.trans ((hi.path t₁ t₂).trans (hstatic t₁).1.symm)
  · exact (hstatic t₂).2.1.trans ((hi.name t₁ t₂).trans (hstatic t₁).2.1.symm)

theorem Inv.init (filePath fileName : Bytes) (maxSize : Int) : Inv (init filePath fileName maxSize) where
  log t := by
    refine ⟨.inr rfl, rfl, rfl, fun d k => ?_⟩
    show [] = ((Segments.Chain.all {})[k]?.getD []).flatMap lines
    unfold Segments.Chain.all
    cases k <;> rfl
  kind _ := rfl
  path _ _ := rfl
  name _ _ := rfl

/-- In every order of batches, while the date does not go back. -/
theorem rolls_of_newDate (filePath fileName : Bytes) (maxSize : Int) {acts : List (LogType × Round)}
    (hk : Lts.Along step NewDate (init filePath fileName maxSize) acts) :
    Lts.Always step Rolls (init filePath fileName maxSize) acts :=
  (Lts.always_of_along (fun _ _ _ hi hn h => Inv.step hi hn h) (Inv.init filePath fileName maxSize) hk).imp
    fun _ hi => hi.rolls

/-- Two batches of one day and one of the next, with a file that holds one line. -/
def sampleRounds : List (LogType × Round) :=
  [(.rpc, { tmp := ["one"], date := ascii "20240101" }), (.app, { tmp := ["two"], date := ascii "20240101" }),
    (.rpc, { tmp := ["", "three"], date := ascii "20240101" }), (.rpc, { tmp := ["four"], date := ascii "20240102" })]

theorem rolls_sample : Lts.Always step Rolls (init (ascii "./") (ascii "log") 2) sampleRounds :=
  rolls_of_newDate (ascii "./") (ascii "log") 2 (by decide +kernel)

-- the second batch of the day is in a file of its own
example : (Lts.run step (init (ascii "./") (ascii "log") 2) sampleRounds).map
    (fun s => s.files (ascii "./log_20240101_rpc_1.log")) = some ["three"] := by decide +kernel

/-! ## What the threads write -/

/-- `Logger` with its threads, and the directory they write to. -/
structure Threads where
  logger : Logger
  directory : Directory

/-- A thread writes the batch that it has taken off its queue. -/
def threadsStep (s : Threads) (a : Act × Round) : Option Threads :=
  match a.1 with
  | .write t =>
    match (s.logger.channel t).thread with
    | .write tmp _ =>
      match Log.step s.logger (.write t), step s.directory (t, { a.2 with tmp := tmp }) with
      | some logger, some directory => some ⟨logger, directory⟩
      | _, _ => none
    | _ => none
  | act => (Log.step s.logger act).map fun logger => { s with logger := logger }

/-- The date has not gone back when a batch is written. -/
def Writes (s : Threads) (a : Act × Round) : Prop :=
  match a.1 with
  | .write t => NewDate s.directory (t, a.2)
  | _ => True

/-- The lines in the first files of a day. -/
def Directory.reading (s : Directory) (t : LogType) (day : Bytes × Nat) : List String :=
  (List.range day.2).flatMap fun k => s.files ((s.logger t).fullFileName day.1 k)

/-- The files of a log, day after day and number after number, hold the lines that its thread has written, and
there are no other ones. -/
structure Keeps (s : Threads) (t : LogType) (days : List (Bytes × Nat)) : Prop where
  once : (days.map (·.1)).Nodup
  lines : days.flatMap (s.directory.reading t) = (s.logger.channel t).written
  others : ∀ (d : Bytes) (k : Nat), s.directory.files ((s.directory.logger t).fullFileName d k) ≠ [] →
    ∃ n, (d, n) ∈ days ∧ k < n

/-- The dates of a log, each one once, in order; the last one is the date of the logger. -/
structure Dates (date : Bytes) (history : List (Bytes × List String)) (days : List Bytes) : Prop where
  once : days.Nodup
  all : ∀ d, d ∈ days ↔ onDate history d ≠ []
  batches : days.flatMap (onDate history) = history.map (·.2)
  last : history ≠ [] → days.getLast? = some date

theorem flatMap_onDate_concat {days : List Bytes} {date : Bytes} (h : date ∉ days) (tmp : List String) :
    days.flatMap (onDate (history ++ [(date, tmp)])) = days.flatMap (onDate history) :=
  List.flatMap_congr fun _ hd => onDate_concat_ne history tmp (ne_of_mem_of_not_mem hd h)

theorem Dates.concat {date d : Bytes} {days : List Bytes} (hd : Dates date history days)
    (hnew : date = d ∨ onDate history d = []) (tmp : List String) :
    ∃ days', Dates d (history ++ [(d, tmp)]) days' := by
  have hall : ∀ x, onDate (history ++ [(d, tmp)]) x ≠ [] ↔ x = d ∨ x ∈ days := by
    intro x
    by_cases hx : x = d
    · rw [hx, onDate_concat_self]
      simp
    · rw [onDate_concat_ne history tmp hx, ← hd.all]
      simp [hx]
  by_cases hmem : d ∈ days
  · -- the day goes on
    obtain rfl : date = d := hnew.resolve_right ((hd.all d).1 hmem)
    have hne : history ≠ [] := by
      rintro rfl
      exact (hd.all date).1 hmem rfl
    obtain ⟨front, rfl⟩ := List.getLast?_eq_some_iff.1 (hd.last hne)
    have hfront : date ∉ front := fun hf => (List.nodup_append.1 hd.once).2.2 date hf date (by simp) rfl
    refine ⟨front ++ [date], hd.once, fun x => ?_, ?_, fun _ => by simp⟩
    · rw [hall, List.mem_append, List.mem_singleton]
      tauto
    · have hbatches := hd.batches
      rw [List.flatMap_append, List.flatMap_singleton] at hbatches ⊢
      rw [flatMap_onDate_concat hfront, onDate_concat_self, ← List.append_assoc, hbatches]
      simp
  · -- a new day
    have hnone : onDate history d = [] := not_not.1 (mt (hd.all d).2 hmem)
    refine ⟨days ++ [d], ?_, fun x => ?_, ?_, fun _ => by simp⟩
    · rw [List.nodup_append]
      exact ⟨hd.once, by simp, by simpa using fun x hx => ne_of_mem_of_not_mem hx hmem⟩
    · rw [hall]
      simp [or_comm]
    · rw [List.flatMap_append, flatMap_onDate_concat hmem, hd.batches, List.flatMap_singleton, onDate_concat_self,
        hnone]
      simp

theorem flatMap_range_getD (segs : List (List (List String))) :
    (List.range segs.length).flatMap (fun k => (segs[k]?.getD []).flatMap lines) = segs.flatten.flatMap lines := by
  induction segs using List.reverseRecOn with
  | nil => rfl
  | append_singleton segs seg ih =>
    rw [List.length_append, List.length_singleton, List.range_succ, List.flatMap_append, List.flatMap_singleton,
      List.flatten_append, List.flatMap_append, ← ih]
    congr 1
    · refine List.flatMap_congr fun k hk => ?_
      rw [List.getElem?_append_left (List.mem_range.1 hk)]
    · simp

/-- All the files of a day, read one after the other. -/
theorem Day.reading {fs : Nat → List String} {maxSize : Int} {batches : List (List String)}
    {segs : List (List (List String))} (hd : Day fs maxSize batches segs) :
    (List.range segs.length).flatMap fs = batches.flatMap lines := by
  rw [← hd.inOrder, ← flatMap_range_getD]
  exact List.flatMap_congr fun k _ => hd.content k

structure ThreadsInv (s : Threads) : Prop where
  directory : Inv s.directory
  dates : ∀ t, ∃ days, Dates (s.directory.logger t).date (s.directory.history t) days
  written : ∀ t, (s.logger.channel t).written = ((s.directory.history t).map (·.2)).flatMap lines

theorem ThreadsInv.keeps {s : Threads} (hi : ThreadsInv s) (t : LogType) : ∃ days, Keeps s t days := by
  obtain ⟨days, hd⟩ := hi.dates t
  let count (d : Bytes) : Nat := (segments (s.directory.logger t).maxSize (s.directory.history t) d).all.length
  have hlog := hi.directory.log t
  refine ⟨days.map fun d => (d, count d), ?_, ?_, fun d k hne => ⟨count d, ?_, ?_⟩⟩
  · rw [List.map_map]
    exact (List.map_id days).symm ▸ hd.once
  · rw [hi.written t, ← hd.batches, List.flatMap_map, List.flatMap_assoc]
    exact List.flatMap_congr fun d _ => (hlog.day d).reading
  · refine List.mem_map.2 ⟨d, (hd.all d).2 fun hnone => hne ?_, rfl⟩
    rw [hlog.content]
    unfold segments
    rw [hnone]
    cases k <;> rfl
  · by_contra hge
    refine hne ?_
    rw [hlog.content, List.getElem?_eq_none (Nat.le_of_not_lt hge)]
    rfl

theorem written_update {s : Logger} {t : LogType} {c : Channel} (h : c.written = (s.channel t).written) (u : LogType) :
    ((s.update t c).channel u).written = (s.channel u).written := by
  show (update s.channel t c u).written = _
  by_cases hu : u = t
  · rw [hu, update_self, h]
  · rw [update_of_ne hu]

/-- Only `write` writes. -/
theorem step_written {s s' : Logger} {a : Act} (h : Log.step s a = some s') (ha : ∀ t, a ≠ .write t) (u : LogType) :
    (s'.channel u).written = (s.channel u).written := by
  cases a with
  | log t msg =>
    cases h
    exact written_update (s := s) (t := t) (c := (s.channel t).log msg) rfl u
  | loopFunc =>
    obtain ⟨-, h⟩ := Option.ite_none_right_eq_some.1 h
    cases h
    exact written_update (s := s) (t := .app) (c := (s.channel .app).swap false) rfl u
  | flush =>
    obtain ⟨-, h⟩ := Option.ite_none_right_eq_some.1 h
    cases h
    exact written_update (s := s) (t := .app) (c := (s.channel .app).swap true) rfl u
  | next =>
    change s.next = some s' at h
    unfold Logger.next at h
    split at h
    · cases h
    · cases h
    · rename_i final hcaller
      cases h
      exact written_update (s := s) (t := .rpc) (c := (s.channel .rpc).swap final) rfl u
    · cases h
      exact written_update (s := s) (t := .rpc) (Channel.push_rest _).2.2.2.2.1 u
    · cases h
      exact written_update (s := s) (t := .app) (Channel.push_rest _).2.2.2.2.1 u
    · cases h
      exact written_update (s := s) (t := .rpc) (c := (s.channel .rpc).setStop) rfl u
    · cases h
      exact written_update (s := s) (t := .app) (c := (s.channel .app).setStop) rfl u
  | take t =>
    obtain ⟨c, hc, rfl⟩ := Option.map_eq_some_iff.1 h
    have hw : c.written = (s.channel t).written := by
      obtain ⟨-, ⟨-, -, rfl⟩ | ⟨_, _, -, rfl⟩⟩ := Channel.take_cases hc <;> rfl
    exact written_update hw u
  | write t => exact absurd rfl (ha t)

/-- No other step gets to the directory. -/
theorem threadsStep_directory {s s' : Threads} {a : Act × Round} (h : threadsStep s a = some s')
    (ha : ∀ t, a.1 ≠ .write t) : s'.directory = s.directory := by
  obtain ⟨act, r⟩ := a
  cases act with
  | write t => exact absurd rfl (ha t)
  | _ =>
    unfold threadsStep at h
    obtain ⟨logger, -, rfl⟩ := Option.map_eq_some_iff.1 h
    rfl

theorem ThreadsInv.step {s s' : Threads} {a : Act × Round} (hi : ThreadsInv s) (hw : Writes s a)
    (h : threadsStep s a = some s') : ThreadsInv s' := by
  obtain ⟨act, r⟩ := a
  cases act with
  | write t =>
    unfold threadsStep at h
    dsimp only at h
    split at h
    · rename_i tmp isStop hthread
      split at h
      · rename_i logger directory hlog hdir
        cases h
        have hdirectory := hi.directory.step (a := (t, { r with tmp := tmp })) hw hdir
        obtain ⟨c, hc, rfl⟩ := Option.map_eq_some_iff.1 hlog
        obtain ⟨tmp', isStop', hthread', rfl⟩ := Channel.write_cases hc
        rw [hthread] at hthread'
        cases hthread'
        obtain ⟨⟨l', files'⟩, hexc, rfl⟩ := Option.map_eq_some_iff.1 hdir
        have hnew : NewDate s.directory (t, { r with tmp := tmp }) := hw
        obtain ⟨_, hl', -⟩ := excute_spec (hi.directory.log t) hnew hexc
        refine ⟨hdirectory, fun u => ?_, fun u => ?_⟩
        · show ∃ days, Dates (update s.directory.logger t l' u).date (update s.directory.history t _ u) days
          by_cases hu : u = t
          · rw [hu, update_self, update_self, hl']
            obtain ⟨days, hd⟩ := hi.dates t
            exact hd.concat hw tmp
          · rw [update_of_ne hu, update_of_ne hu]
            exact hi.dates u
        · show (update s.logger.channel t _ u).written = ((update s.directory.history t _ u).map (·.2)).flatMap lines
          by_cases hu : u = t
          · rw [hu, update_self, update_self, List.map_append, List.flatMap_append, ← hi.written t]
            simp
          · rw [update_of_ne hu, update_of_ne hu]
            exact hi.written u
      · cases h
    · cases h
  | _ =>
    unfold threadsStep at h
    obtain ⟨logger, hstep, rfl⟩ := Option.map_eq_some_iff.1 h
    exact ⟨hi.directory, hi.dates, fun u => (step_written hstep (by simp) u).trans (hi.written u)⟩

/-- Whatever the order of the calls and of the threads' steps: while the date does not go back, the files of a log
are what its thread has written. -/
theorem keeps_of_writes (filePath fileName : Bytes) (maxSize : Int) {acts : List (Act × Round)}
    (hk : Lts.Along threadsStep Writes ⟨.init, init filePath fileName maxSize⟩ acts) :
    Lts.Always threadsStep (fun s => ∀ t, ∃ days, Keeps s t days) ⟨.init, init filePath fileName maxSize⟩ acts := by
  have hnew : ThreadsInv ⟨.init, init filePath fileName maxSize⟩ :=
    ⟨Inv.init filePath fileName maxSize,
      fun _ => ⟨[], .nil, by simp [init, onDate], rfl, fun h => absurd rfl h⟩, fun _ => rfl⟩
  exact (Lts.always_of_along (fun _ _ _ hi hw h => hi.step hw h) hnew hk).imp fun _ hi => hi.keeps

def sampleRound : Round := { tmp := [], date := ascii "20240101" }

/-- A line on its way to the file. -/
def sampleActs : List (Act × Round) :=
  [(.log .rpc "one", sampleRound), (.loopFunc, sampleRound), (.next, sampleRound), (.next, sampleRound),
    (.take .rpc, sampleRound), (.write .rpc, sampleRound)]

theorem keeps_sample : Lts.Always threadsStep (fun s => ∀ t, ∃ days, Keeps s t days)
    ⟨.init, init (ascii "./") (ascii "log") 2⟩ sampleActs := by
  refine keeps_of_writes (ascii "./") (ascii "log") 2 fun s₁ h₁ => ⟨trivial, fun s₂ h₂ => ⟨trivial, fun s₃ h₃ =>
    ⟨trivial, fun s₄ h₄ => ⟨trivial, fun s₅ h₅ => ⟨trivial, fun s₆ h₆ => ⟨.inr ?_, trivial⟩⟩⟩⟩⟩⟩
  rw [threadsStep_directory h₅ (by simp), threadsStep_directory h₄ (by simp), threadsStep_directory h₃ (by simp),
    threadsStep_directory h₂ (by simp), threadsStep_directory h₁ (by simp)]
  rfl

end Flconc.LogFile
