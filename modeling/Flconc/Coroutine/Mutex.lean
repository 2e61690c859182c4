/-
The coroutine mutex of net/base/mutex.cc: `lock`, `unlock` and the Resume tasks `unlock` posts,
for any number of coroutines of one thread and every order in which the reactor resumes them and
runs the posted tasks.

`unlock` clears the flag, pops one waiter and posts its Resume, and the waiter returns from `lock`
without setting the flag again. So the flag says "locked by a `lock` that found it clear", not
"owned": two coroutines own the mutex when a `lock` is taken while a hand-off is outstanding, and
waiters are stranded when the last owner was handed the mutex and finds the flag clear.
-/
import Flconc.Lib.Run
import Mathlib.Data.List.Nodup
import Mathlib.Logic.Function.Basic

namespace Flconc.CoroutineMutex

open Function

/-! ## The model -/

/-- The mutex, the reactor's posted tasks and where the coroutines of the thread are. The last two
fields are history: who has returned from `lock` and not called `unlock` since, and how many
Resume tasks were run for a coroutine since its last `lock`. -/
structure State (Cor : Type) where
  /-- The coroutine with control; `none` is the main coroutine. -/
  cur : Option Cor
  lockFlag : Bool
  sleepCors : List Cor
  /-- The Resume tasks posted and not yet run. -/
  tasks : List Cor
  /-- Suspended in the `Yield` of `lock`. -/
  asleep : Cor → Bool
  owns : Cor → Bool
  woken : Cor → Nat

variable {Cor : Type}

def init : State Cor := ⟨none, false, [], [], fun _ => false, fun _ => false, fun _ => 0⟩

/-- What can happen next on the thread. -/
inductive Act (Cor : Type)
  /-- The reactor resumes a coroutine that is suspended elsewhere than in `lock`. -/
  | resume (c : Cor)
  /-- The running coroutine yields elsewhere than in `lock`. -/
  | yield
  | lock
  | unlock
  /-- The reactor runs a posted Resume task. -/
  | runTask (c : Cor)
  deriving DecidableEq

variable [DecidableEq Cor]

/-- `CoroutineMutex::lock`: the main coroutine is turned away; a clear flag is taken; otherwise the
caller joins the queue and yields. -/
def lock (s : State Cor) : State Cor :=
  match s.cur with
  | none => s
  | some cor =>
    if s.lockFlag = false then
      { s with lockFlag := true, owns := update s.owns cor true, woken := update s.woken cor 0 }
    else
      { s with cur := none, sleepCors := s.sleepCors ++ [cor], asleep := update s.asleep cor true,
               woken := update s.woken cor 0 }

/-- `CoroutineMutex::unlock`: a set flag is cleared and the front waiter, if any, gets a Resume
task; a clear flag is left as it is. -/
def unlock (s : State Cor) : State Cor :=
  match s.cur with
  | none => s
  | some self =>
    let s := { s with owns := update s.owns self false }
    if s.lockFlag then
      match s.sleepCors with
      | [] => { s with lockFlag := false }
      | cor :: rest => { s with lockFlag := false, sleepCors := rest, tasks := s.tasks ++ [cor] }
    else s

/-- `Coroutine::Resume` from a posted task: a coroutine asleep in `lock` returns from it. -/
def runTask (s : State Cor) (cor : Cor) : State Cor :=
  { s with
    cur := some cor
    tasks := s.tasks.erase cor
    asleep := update s.asleep cor false
    owns := if s.asleep cor then update s.owns cor true else s.owns
    woken := update s.woken cor (s.woken cor + 1) }

/-- One step of the thread; the reactor acts only while the main coroutine has control. -/
def step (s : State Cor) : Act Cor → Option (State Cor)
  | .resume c => if s.cur = none ∧ s.asleep c = false then some { s with cur := some c } else none
  | .yield => if s.cur = none then none else some { s with cur := none }
  | .lock => some (lock s)
  | .unlock => some (unlock s)
  | .runTask c => if s.cur = none ∧ c ∈ s.tasks then some (runTask s c) else none

/-- A program that brackets its critical sections: `lock` by a coroutine that does not own the
mutex, `unlock` by one that does. -/
def bracketed (s : State Cor) : Act Cor → Bool
  | .lock => s.cur.all fun c => !s.owns c
  | .unlock => s.cur.all fun c => s.owns c
  | _ => true

def bracketedStep (s : State Cor) (a : Act Cor) : Option (State Cor) :=
  if bracketed s a then step s a else none

theorem bracketedStep_eq {s s' : State Cor} {a : Act Cor} (h : bracketedStep s a = some s') :
    bracketed s a = true ∧ step s a = some s' := by
  unfold bracketedStep at h
  split at h
  · exact ⟨‹_›, h⟩
  · cases h

/-! ## What a step does -/

/-- Every way a step can change the state, with the branch of the source it comes from. -/
inductive StepCases (s : State Cor) : Act Cor → State Cor → Prop
  | resume (c : Cor) : s.cur = none → s.asleep c = false → StepCases s (.resume c) { s with cur := some c }
  | yield : StepCases s .yield { s with cur := none }
  | main (a : Act Cor) : s.cur = none → a = .lock ∨ a = .unlock → StepCases s a s
  | lockFree (c : Cor) : s.cur = some c → s.lockFlag = false →
      StepCases s .lock
        { s with lockFlag := true, owns := update s.owns c true, woken := update s.woken c 0 }
  | lockSleep (c : Cor) : s.cur = some c → s.lockFlag = true →
      StepCases s .lock
        { s with cur := none, sleepCors := s.sleepCors ++ [c], asleep := update s.asleep c true,
                 woken := update s.woken c 0 }
  | unlockClear (c : Cor) : s.cur = some c → s.lockFlag = false →
      StepCases s .unlock { s with owns := update s.owns c false }
  | unlockEmpty (c : Cor) : s.cur = some c → s.lockFlag = true → s.sleepCors = [] →
      StepCases s .unlock { s with owns := update s.owns c false, lockFlag := false }
  | unlockPost (c d : Cor) (rest : List Cor) : s.cur = some c → s.lockFlag = true →
      s.sleepCors = d :: rest →
      StepCases s .unlock
        { s with owns := update s.owns c false, lockFlag := false, sleepCors := rest,
                 tasks := s.tasks ++ [d] }
  | runTask (c : Cor) : s.cur = none → c ∈ s.tasks → StepCases s (.runTask c) (runTask s c)

theorem step_cases {s s' : State Cor} {a : Act Cor} (h : step s a = some s') : StepCases s a s' := by
  cases a with
  | resume c =>
    simp only [step] at h
    split at h
    · rename_i hc; cases h; exact .resume c hc.1 hc.2
    · cases h
  | yield =>
    simp only [step] at h
    split at h
    · cases h
    · cases h; exact .yield
  | lock =>
    simp only [step, lock, Option.some.injEq] at h
    split at h
    · rename_i hc; subst h; exact .main _ hc (.inl rfl)
    · rename_i c hc
      split at h
      · rename_i hf; subst h; exact .lockFree c hc hf
      · rename_i hf; subst h; exact .lockSleep c hc (by simpa using hf)
  | unlock =>
    simp only [step, unlock, Option.some.injEq] at h
    split at h
    · rename_i hc; subst h; exact .main _ hc (.inr rfl)
    · rename_i c hc
      split at h
      · rename_i hf
        split at h
        · rename_i hq; subst h; exact .unlockEmpty c hc hf hq
        · rename_i d rest hq; subst h; exact .unlockPost c d rest hc hf hq
      · rename_i hf; subst h; exact .unlockClear c hc (by simpa using hf)
  | runTask c =>
    simp only [step] at h
    split at h
    · rename_i hc; cases h; exact .runTask c hc.1 hc.2
    · cases h

/-! ## What holds in every run -/

/-- The waiters, asked to resume or still queued, are distinct, asleep in `lock` and not resumed
since they called it; nobody is resumed twice in one `lock`; a set flag has an owner. -/
structure Inv (s : State Cor) : Prop where
  nodup : (s.sleepCors ++ s.tasks).Nodup
  waits : ∀ c ∈ s.sleepCors ++ s.tasks, s.asleep c = true ∧ s.woken c = 0
  awake : ∀ c, s.cur = some c → s.asleep c = false
  once : ∀ c, s.woken c ≤ 1
  flag : s.lockFlag = true → ∃ c, s.owns c = true

omit [DecidableEq Cor] in
theorem init_inv : Inv (init : State Cor) :=
  ⟨by simp [init], by simp [init], by simp [init], by simp [init], by simp [init]⟩

omit [DecidableEq Cor] in
theorem Inv.running {s : State Cor} (hi : Inv s) {c : Cor} (hc : s.cur = some c) :
    c ∉ s.sleepCors ++ s.tasks := by
  intro hm
  have h1 := (hi.waits c hm).1
  rw [hi.awake c hc] at h1
  cases h1

theorem step_inv (s : State Cor) (a : Act Cor) (s' : State Cor) (hi : Inv s) (h : step s a = some s') :
    Inv s' := by
  cases step_cases h with
  | resume c hc ha =>
    exact ⟨hi.nodup, hi.waits, fun d hd => by cases hd; exact ha, hi.once, hi.flag⟩
  | yield => exact ⟨hi.nodup, hi.waits, nofun, hi.once, hi.flag⟩
  | main _ _ _ => exact hi
  | lockFree c hc hf =>
    have hne := hi.running hc
    refine ⟨hi.nodup, fun d hd => ?_, hi.awake, fun d => ?_, fun _ => ⟨c, by simp⟩⟩
    · have hdc : d ≠ c := fun e => hne (e ▸ hd)
      simpa [hdc] using hi.waits d hd
    · by_cases hdc : d = c
      · subst hdc; simp
      · simpa [hdc] using hi.once d
  | lockSleep c hc hf =>
    have hne := hi.running hc
    refine ⟨?_, fun d hd => ?_, nofun, fun d => ?_, hi.flag⟩
    · have : (s.sleepCors ++ [c] ++ s.tasks).Perm (c :: (s.sleepCors ++ s.tasks)) := by simp
      exact this.nodup_iff.2 (List.nodup_cons.2 ⟨hne, hi.nodup⟩)
    · by_cases hdc : d = c
      · subst hdc; simp
      · have hd' : d ∈ s.sleepCors ++ s.tasks := by simpa [hdc] using hd
        simpa [hdc] using hi.waits d hd'
    · by_cases hdc : d = c
      · subst hdc; simp
      · simpa [hdc] using hi.once d
  | unlockClear c hc hf =>
    exact ⟨hi.nodup, hi.waits, hi.awake, hi.once, fun h => by simp [hf] at h⟩
  | unlockEmpty c hc hf hq =>
    exact ⟨hi.nodup, hi.waits, hi.awake, hi.once, nofun⟩
  | unlockPost c d rest hc hf hq =>
    -- the front waiter moves from the queue to the posted tasks
    have hp : (s.sleepCors ++ s.tasks).Perm (rest ++ (s.tasks ++ [d])) := by
      rw [hq, List.cons_append, ← List.append_assoc]
      exact (List.perm_append_singleton _ _).symm
    exact ⟨hp.nodup_iff.1 hi.nodup, fun e he => hi.waits e (hp.mem_iff.2 he), hi.awake, hi.once, nofun⟩
  | runTask c hc hm =>
    have hw := hi.waits c (List.mem_append_right _ hm)
    have hnd := List.nodup_append.1 hi.nodup
    have hdc : ∀ d ∈ s.sleepCors ++ s.tasks.erase c, d ≠ c ∧ d ∈ s.sleepCors ++ s.tasks := by
      intro d hd
      rcases List.mem_append.1 hd with hd | hd
      · exact ⟨hnd.2.2 d hd c hm, List.mem_append_left _ hd⟩
      · have := hnd.2.1.mem_erase_iff.1 hd
        exact ⟨this.1, List.mem_append_right _ this.2⟩
    refine ⟨hi.nodup.sublist (List.Sublist.append_left List.erase_sublist _), fun d hd => ?_,
      fun d hd => ?_, fun d => ?_, fun hf => ?_⟩
    · obtain ⟨hne, hd'⟩ := hdc d hd
      simpa [runTask, hne] using hi.waits d hd'
    · cases hd; simp [runTask]
    · by_cases hd : d = c
      · subst hd; simp [runTask, hw.2]
      · simpa [runTask, hd] using hi.once d
    · obtain ⟨d, hd⟩ := hi.flag hf
      refine ⟨d, ?_⟩
      by_cases hdc : d = c
      · subst hdc; simp [runTask, hw.1]
      · simp [runTask, hw.1, hdc, hd]

theorem bracketedStep_inv (s : State Cor) (a : Act Cor) (s' : State Cor) (hi : Inv s)
    (h : bracketedStep s a = some s') : Inv s' :=
  step_inv s a s' hi (bracketedStep_eq h).2

/-! ## Mutual exclusion -/

/-- At most one coroutine has returned from `lock` without having called `unlock` since. -/
def Exclusive (s : State Cor) : Prop := ∀ c d, s.owns c = true → s.owns d = true → c = d

/-- `lock` is not called with the flag clear while a hand-off is outstanding: a posted Resume task
that has not run, or a coroutine that still owns the mutex. -/
def NoBarging (s : State Cor) (a : Act Cor) : Prop :=
  a = .lock → s.cur ≠ none → s.lockFlag = true ∨ (s.tasks = [] ∧ ∀ c, s.owns c = false)

/-- What `NoBarging` maintains: one owner or one Resume task on its way, never both. -/
structure OneOwner (s : State Cor) : Prop where
  inv : Inv s
  excl : Exclusive s
  handed : s.tasks ≠ [] → ∀ c, s.owns c = false
  single : s.tasks.length ≤ 1

theorem oneOwner_step (s : State Cor) (a : Act Cor) (s' : State Cor) (ho : OneOwner s)
    (hg : NoBarging s a) (h : bracketedStep s a = some s') : OneOwner s' := by
  have hi := bracketedStep_inv s a s' ho.inv h
  obtain ⟨hb, h⟩ := bracketedStep_eq h
  cases step_cases h with
  | resume | yield | main => exact ⟨hi, ho.excl, ho.handed, ho.single⟩
  | lockSleep => exact ⟨hi, ho.excl, ho.handed, ho.single⟩
  | lockFree c hc hf =>
    -- the flag is clear, so the guard says that nobody owns the mutex and nothing is posted
    obtain ⟨ht, hn⟩ := (hg rfl (by simp [hc])).resolve_left (by simp [hf])
    have hown : ∀ d, update s.owns c true d = true → d = c := by
      intro d hd
      by_contra hne
      simp [hne, hn] at hd
    exact ⟨hi, fun d e hd he => (hown d hd).trans (hown e he).symm, fun h => absurd ht h, ho.single⟩
  | unlockClear c hc hf | unlockEmpty c hc hf hq =>
    have hown : ∀ d, update s.owns c false d = true → s.owns d = true := by
      intro d hd
      by_cases hdc : d = c
      · subst hdc; simp at hd
      · simpa [hdc] using hd
    refine ⟨hi, fun d e hd he => ho.excl d e (hown d hd) (hown e he), fun ht d => ?_, ho.single⟩
    exact Bool.eq_false_iff.2 fun hd => by simpa [ho.handed ht d] using hown d hd
  | unlockPost c d rest hc hf hq =>
    -- the caller was the only owner, so after it only the posted waiter is left
    have hc' : s.owns c = true := by simpa [bracketed, hc] using hb
    have ht : s.tasks = [] := by
      by_contra hne
      simp [ho.handed hne c] at hc'
    have hown : ∀ e, update s.owns c false e = false := by
      intro e
      by_cases hec : e = c
      · subst hec; simp
      · simp only [update_of_ne hec]
        exact Bool.eq_false_iff.2 fun he => hec (ho.excl e c he hc')
    exact ⟨hi, fun e _ he => by simp [hown e] at he, fun _ => hown, by simp [ht]⟩
  | runTask c hc hm =>
    have hn := ho.handed (List.ne_nil_of_mem hm)
    have ht : s.tasks = [c] := by
      obtain ⟨d, hd⟩ := List.length_eq_one_iff.1 (Nat.le_antisymm ho.single (List.length_pos_of_mem hm))
      rw [hd] at hm ⊢
      rw [List.mem_singleton.1 hm]
    have hown : ∀ d, (runTask s c).owns d = true → d = c := by
      intro d hd
      by_contra hne
      simp only [runTask] at hd
      split at hd <;> simp [hne, hn] at hd
    refine ⟨hi, fun d e hd he => (hown d hd).trans (hown e he).symm, fun h => ?_, by simp [runTask, ht]⟩
    simp [runTask, ht] at h

/-- Mutual exclusion holds all along a run in which no `lock` takes the flag while a hand-off is
outstanding. -/
theorem exclusive_of_noBarging (as : List (Act Cor))
    (h : Lts.Along bracketedStep NoBarging (init : State Cor) as) :
    Lts.Always bracketedStep Exclusive (init : State Cor) as :=
  (Lts.always_of_along oneOwner_step
    ⟨init_inv, by simp [Exclusive, init], by simp [init], by simp [init]⟩ h).imp fun _ ho => ho.excl

/-- Two coroutines contend and hand the mutex over once, with no third one barging in. -/
def handOver : List (Act (Fin 2)) :=
  [.resume 0, .lock, .yield, .resume 1, .lock, .resume 0, .unlock, .yield, .runTask 1, .unlock]

instance (s : State (Fin 2)) (a : Act (Fin 2)) : Decidable (NoBarging s a) := by
  unfold NoBarging; infer_instance

theorem exclusive_handOver : Lts.Always bracketedStep Exclusive (init : State (Fin 2)) handOver :=
  exclusive_of_noBarging handOver (by decide)

/-- A run in which coroutine 2 takes the flag between the `unlock` of coroutine 0 and the Resume of
the waiter, coroutine 1. -/
def barge : List (Act Nat) :=
  [.resume 0, .lock, .yield, .resume 1, .lock, .resume 0, .unlock, .yield, .resume 2, .lock, .yield,
    .runTask 1]

theorem not_exclusive_barge : ¬ Lts.Always bracketedStep Exclusive (init : State Nat) barge := by
  intro h
  have hx : Exclusive _ := h.last rfl
  exact absurd (hx 1 2 rfl rfl) (by decide)

/-- The guard is sharp: from a reachable state, a `lock` that violates it leads, at once or after
the posted task has run, to two owners. -/
theorem barging_breaks {s : State Cor} (hr : Lts.Reachable bracketedStep init s) {c : Cor}
    (hc : s.cur = some c) (hn : s.owns c = false) (hg : ¬ NoBarging s .lock) :
    ∃ as s', Lts.run bracketedStep s as = some s' ∧ ¬ Exclusive s' := by
  have hi := hr.invariant init_inv bracketedStep_inv
  simp only [NoBarging, forall_const, hc, ne_eq, reduceCtorEq, not_false_eq_true, not_or, not_and,
    Bool.not_eq_true] at hg
  obtain ⟨hf, hg⟩ := hg
  have hlock : bracketedStep s .lock =
      some { s with lockFlag := true, owns := update s.owns c true, woken := update s.woken c 0 } := by
    simp [bracketedStep, bracketed, step, lock, hc, hf, hn]
  cases ht : s.tasks with
  | nil =>
    -- somebody owns the mutex while the flag is clear
    obtain ⟨d, hd⟩ : ∃ d, s.owns d = true := by
      by_contra hno
      exact hg ht fun d => Bool.eq_false_iff.2 fun hd => hno ⟨d, hd⟩
    have hdc : d ≠ c := fun e => by rw [e, hn] at hd; cases hd
    refine ⟨[.lock], _, by rw [Lts.run_cons, hlock]; rfl, fun hx => hdc ?_⟩
    exact hx d c (by simp [hdc, hd]) (by simp)
  | cons d rest =>
    -- the caller yields inside its critical section and the posted waiter returns from `lock`
    have hm : d ∈ s.sleepCors ++ s.tasks := by simp [ht]
    have hw := (hi.waits d hm).1
    have hdc : d ≠ c := fun e => hi.running hc (e ▸ hm)
    refine ⟨[.lock, .yield, .runTask d], runTask { s with
        cur := none, lockFlag := true, owns := update s.owns c true, woken := update s.woken c 0 } d,
      ?_, fun hx => hdc (hx d c ?_ ?_)⟩
    · rw [Lts.run_cons, hlock]
      simp [bracketedStep, bracketed, step, hc, ht]
    · simp [runTask, hw]
    · simp [runTask, hw, hdc.symm]

/-! ## Stranded waiters -/

/-- With no owner and nothing posted, nobody is left in the queue. -/
def StrandsNobody (s : State Cor) : Prop :=
  (∀ c, s.owns c = false) → s.tasks = [] → s.sleepCors = []

/-- No coroutine was resumed more than once since it last called `lock`. -/
def ResumedOnce (s : State Cor) : Prop := ∀ c, s.woken c ≤ 1

/-- `unlock` is not called with the flag clear by the last owner, with nothing posted, while others
are queued. -/
def UnlockServes (s : State Cor) (a : Act Cor) : Prop :=
  a = .unlock → ∀ c, s.cur = some c →
    s.lockFlag = true ∨ s.sleepCors = [] ∨ s.tasks ≠ [] ∨ ∃ d, d ≠ c ∧ s.owns d = true

theorem strandsNobody_step (s : State Cor) (a : Act Cor) (s' : State Cor) (hi : Inv s)
    (hp : StrandsNobody s) (h : step s a = some s') : StrandsNobody s' ↔ UnlockServes s a := by
  cases step_cases h with
  | resume c hc ha => exact ⟨fun _ => nofun, fun _ => hp⟩
  | yield => exact ⟨fun _ => nofun, fun _ => hp⟩
  | main _ hc ha => exact ⟨fun _ _ c hc' => by simp [hc] at hc', fun _ => hp⟩
  | lockFree c hc hf => exact ⟨fun _ => nofun, fun _ hn => absurd (hn c) (by simp)⟩
  | lockSleep c hc hf =>
    -- a set flag has an owner
    obtain ⟨d, hd⟩ := hi.flag hf
    exact ⟨fun _ => nofun, fun _ hn => absurd (hd.symm.trans (hn d)) (by decide)⟩
  | unlockClear c hc hf =>
    constructor
    · intro hs _ e he
      obtain rfl : c = e := by rw [hc] at he; exact Option.some.inj he
      by_cases hn : ∃ d, d ≠ c ∧ s.owns d = true
      · exact .inr (.inr (.inr hn))
      · by_cases ht : s.tasks = []
        · refine .inr (.inl (hs (fun d => ?_) ht))
          by_cases hdc : d = c
          · subst hdc; simp
          · simp only [update_of_ne hdc]
            exact Bool.eq_false_iff.2 fun hd => hn ⟨d, hdc, hd⟩
        · exact .inr (.inr (.inl ht))
    · intro hg hn ht
      rcases hg rfl c hc with h1 | h1 | h1 | ⟨d, hdc, hd⟩
      · simp [hf] at h1
      · exact h1
      · exact absurd ht h1
      · have := hn d
        simp [hdc, hd] at this
  | unlockEmpty c hc hf hq => exact ⟨fun _ _ _ _ => .inl hf, fun _ _ _ => hq⟩
  | unlockPost c d rest hc hf hq =>
    exact ⟨fun _ _ _ _ => .inl hf, fun _ _ ht => absurd ht (by simp)⟩
  | runTask c hc hm =>
    have hw := (hi.waits c (List.mem_append_right _ hm)).1
    exact ⟨fun _ => nofun, fun _ hn => absurd (hn c) (by simp [runTask, hw])⟩

/-- A run strands nobody, in any state, exactly when no `unlock` on the way is called by the last
owner with the flag clear, nothing posted and others queued; and nobody is ever resumed twice in
one `lock`. -/
theorem strands_nobody_iff (as : List (Act Cor)) :
    Lts.Always step (fun s => StrandsNobody s ∧ ResumedOnce s) (init : State Cor) as ↔
      Lts.Along step UnlockServes (init : State Cor) as := by
  refine Lts.always_iff_along step_inv (fun s a s' hi hp h => ?_) init_inv
    ⟨by simp [StrandsNobody, init], init_inv.once⟩
  rw [← strandsNobody_step s a s' hi hp.1 h]
  exact and_iff_left (step_inv s a s' hi h).once

/-- Coroutines 1 and 2 wait for coroutine 0; coroutine 1 is handed the mutex and unlocks it. -/
def strand : List (Act (Fin 3)) :=
  [.resume 0, .lock, .yield, .resume 1, .lock, .resume 2, .lock, .resume 0, .unlock, .yield,
    .runTask 1, .unlock]

theorem not_strandsNobody_strand :
    ¬ Lts.Always step (fun s => StrandsNobody s ∧ ResumedOnce s) (init : State (Fin 3)) strand := by
  intro h
  have hs : StrandsNobody _ := (h.last rfl).1
  -- coroutine 2 is still queued
  have : ([2] : List (Fin 3)) = [] := hs (by decide) rfl
  cases this

end Flconc.CoroutineMutex
