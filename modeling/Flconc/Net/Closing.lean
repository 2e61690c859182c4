/-
The two ways a server connection of net/tcp/tcp_connection.cc is closed: `shutdownConnection`, which the
time wheel runs on the main thread, and `clearClient`, which `input` runs on the IO thread of the
connection. Every access to `m_state` is locked, but what a thread has read may be out of date when
it acts on it.

Closed is final, and nothing is shut down behind its back, when the main thread is not between its test and
its `shutdown` while the IO thread closes the descriptor, and does not test between the `close` and
the state that says so.
-/
import Flconc.Lib.Run
import Flconc.Net.Output

namespace Flconc.Closing

/-! ## The model -/

/-- Where the main thread is in `shutdownConnection`, if it is in there. -/
inductive Main
  | idle
  /-- Behind the test of the state. -/
  | checked
  /-- Behind `setState(HalfClosing)`. -/
  | marked
  deriving DecidableEq

/-- Where the IO thread is in `clearClient`, if it is in there. -/
inductive Io
  | idle
  /-- Behind the test of the state. -/
  | checked
  | unregistered
  /-- Behind `close`. -/
  | closed
  deriving DecidableEq

/-- A `TcpConnection` of the server and the two threads; whether its state has been Closed, and whether
`shutdown` has been called on a descriptor it had closed. -/
structure Conn where
  state : TcpConnectionState := .Connected
  registered : Bool := true
  stop : Bool := false
  fdOpen : Bool := true
  main : Main := .idle
  io : Io := .idle
  wasClosed : Bool := false
  shutAfterClose : Bool := false
  deriving DecidableEq

inductive Act
  /-- `shutdownConnection` is called and gets the state. -/
  | shutdownConnection
  | setHalfClosing
  | shutdown
  /-- `clearClient` is called and gets the state. -/
  | clearClient
  | unregister
  | close
  | setClosed
  deriving DecidableEq

def step (c : Conn) : Act → Option Conn
  | .shutdownConnection =>
    if c.main = .idle then
      if c.state = .Closed ∨ c.state = .NotConnected then some c else some { c with main := .checked }
    else none
  | .setHalfClosing => if c.main = .checked then some { c with state := .HalfClosing, main := .marked } else none
  | .shutdown =>
    if c.main = .marked then some { c with main := .idle, shutAfterClose := c.shutAfterClose || !c.fdOpen } else none
  | .clearClient =>
    if c.io = .idle then
      if c.state = .Closed then some c else some { c with io := .checked }
    else none
  | .unregister =>
    if c.io = .checked then some { c with registered := false, stop := true, io := .unregistered } else none
  | .close => if c.io = .unregistered then some { c with fdOpen := false, io := .closed } else none
  | .setClosed =>
    if c.io = .closed then some { c with state := .Closed, wasClosed := true, io := .idle } else none

/-- `ClearClientTimerFunc` of the server, at the entry of this connection. -/
def clearClientTimerFunc (c : Conn) : Option Conn := if c.state = .Closed then none else some c

/-- Closed is the last state, the descriptor is not shut down behind the `close`, and a connection at rest
that has closed its descriptor is removed. -/
structure ClosedIsFinal (c : Conn) : Prop where
  final : c.wasClosed = true → c.state = .Closed
  shutdown : c.shutAfterClose = false
  rest : c.main = .idle → c.io = .idle → c.fdOpen = false → c.state = .Closed ∧ clearClientTimerFunc c = none

/-- The main thread is not in `shutdownConnection` at the `close`, and does not call it between the `close`
and `setState(Closed)`. -/
def Apart (c : Conn) : Act → Prop
  | .shutdownConnection => c.io ≠ .closed
  | .close => c.main = .idle
  | _ => True

instance (c : Conn) (a : Act) : Decidable (Apart c a) := by
  unfold Apart
  split <;> infer_instance

/-! ## What a step does -/

/-- The steps by what they find. -/
inductive Step (c : Conn) : Act → Conn → Prop
  | refuse : c.main = .idle → c.state = .Closed ∨ c.state = .NotConnected → Step c .shutdownConnection c
  | check : c.main = .idle → c.state ≠ .Closed → Step c .shutdownConnection { c with main := .checked }
  | setHalfClosing : c.main = .checked → Step c .setHalfClosing { c with state := .HalfClosing, main := .marked }
  | shutdown : c.main = .marked →
      Step c .shutdown { c with main := .idle, shutAfterClose := c.shutAfterClose || !c.fdOpen }
  | closedAlready : c.io = .idle → c.state = .Closed → Step c .clearClient c
  | clear : c.io = .idle → c.state ≠ .Closed → Step c .clearClient { c with io := .checked }
  | unregister : c.io = .checked → Step c .unregister { c with registered := false, stop := true, io := .unregistered }
  | close : c.io = .unregistered → Step c .close { c with fdOpen := false, io := .closed }
  | setClosed : c.io = .closed → Step c .setClosed { c with state := .Closed, wasClosed := true, io := .idle }

theorem step_spec {c c' : Conn} {a : Act} (h : step c a = some c') : Step c a c' := by
  cases a with
  | shutdownConnection =>
    simp only [step] at h
    split at h
    · rename_i hidle
      split at h
      · rename_i hs
        cases h
        exact .refuse hidle hs
      · rename_i hs
        cases h
        exact .check hidle fun hc => hs (.inl hc)
    · cases h
  | clearClient =>
    simp only [step] at h
    split at h
    · rename_i hidle
      split at h
      · rename_i hs
        cases h
        exact .closedAlready hidle hs
      · rename_i hs
        cases h
        exact .clear hidle hs
    · cases h
  | _ =>
    simp only [step] at h
    split at h
    · rename_i hpc
      cases h
      constructor
      exact hpc
    · cases h

/-! ## Apart -/

/-- While the two threads keep apart. -/
structure KeptApart (c : Conn) : Prop where
  main : c.fdOpen = false → c.main = .idle
  said : c.fdOpen = false → c.io = .closed ∨ c.state = .Closed
  final : c.wasClosed = true → c.state = .Closed ∧ c.fdOpen = false
  behind : c.io = .closed → c.fdOpen = false
  shutdown : c.shutAfterClose = false

theorem KeptApart.closedIsFinal {c : Conn} (h : KeptApart c) : ClosedIsFinal c := by
  refine ⟨fun hw => (h.final hw).1, h.shutdown, fun hmain hio hfd => ?_⟩
  have hs : c.state = .Closed := (h.said hfd).resolve_left (by rw [hio]; nofun)
  exact ⟨hs, if_pos hs⟩

theorem step_keptApart {c c' : Conn} {a : Act} (hi : KeptApart c) (hg : Apart c a) (h : step c a = some c') :
    KeptApart c' := by
  obtain ⟨hmain, hsaid, hfinal, hbehind, hshut⟩ := hi
  cases step_spec h with
  | refuse | closedAlready => exact ⟨hmain, hsaid, hfinal, hbehind, hshut⟩
  | check hidle hs =>
    -- the descriptor is still open
    have hopen : c.fdOpen ≠ false := fun hfd => hs ((hsaid hfd).resolve_left hg)
    exact ⟨fun hfd => absurd hfd hopen, hsaid, hfinal, hbehind, hshut⟩
  | setHalfClosing hpc =>
    have hopen : c.fdOpen ≠ false := fun hfd => by
      have := hmain hfd
      rw [hpc] at this
      cases this
    exact ⟨fun hfd => absurd hfd hopen, fun hfd => absurd hfd hopen, fun hw => absurd (hfinal hw).2 hopen,
      hbehind, hshut⟩
  | shutdown hpc =>
    have hopen : c.fdOpen = true := by
      by_contra hfd
      have := hmain (Bool.eq_false_of_not_eq_true hfd)
      rw [hpc] at this
      cases this
    refine ⟨fun _ => rfl, hsaid, hfinal, hbehind, ?_⟩
    show (c.shutAfterClose || !c.fdOpen) = false
    rw [hshut, hopen]
    rfl
  | clear hidle hs =>
    refine ⟨hmain, fun hfd => ?_, hfinal, nofun, hshut⟩
    rcases hsaid hfd with hio | hc
    · rw [hidle] at hio
      cases hio
    · exact absurd hc hs
  | unregister hpc =>
    refine ⟨hmain, fun hfd => ?_, hfinal, nofun, hshut⟩
    refine .inr ((hsaid hfd).resolve_left ?_)
    rw [hpc]
    nofun
  | close hpc => exact ⟨fun _ => hg, fun _ => .inl rfl, fun hw => ⟨(hfinal hw).1, rfl⟩, fun _ => rfl, hshut⟩
  | setClosed hpc => exact ⟨hmain, fun _ => .inr rfl, fun _ => ⟨rfl, hbehind hpc⟩, nofun, hshut⟩

/-! ## Together -/

/-- In every run: `clearClient` goes on from its test in a state that is not Closed. -/
structure Clears (c : Conn) : Prop where
  connected : c.state ≠ .NotConnected
  notClosed : c.io ≠ .idle → c.state ≠ .Closed
  behind : c.io = .closed → c.fdOpen = false

theorem step_clears {c c' : Conn} {a : Act} (hi : Clears c) (h : step c a = some c') : Clears c' := by
  obtain ⟨hconn, hopen, hbehind⟩ := hi
  cases step_spec h with
  | refuse | closedAlready | check => exact ⟨hconn, hopen, hbehind⟩
  | setHalfClosing => exact ⟨nofun, fun _ => nofun, hbehind⟩
  | shutdown => exact ⟨hconn, hopen, hbehind⟩
  | clear hidle hs => exact ⟨hconn, fun _ => hs, nofun⟩
  | unregister hpc => exact ⟨hconn, fun _ => hopen (by rw [hpc]; nofun), nofun⟩
  | close hpc => exact ⟨hconn, fun _ => hopen (by rw [hpc]; nofun), fun _ => rfl⟩
  | setClosed => exact ⟨nofun, fun hio => absurd rfl hio, nofun⟩

/-- The main thread is about to shut down the closed descriptor, or has done it. -/
def Doomed (c : Conn) : Prop := c.fdOpen = false ∧ c.main ≠ .idle ∨ c.shutAfterClose = true

theorem step_doomed {c c' : Conn} {a : Act} (hd : Doomed c) (h : step c a = some c') : Doomed c' := by
  rcases hd with ⟨hfd, hmain⟩ | hshut
  · cases step_spec h with
    | refuse hidle | check hidle => exact absurd hidle hmain
    | setHalfClosing => exact .inl ⟨hfd, nofun⟩
    | shutdown =>
      refine .inr ?_
      show (c.shutAfterClose || !c.fdOpen) = true
      rw [hfd, Bool.not_false, Bool.or_true]
    | closedAlready | clear | unregister | setClosed => exact .inl ⟨hfd, hmain⟩
    | close => exact .inl ⟨rfl, hmain⟩
  · refine .inr ?_
    cases step_spec h with
    | shutdown =>
      show (c.shutAfterClose || !c.fdOpen) = true
      rw [hshut, Bool.true_or]
    | _ => exact hshut

/-- A step that is not apart leads to a shutdown of the closed descriptor. -/
theorem doomed_of_not_apart {c c' : Conn} {a : Act} (hi : Clears c) (hg : ¬ Apart c a) (h : step c a = some c') :
    Doomed c' := by
  cases step_spec h with
  | refuse hidle hs =>
    have hio : c.io = .closed := not_not.1 hg
    have hopen := hi.notClosed (by rw [hio]; nofun)
    exact absurd (hs.resolve_left hopen) hi.connected
  | check hidle hs => exact .inl ⟨hi.behind (not_not.1 hg), nofun⟩
  | close => exact .inl ⟨rfl, hg⟩
  | _ => exact absurd trivial hg

/-- A run whose main thread is done at the end, and has shut down nothing that was closed, kept apart. -/
theorem along_apart : ∀ {as : List Act} {c c' : Conn}, Clears c → Lts.run step c as = some c' → ¬ Doomed c' →
    Lts.Along step Apart c as
  | [], _, _, _, _, _ => trivial
  | a :: as, c, c', hi, hrun, hd => by
    intro c₁ h₁
    rw [Lts.run_cons, h₁, Option.bind_some] at hrun
    refine ⟨?_, along_apart (step_clears hi h₁) hrun hd⟩
    by_contra hg
    exact hd (Lts.run_invariant (fun _ _ _ => step_doomed) (doomed_of_not_apart hi hg h₁) hrun)

/-! ## Every interleaving -/

/-- Closed is final in every interleaving that keeps the two threads apart, and in no other one in which the
main thread finishes. -/
theorem closedIsFinal_iff (as : List Act) :
    (Lts.Along step Apart {} as → Lts.Always step ClosedIsFinal {} as) ∧
    ∀ c, Lts.run step {} as = some c → c.main = .idle →
      Lts.Always step ClosedIsFinal {} as → Lts.Along step Apart {} as := by
  constructor
  · intro h
    have hstart : KeptApart {} := ⟨nofun, nofun, nofun, nofun, rfl⟩
    exact (Lts.always_of_along (fun _ _ _ => step_keptApart) hstart h).imp fun _ => KeptApart.closedIsFinal
  · intro c hrun hidle h
    refine along_apart ⟨nofun, fun hio => absurd rfl hio, nofun⟩ hrun ?_
    rintro (⟨-, hmain⟩ | hshut)
    · exact hmain hidle
    · rw [(h.last hrun).shutdown] at hshut
      cases hshut

/-- The peer closes between the test of the time wheel's `shutdownConnection` and what it does. -/
theorem not_closedIsFinal_evicted : ¬ ∀ as, Lts.Always step ClosedIsFinal {} as := by
  intro h
  obtain ⟨c, hc, hstate, hfd, hmain, hio⟩ : ∃ c, Lts.run step {} [.shutdownConnection, .clearClient, .unregister,
      .close, .setClosed, .setHalfClosing, .shutdown] = some c ∧ c.state = .HalfClosing ∧ c.fdOpen = false ∧
      c.main = .idle ∧ c.io = .idle := ⟨_, rfl, rfl, rfl, rfl, rfl⟩
  have hs := (((h _).last hc).rest hmain hio hfd).1
  rw [hstate] at hs
  cases hs

end Flconc.Closing
