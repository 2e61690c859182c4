/-
`MySQLInstase` of comm/mysql_instase.cc. What the client library and the server do comes as the
fates of the library calls: a statement is executed or not, a reconnect gives a new session or not.
A statement on a handler that is not connected is not executed.
-/
import Flconc.Lib.Run
import Flconc.Lib.Wire

namespace Flconc.MySQL

open Wire

/-! ## The model -/

/-- What comes of `mysql_real_query`. -/
inductive Outcome
  /-- It returns 0. -/
  | executed
  /-- CR_SERVER_GONE_ERROR or CR_SERVER_LOST. -/
  | lost
  /-- Any other error. -/
  | failed
  deriving DecidableEq

/-- What comes of `reconnect`. -/
inductive Connect
  /-- `mysql_init` returns NULL. -/
  | noHandler
  /-- `mysql_real_connect` fails. -/
  | refused
  | connected
  deriving DecidableEq

inductive Call
  | begin
  | query (sql : String)
  | commit
  | rollBack
  deriving DecidableEq

def Call.sql : Call → String
  | .begin => "BEGIN;"
  | .query sql => sql
  | .commit => "COMMIT;"
  | .rollBack => "ROLLBACK;"

/-- What comes of the library calls a `query` makes, as far as it makes them. -/
structure Fate where
  /-- The reconnect of a query that finds no handler. -/
  firstConnect : Connect
  first : Outcome
  reconnect : Connect
  retry : Outcome
  deriving DecidableEq

/-- A call that has returned, with the session on which the server executed its statement. -/
structure Entry where
  call : Call
  rt : Int
  session : Option Nat
  deriving DecidableEq

structure MySQLInstase where
  initSucc : Bool := false
  inTrans : Bool := false
  /-- `m_sql_handler`: NULL, not connected, or connected with a session. -/
  sqlHandler : Option (Option Nat) := none
  /-- The number of the next session. -/
  next : Nat := 0
  deriving DecidableEq

def reconnect (m : MySQLInstase) : Connect → Int × MySQLInstase
  | .noHandler => (-1, { m with sqlHandler := none })
  | .refused => (-1, { m with sqlHandler := some none })
  | .connected => (0, { m with sqlHandler := some (some m.next), next := m.next + 1 })

/-- `MySQLInstase(option)`. -/
def new (c : Connect) : MySQLInstase :=
  let (ret, m) := reconnect {} c
  if ret ≠ 0 then m else { m with initSucc := true }

/-- `mysql_real_query`: the outcome, and the session it is executed on. -/
def realQuery (handler : Option Nat) (o : Outcome) : Outcome × Option Nat :=
  match handler, o with
  | some sid, .executed => (.executed, some sid)
  | none, .executed => (.lost, none)
  | _, o => (o, none)

def Outcome.rt : Outcome → Int
  | .executed => 0
  | _ => 1

/-- The statement on a handler, in `query`: a call on NULL faults. -/
def execute (m : MySQLInstase) (handler : Option Nat) (fate : Fate) :
    Except Fault (Int × Option Nat × MySQLInstase) :=
  match realQuery handler fate.first with
  | (.executed, session) => .ok (0, session, m)
  | (.failed, session) => .ok (1, session, m)
  | (.lost, session) =>
    let (rt, m) := reconnect m fate.reconnect
    -- a reconnect that works leaves its own 0 to be returned
    if rt ≠ 0 ∧ ¬ m.inTrans then
      match m.sqlHandler with
      | none => .error .memory
      | some handler =>
        let (o, session) := realQuery handler fate.retry
        .ok (o.rt, session, m)
    else .ok (rt, session, m)

/-- `query`; the statement's text does not matter to it. -/
def query (m : MySQLInstase) (fate : Fate) : Except Fault (Int × Option Nat × MySQLInstase) :=
  if ¬ m.initSucc then .ok (-1, none, m)
  else
    let m := match m.sqlHandler with
      | none => (reconnect m fate.firstConnect).2
      | some _ => m
    match m.sqlHandler with
    | none => .ok (-1, none, m)
    | some handler => execute m handler fate

/-- What `begin`, `commit` and `rollBack` do when their statement has returned. -/
def Call.after (m : MySQLInstase) (rt : Int) : Call → MySQLInstase
  | .begin => if rt = 0 then { m with inTrans := true } else m
  | .query _ => m
  | .commit | .rollBack => if rt = 0 then { m with inTrans := false } else m

structure State where
  instase : MySQLInstase
  /-- The calls that have returned, the last one first. -/
  history : List Entry := []
  /-- A call has faulted. -/
  dead : Bool := false
  deriving DecidableEq

def step (s : State) : Call × Fate → Option State
  | (call, fate) =>
    if s.dead then none
    else
      match query s.instase fate with
      | .error _ => some { s with dead := true }
      | .ok (rt, session, m) =>
        some { s with instase := call.after m rt, history := ⟨call, rt, session⟩ :: s.history }

/-! ## Success and work done -/

/-- A call that has returned 0 was executed, and a transaction whose calls have all returned 0 was
executed on one session. -/
structure Honest (s : State) : Prop where
  executed : ∀ e ∈ s.history, e.rt = 0 → e.session ≠ none
  transaction : ∀ after c statements b before, s.history = after ++ c :: (statements ++ b :: before) →
    b.call = .begin → c.call = .commit → (∀ e ∈ c :: (statements ++ [b]), e.rt = 0) →
    ∃ sid, ∀ e ∈ c :: (statements ++ [b]), e.session = some sid

/-- The handler a query uses, after its first reconnect. -/
def handlerOf (m : MySQLInstase) (fate : Fate) : Option (Option Nat) :=
  match m.sqlHandler with
  | none => (reconnect m fate.firstConnect).2.sqlHandler
  | some handler => some handler

/-- The connection is lost at the statement, and the reconnect works. -/
def LostAndBack (m : MySQLInstase) (fate : Fate) : Prop :=
  m.initSucc ∧ (∃ handler, handlerOf m fate = some handler ∧ (realQuery handler fate.first).1 = .lost) ∧
    fate.reconnect = .connected

/-- What an `ok` query gives, by what came of it. -/
structure Answered (m : MySQLInstase) (rt : Int) (session : Option Nat) (m' : MySQLInstase) : Prop where
  /-- Success is an execution on the session the handler has then. -/
  executed : rt = 0 → ∃ sid, session = some sid ∧ m'.sqlHandler = some (some sid)
  /-- A handler that was there is the same after a success. -/
  same : rt = 0 → ∀ handler, m.sqlHandler = some handler → m'.sqlHandler = some handler
  /-- No handler is left only by a failure. -/
  none : m'.sqlHandler = none → rt ≠ 0

theorem realQuery_executed {handler : Option Nat} {o : Outcome} {session : Option Nat}
    (h : realQuery handler o = (.executed, session)) : ∃ sid, session = some sid ∧ handler = some sid := by
  cases handler <;> cases o <;> cases h
  exact ⟨_, rfl, rfl⟩

theorem realQuery_session {handler : Option Nat} {o o' : Outcome} {session : Option Nat}
    (h : realQuery handler o = (o', session)) (ho : o' ≠ .executed) : session = none := by
  cases handler <;> cases o <;> cases h <;> first | rfl | exact absurd rfl ho

/-- Without a handler nothing is executed. -/
theorem realQuery_disconnected (o : Outcome) : (realQuery none o).1 ≠ .executed := by
  cases o <;> decide

theorem rt_ne_zero {o : Outcome} (h : o ≠ .executed) : o.rt ≠ 0 := by
  cases o
  · exact absurd rfl h
  · decide
  · decide

/-- A reconnect that fails leaves no session. -/
theorem reconnect_failed {m : MySQLInstase} {c : Connect} (h : c ≠ .connected) :
    (reconnect m c).1 = -1 ∧ ((reconnect m c).2.sqlHandler = none ∨ (reconnect m c).2.sqlHandler = some none) := by
  cases c
  · exact ⟨rfl, .inl rfl⟩
  · exact ⟨rfl, .inr rfl⟩
  · exact absurd rfl h

/-- The statement on a handler. -/
theorem execute_cases {m : MySQLInstase} {handler : Option Nat} (hm : m.sqlHandler = some handler) (fate : Fate) :
    ((realQuery handler fate.first).1 = .lost ∧ fate.reconnect = .connected ∧
      ∃ m', execute m handler fate = .ok (0, none, m') ∧ m'.sqlHandler ≠ none) ∨
    (¬ ((realQuery handler fate.first).1 = .lost ∧ fate.reconnect = .connected) ∧
      ∀ rt session m', execute m handler fate = .ok (rt, session, m') → Answered m rt session m') := by
  unfold execute
  match hq : realQuery handler fate.first with
  | (.executed, session) =>
    refine .inr ⟨fun h => Outcome.noConfusion h.1, fun rt session' m' h => ?_⟩
    cases h
    obtain ⟨sid, rfl, rfl⟩ := realQuery_executed hq
    exact ⟨fun _ => ⟨sid, rfl, hm⟩, fun _ _ h => h, fun h => by rw [hm] at h; cases h⟩
  | (.failed, session) =>
    refine .inr ⟨fun h => Outcome.noConfusion h.1, fun rt session' m' h => ?_⟩
    cases h
    exact ⟨nofun, nofun, fun _ => by decide⟩
  | (.lost, session) =>
    obtain rfl := realQuery_session hq nofun
    by_cases hc : fate.reconnect = .connected
    · refine .inl ⟨rfl, hc, ?_⟩
      rw [hc]
      exact ⟨_, rfl, nofun⟩
    · refine .inr ⟨fun h => hc h.2, fun rt session m' h => ?_⟩
      obtain ⟨hret, hhandler⟩ := reconnect_failed (m := m) hc
      dsimp only at h
      rw [hret] at h
      -- the statement is tried again where the reconnect has failed
      split at h
      · split at h
        · cases h
        · rename_i handler' hh
          rw [hh] at hhandler
          obtain rfl : handler' = none := by
            rcases hhandler with h | h
            · cases h
            · exact Option.some.inj h
          cases h
          have hrt := rt_ne_zero (realQuery_disconnected fate.retry)
          exact ⟨fun h => absurd h hrt, fun h => absurd h hrt, fun _ => hrt⟩
      · cases h
        exact ⟨nofun, nofun, fun _ => by decide⟩

/-- A query reports success for nothing exactly when its connection is lost and comes back. -/
theorem query_cases (m : MySQLInstase) (fate : Fate) :
    (LostAndBack m fate ∧ ∃ m', query m fate = .ok (0, none, m') ∧ m'.sqlHandler ≠ none) ∨
    (¬ LostAndBack m fate ∧ ∀ rt session m', query m fate = .ok (rt, session, m') → Answered m rt session m') := by
  unfold query
  split
  · rename_i hinit
    refine .inr ⟨fun h => hinit h.1, fun rt session m' h => ?_⟩
    cases h
    exact ⟨nofun, nofun, fun _ => by decide⟩
  · rename_i hinit
    have hinit : m.initSucc = true := not_not.1 hinit
    dsimp only
    cases hm : m.sqlHandler with
    | some handler =>
      rw [hm]
      dsimp only
      rcases execute_cases hm fate with ⟨hlost, hback, h⟩ | ⟨hgood, h⟩
      · exact .inl ⟨⟨hinit, ⟨handler, by rw [handlerOf, hm], hlost⟩, hback⟩, h⟩
      · refine .inr ⟨?_, h⟩
        rintro ⟨-, ⟨handler', hh, hlost⟩, hback⟩
        rw [handlerOf, hm] at hh
        cases hh
        exact hgood ⟨hlost, hback⟩
    | none =>
      -- the query reconnects before its statement
      dsimp only
      cases hm' : (reconnect m fate.firstConnect).2.sqlHandler with
      | none =>
        refine .inr ⟨?_, fun rt session m' h => ?_⟩
        · rintro ⟨-, ⟨handler, hh, -⟩, -⟩
          rw [handlerOf, hm, hm'] at hh
          cases hh
        · cases h
          exact ⟨nofun, nofun, fun _ => by decide⟩
      | some handler =>
        dsimp only
        rcases execute_cases hm' fate with ⟨hlost, hback, h⟩ | ⟨hgood, h⟩
        · exact .inl ⟨⟨hinit, ⟨handler, by rw [handlerOf, hm, hm'], hlost⟩, hback⟩, h⟩
        · refine .inr ⟨?_, fun rt session m' hok => ?_⟩
          · rintro ⟨-, ⟨handler', hh, hlost⟩, hback⟩
            rw [handlerOf, hm, hm'] at hh
            cases hh
            exact hgood ⟨hlost, hback⟩
          · obtain ⟨hexec, -, hnone⟩ := h rt session m' hok
            refine ⟨hexec, fun _ handler hh => ?_, hnone⟩
            rw [hm] at hh
            cases hh

/-! ## Every run -/

/-- No call loses its connection and gets it back. -/
def StaysConnected (s : State) : Call × Fate → Prop
  | (_, fate) => ¬ LostAndBack s.instase fate

/-- The calls since the last failure. -/
def State.successes (s : State) : List Entry := s.history.takeWhile fun e => e.rt = 0

structure Inv (s : State) : Prop where
  /-- A handler is only lost by a failure. -/
  handler : s.dead ∨ (s.instase.sqlHandler = none → ∀ e ∈ s.history.head?, e.rt ≠ 0)
  /-- As long as every success was an execution, the last ones share the session of the handler. -/
  session : (∀ e ∈ s.history, e.rt = 0 → e.session ≠ none) →
    ∀ e ∈ s.successes, ∃ sid, e.session = some sid ∧ s.instase.sqlHandler = some (some sid)

theorem after_sqlHandler (m : MySQLInstase) (rt : Int) (call : Call) :
    (call.after m rt).sqlHandler = m.sqlHandler := by
  cases call <;> simp only [Call.after] <;> try split
  all_goals rfl

/-- A call that has returned, in the two ways it can. -/
theorem Inv.returned {s : State} (hi : Inv s) (call : Call) {rt : Int} {session : Option Nat}
    {m : MySQLInstase} (h : (rt = 0 ∧ session = none ∧ m.sqlHandler ≠ none) ∨ Answered s.instase rt session m) :
    Inv { s with instase := call.after m rt, history := ⟨call, rt, session⟩ :: s.history } := by
  refine ⟨.inr fun hnone e he => ?_, fun hexec e he => ?_⟩
  · obtain rfl : ⟨call, rt, session⟩ = e := Option.some.inj he
    rw [after_sqlHandler] at hnone
    rcases h with ⟨-, -, hm⟩ | h
    · exact absurd hnone hm
    · exact h.none hnone
  · show ∃ sid, e.session = some sid ∧ (call.after m rt).sqlHandler = some (some sid)
    rw [after_sqlHandler]
    have he : e ∈ (⟨call, rt, session⟩ :: s.history).takeWhile fun e => e.rt = 0 := he
    rw [List.takeWhile_cons] at he
    split at he
    · rename_i hrt
      have hrt : rt = 0 := of_decide_eq_true hrt
      have hsession : session ≠ none := hexec _ List.mem_cons_self hrt
      have h := h.resolve_left fun h => hsession h.2.1
      rcases List.mem_cons.1 he with rfl | he
      · exact h.executed hrt
      · obtain ⟨sid, hsid, hh⟩ := hi.session (fun e he => hexec e (List.mem_cons_of_mem _ he)) e he
        exact ⟨sid, hsid, h.same hrt _ hh⟩
    · cases he

theorem step_inv {s s' : State} {a : Call × Fate} (hi : Inv s) (h : step s a = some s') : Inv s' := by
  obtain ⟨call, fate⟩ := a
  obtain ⟨-, h⟩ := Option.ite_none_left_eq_some.1 h
  split at h
  · cases h
    exact ⟨.inl rfl, hi.session⟩
  · rename_i rt session m hq
    cases h
    refine hi.returned call ?_
    rcases query_cases s.instase fate with ⟨-, m', hm', hne⟩ | ⟨-, h⟩
    · rw [hm'] at hq
      cases hq
      exact .inl ⟨rfl, rfl, hne⟩
    · exact .inr (h rt session m hq)

/-- All calls of a block have succeeded: they are among the last successes. -/
theorem block_successes {s : State} {block before : List Entry} (h : s.history = block ++ before)
    (hrt : ∀ e ∈ block, e.rt = 0) : ∀ e ∈ block, e ∈ s.successes := by
  intro e he
  unfold State.successes
  rw [h, List.takeWhile_append_of_pos fun e he => decide_eq_true (hrt e he)]
  exact List.mem_append_left _ he

/-- A further call that was executed, or has failed. -/
theorem Honest.returned {s : State} (hp : Honest s) {call : Call} {rt : Int} {session : Option Nat}
    {m : MySQLInstase} (h : Answered s.instase rt session m)
    (hi' : Inv { s with instase := call.after m rt, history := ⟨call, rt, session⟩ :: s.history }) :
    Honest { s with instase := call.after m rt, history := ⟨call, rt, session⟩ :: s.history } := by
  have hexec : ∀ e ∈ ⟨call, rt, session⟩ :: s.history, e.rt = 0 → e.session ≠ none := by
    intro e he hrt
    rcases List.mem_cons.1 he with rfl | he
    · obtain ⟨sid, hsid, -⟩ := h.executed hrt
      have hsid : session = some sid := hsid
      show session ≠ none
      rw [hsid]
      nofun
    · exact hp.executed e he hrt
  refine ⟨hexec, fun after c statements b before hhist hb hc hrt => ?_⟩
  cases after with
  | nil =>
    -- the transaction ends with this call: all of it ran on the handler's session
    have hhist' : (⟨call, rt, session⟩ :: s.history : List Entry) = c :: (statements ++ [b]) ++ before := by
      simpa using hhist
    have hblock := block_successes (s := { s with
      instase := call.after m rt, history := ⟨call, rt, session⟩ :: s.history }) hhist' hrt
    obtain ⟨sid, -, hh⟩ := hi'.session hexec c (hblock c List.mem_cons_self)
    refine ⟨sid, fun e he => ?_⟩
    obtain ⟨sid', hsid', hh'⟩ := hi'.session hexec e (hblock e he)
    rw [hh] at hh'
    cases hh'
    exact hsid'
  | cons a after =>
    obtain ⟨-, hhist⟩ := List.cons.inj hhist
    exact hp.transaction after c statements b before hhist hb hc hrt

theorem step_honest {s s' : State} {a : Call × Fate} (hi : Inv s) (hp : Honest s) (h : step s a = some s') :
    Honest s' ↔ StaysConnected s a := by
  have hi' := step_inv hi h
  obtain ⟨call, fate⟩ := a
  obtain ⟨-, h⟩ := Option.ite_none_left_eq_some.1 h
  rcases query_cases s.instase fate with ⟨hlost, m', hm', -⟩ | ⟨hstays, hgood⟩
  · rw [hm'] at h
    cases h
    exact iff_of_false (fun hp' => hp'.executed _ List.mem_cons_self rfl rfl) (not_not.2 hlost)
  · refine iff_of_true ?_ hstays
    split at h
    · cases h
      exact ⟨hp.executed, hp.transaction⟩
    · rename_i rt session m hq
      cases h
      exact hp.returned (hgood rt session m hq) hi'

/-- A new instance, its first connect having worked or not. -/
def start (c : Connect) : State := { instase := new c }

/-- Success stands for work done, and a transaction for one session, as long as no call loses its
connection and gets it back. -/
theorem honest_iff (c : Connect) (as : List (Call × Fate)) :
    Lts.Always step Honest (start c) as ↔ Lts.Along step StaysConnected (start c) as :=
  Lts.always_iff_along (fun _ _ _ hi h => step_inv hi h) (fun _ _ _ hi hp h => step_honest hi hp h)
    ⟨.inr fun _ => nofun, fun _ => nofun⟩ ⟨nofun, fun after c statements b before h => by cases after <;> cases h⟩

/-- The connection is lost at a statement and comes back: the statement is gone. -/
theorem not_honest_lost :
    ¬ Lts.Always step Honest (start .connected) [(.query "DELETE", ⟨.connected, .lost, .connected, .executed⟩)] := by
  intro h
  obtain ⟨s, hs⟩ : ∃ s, Lts.run step (start .connected)
      [(.query "DELETE", ⟨.connected, .lost, .connected, .executed⟩)] = some s := ⟨_, rfl⟩
  have hp := h.last hs
  cases hs
  exact hp.executed _ List.mem_cons_self rfl rfl

end Flconc.MySQL
