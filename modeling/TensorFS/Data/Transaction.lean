import TensorFS.Data.Machine

namespace TensorFS.Data

/-! Calls that end in a value or a refusal of their own. -/

section

variable {ε α β : Type}

def Returns (result : Except (Failure ε) α) : Prop := result ≠ .error .panicked

theorem Returns.ok (a : α) : Returns (.ok a : Except (Failure ε) α) := by
  simp [Returns]

theorem Returns.refused (error : ε) :
    Returns (.error (.refused error) : Except (Failure ε) α) := by
  simp [Returns]

theorem Returns.bind {result : Except (Failure ε) α}
    {next : α → Except (Failure ε) β} (h : Returns result)
    (hnext : ∀ a, result = .ok a → Returns (next a)) :
    Returns (result >>= next) := by
  cases result with
  | ok a => exact hnext a rfl
  | error failure =>
      cases failure with
      | refused error => exact .refused error
      | panicked => exact absurd rfl h

theorem returns_ensure {p : Prop} [Decidable p] {error : ε} :
    Returns (ensure p (Failure.refused error)) := by
  unfold ensure
  split
  · exact .ok ()
  · exact .refused error

theorem returns_checkAll {check : α → Except (Failure ε) Unit}
    (h : ∀ a, Returns (check a)) (items : List α) :
    Returns (checkAll check items) := by
  induction items with
  | nil => exact .ok ()
  | cons item items ih => exact (h item).bind fun _ _ => ih

theorem Returns.cases {result : Except (Failure ε) α} (h : Returns result)
    {failure : Failure ε} (hfailed : result = .error failure) :
    ∃ error, failure = .refused error := by
  cases failure with
  | refused error => exact ⟨error, rfl⟩
  | panicked => exact absurd hfailed h

end

/-! Statements on one connection, one after the other.  A statement that fails
leaves what the ones before it wrote; only a transaction takes that back. -/

variable {σ ε α β : Type}

theorem except_map_ok {ε α β : Type} {a : α} {f : α → β} :
    (Except.ok a : Except ε α).map f = .ok (f a) := rfl

theorem except_map_then {ε α β γ : Type} {x : Except ε α} {f : α → β}
    {g : β → Except ε γ} : x.map f >>= g = x >>= fun a => g (f a) := by
  cases x with
  | error refusal => rfl
  | ok a => rfl

/-- `image` is what an open transaction has written so far; `executed` counts
the statements. -/
structure Connection (σ : Type) where
  tables : σ
  image : Option σ
  executed : Nat

/-- What the engine may do on its own: the statements it fails, and how. -/
structure Engine (ε : Type) where
  fault : ε
  fails : Nat → Bool

namespace Connection

def idle (tables : σ) : Connection σ := ⟨tables, none, 0⟩

def current (connection : Connection σ) : σ :=
  connection.image.getD connection.tables

/-- Outside a transaction a statement commits at once. -/
def write (connection : Connection σ) (state : σ) : Connection σ :=
  match connection.image with
  | some _ => { connection with image := some state }
  | none => { connection with tables := state }

def tick (connection : Connection σ) : Connection σ :=
  { connection with executed := connection.executed + 1 }

def rollback (connection : Connection σ) : Connection σ :=
  { connection with image := none }

end Connection

def Session (σ ε α : Type) : Type :=
  Connection σ → Except ε α × Connection σ

namespace Session

def run (session : Session σ ε α) (connection : Connection σ) :
    Except ε α × Connection σ :=
  session connection

/-- An early return keeps the connection as it stands. -/
instance : Monad (Session σ ε) where
  pure a connection := (.ok a, connection)
  bind session next connection :=
    match session connection with
    | (.ok a, connection) => next a connection
    | (.error refusal, connection) => (.error refusal, connection)

def lift (result : Except ε α) : Session σ ε α :=
  fun connection => (result, connection)

variable (engine : Engine ε)

/-- One statement: it runs whole or not at all. -/
def statement (effect : σ → Except ε (σ × α)) : Session σ ε α :=
  fun connection =>
    let connection := connection.tick
    if engine.fails connection.executed then (.error engine.fault, connection)
    else
      match effect connection.current with
      | .ok (state, a) => (.ok a, connection.write state)
      | .error refusal => (.error refusal, connection)

def query (read : σ → Except ε α) : Session σ ε α :=
  statement engine fun state => (read state).map fun a => (state, a)

def execute (effect : σ → Except ε σ) : Session σ ε Unit :=
  statement engine fun state => (effect state).map fun state => (state, ())

def forEach (body : β → Session σ ε Unit) : List β → Session σ ε Unit
  | [] => pure ()
  | b :: bs => do
      body b
      forEach body bs

/-- `BEGIN` is refused inside a transaction. -/
def begin : Session σ ε Unit := fun connection =>
  let connection := connection.tick
  if engine.fails connection.executed || connection.image.isSome then
    (.error engine.fault, connection)
  else (.ok (), { connection with image := some connection.tables })

/-- `COMMIT` is refused outside one. -/
def commit : Session σ ε Unit := fun connection =>
  let connection := connection.tick
  match engine.fails connection.executed, connection.image with
  | false, some state =>
      (.ok (), { connection with tables := state, image := none })
  | _, _ => (.error engine.fault, connection)

/-- Whatever way the body ends, a transaction still open is rolled back. -/
def guarded (body : Session σ ε α) : Session σ ε α := fun connection =>
  let ended := body connection
  (ended.1, ended.2.rollback)

def transaction (body : Session σ ε α) : Session σ ε α := do
  begin engine
  guarded do
    let a ← body
    commit engine
    pure a

/-! What a body does, read as one function on the tables. -/

/-- Why a session may fail: the engine, or what it computes. -/
def Fails (effect : σ → Except ε (σ × α)) (state : σ) (refusal : ε) : Prop :=
  (refusal = engine.fault ∧ ∃ n, engine.fails n = true) ∨
    effect state = .error refusal

/-- Inside a transaction the session computes `effect` on its image, or fails,
and the tables below it stay. -/
def Computes (session : Session σ ε α) (effect : σ → Except ε (σ × α)) :
    Prop :=
  ∀ connection state, connection.image = some state →
    (session.run connection).2.tables = connection.tables ∧
    match (session.run connection).1 with
    | .ok a => ∃ state', effect state = .ok (state', a) ∧
        (session.run connection).2.image = some state'
    | .error refusal => Fails engine effect state refusal

variable {engine} {session : Session σ ε α} {effect : σ → Except ε (σ × α)}

theorem Computes.congr {other : σ → Except ε (σ × α)}
    (h : Computes engine session effect)
    (heq : ∀ state, effect state = other state) :
    Computes engine session other := by
  rwa [← funext heq]

theorem computes_pure (a : α) :
    Computes engine (pure a : Session σ ε α) fun state => .ok (state, a) :=
  fun _ state himage => ⟨rfl, state, rfl, himage⟩

theorem computes_lift (result : Except ε α) :
    Computes engine (lift result : Session σ ε α) fun state =>
      result.map fun a => (state, a) := by
  intro connection state himage
  cases result with
  | ok a => exact ⟨rfl, state, rfl, himage⟩
  | error refusal => exact ⟨rfl, .inr rfl⟩

theorem computes_statement (effect : σ → Except ε (σ × α)) :
    Computes engine (statement engine effect) effect := by
  intro connection state himage
  have hcurrent : connection.tick.current = state := by
    simp [Connection.current, Connection.tick, himage]
  have htick : connection.tick.image = some state := himage
  simp only [run, statement, hcurrent]
  cases hfails : engine.fails connection.tick.executed with
  | true => exact ⟨rfl, .inl ⟨rfl, _, hfails⟩⟩
  | false =>
      cases heffect : effect state with
      | error refusal => exact ⟨rfl, .inr heffect⟩
      | ok written =>
          simp only [Bool.false_eq_true, if_false, Connection.write, htick]
          exact ⟨rfl, written.1, rfl, rfl⟩

theorem computes_query (read : σ → Except ε α) :
    Computes engine (query engine read) fun state =>
      (read state).map fun a => (state, a) :=
  computes_statement _

theorem computes_execute (effect : σ → Except ε σ) :
    Computes engine (execute engine effect) fun state =>
      (effect state).map fun state => (state, ()) :=
  computes_statement _

theorem Computes.bind {next : α → Session σ ε β}
    {nextEffect : α → σ → Except ε (σ × β)}
    (h : Computes engine session effect)
    (hnext : ∀ a, Computes engine (next a) (nextEffect a)) :
    Computes engine (session >>= next) fun state =>
      effect state >>= fun written => nextEffect written.2 written.1 := by
  intro connection state himage
  obtain ⟨htables, hresult⟩ := h connection state himage
  have hrun : (session >>= next).run connection =
      match session.run connection with
      | (.ok a, connection) => (next a).run connection
      | (.error refusal, connection) => (.error refusal, connection) := rfl
  rw [hrun]
  cases hfirst : session.run connection with
  | mk result middle =>
      rw [hfirst] at htables hresult
      cases result with
      | error refusal =>
          refine ⟨htables, ?_⟩
          rcases hresult with hfault | herror
          · exact .inl hfault
          · exact .inr (congrArg (· >>= fun written : σ × α =>
              nextEffect written.2 written.1) herror)
      | ok a =>
          obtain ⟨state', heffect, hmiddle⟩ := hresult
          have hstep : (effect state >>= fun written =>
              nextEffect written.2 written.1) = nextEffect a state' := by
            rw [heffect, except_ok_bind]
          obtain ⟨htables', hresult'⟩ := hnext a middle state' hmiddle
          refine ⟨htables'.trans htables, ?_⟩
          simp only [Fails, hstep]
          exact hresult'

theorem Computes.ite {p : Prop} [Decidable p] {other : Session σ ε α}
    {otherEffect : σ → Except ε (σ × α)} (h : Computes engine session effect)
    (hother : Computes engine other otherEffect) :
    Computes engine (if p then session else other) fun state =>
      if p then effect state else otherEffect state := by
  split
  · exact h
  · exact hother

/-- A loop of statements is the fold of their effects. -/
theorem computes_forEach {body : β → Session σ ε Unit}
    {step : σ → β → Except ε σ}
    (h : ∀ b, Computes engine (body b) fun state =>
      (step state b).map fun state => (state, ())) (bs : List β) :
    Computes engine (forEach body bs) fun state =>
      (bs.foldlM step state).map fun state => (state, ()) := by
  induction bs with
  | nil => exact computes_pure ()
  | cons b bs ih =>
      refine ((h b).bind fun _ => ih).congr fun state => ?_
      rw [List.foldlM_cons, except_map_bind]
      cases step state b with
      | error refusal => rfl
      | ok state => rfl

theorem run_begin {connection : Connection σ}
    (hidle : connection.image = none) :
    (begin engine : Session σ ε Unit).run connection =
      if engine.fails connection.tick.executed then
        (.error engine.fault, connection.tick)
      else (.ok (), { connection.tick with image := some connection.tables }) := by
  simp only [run, begin, Connection.tick, hidle, Option.isSome_none,
    Bool.or_false]

theorem run_commit {connection : Connection σ} {state : σ}
    (himage : connection.image = some state) :
    (commit engine : Session σ ε Unit).run connection =
      if engine.fails connection.tick.executed then
        (.error engine.fault, connection.tick)
      else (.ok (), { connection.tick with tables := state, image := none }) := by
  have htick : connection.tick.image = some state := himage
  simp only [run, commit, htick]
  cases engine.fails connection.tick.executed <;> rfl

theorem run_bind {next : α → Session σ ε β} {connection : Connection σ} :
    (session >>= next).run connection =
      match session.run connection with
      | (.ok a, connection) => (next a).run connection
      | (.error refusal, connection) => (.error refusal, connection) := rfl

theorem run_lift (result : Except ε α) (connection : Connection σ) :
    (lift result).run connection = (result, connection) := rfl

theorem run_guarded {connection : Connection σ} :
    (guarded session).run connection =
      ((session.run connection).1, (session.run connection).2.rollback) := rfl

/-- A transaction over an idle connection installs what its body computes, or
fails with the tables as they were; either way it is over. -/
theorem Computes.transaction (h : Computes engine session effect)
    (connection : Connection σ) (hidle : connection.image = none) :
    ((Session.transaction engine session).run connection).2.image = none ∧
    match ((Session.transaction engine session).run connection).1 with
    | .ok a => effect connection.tables = .ok
        (((Session.transaction engine session).run connection).2.tables, a)
    | .error refusal =>
        ((Session.transaction engine session).run connection).2.tables =
          connection.tables ∧
        Fails engine effect connection.tables refusal := by
  rw [Session.transaction, run_bind, run_begin hidle]
  cases hbegin : engine.fails connection.tick.executed with
  | true => exact ⟨hidle, rfl, .inl ⟨rfl, _, hbegin⟩⟩
  | false =>
      obtain ⟨htables, hresult⟩ := h
        { connection.tick with image := some connection.tables }
        connection.tables rfl
      simp only [Bool.false_eq_true, if_false, run_guarded, run_bind]
      cases hbody : session.run
          { connection.tick with image := some connection.tables } with
      | mk result ended =>
          rw [hbody] at htables hresult
          cases result with
          | error refusal => exact ⟨rfl, htables, hresult⟩
          | ok a =>
              obtain ⟨state, heffect, himage⟩ := hresult
              simp only [run_commit himage]
              cases hcommit : engine.fails ended.tick.executed with
              | true => exact ⟨rfl, htables, .inl ⟨rfl, _, hcommit⟩⟩
              | false => exact ⟨rfl, heffect⟩

end Session

end TensorFS.Data
