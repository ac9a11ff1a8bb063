import LexicalScope.Session.Basic

/-!
# Running commands

{lit}`Session.exec` runs one command of a session, {lit}`Session.execAll` runs a list of
them, and {lit}`Session.run` runs a list of commands as the steps of a session.  A fault
ends the step in which it happens, and the next step goes on from there.
-/

namespace LexicalScope
namespace Session

variable {ε ι ρ κ : Type} [Entry ε κ] [BEq κ] [Ord κ]

/-! ## Commands -/

/-- Fulfils a request about keys. -/
def fulfil (dialect : Dialect ε ι ρ) (request : ι) : Run ε ρ := do
  match ← change (dialect.fulfil request) with
  | .ok answer => return answer
  | .error fault => throw fault

mutual

/-- Runs one command. -/
def exec (dialect : Dialect ε ι ρ) : Command ε ι → Run ε (Answer ε ρ)
  | .keyed request => .keyed <$> fulfil dialect request
  | .depth => .number <$> ask Chain.depth
  | .push => do
    pushBy Chain.push
    return .done
  | .pushFrame entries mark => do
    let hasher := (← get).hasher.withMark mark
    pushBy fun c => c.pushFrame (.ofList hasher entries)
    return .done
  | .pop => do
    let outcome ← pop
    if let .ok frame := outcome then
      modify fun s => { s with popped := some frame }
    return .popped outcome
  | .pushPopped => do
    match (← get).popped with
    | some frame =>
      pushBy fun c => c.pushFrame frame
      return .flag true
    | none => return .flag false
  | .scope body => .answers <$> inScope (execAll dialect body)
  | .nest n body => .answers <$> inScopes (execAll dialect body) n
  | .rounds n body => do
    match ← rounds (execAll dialect body) n with
    | some last => return .answers last
    | none => return .done
  | .hashers => .hashers <$> ask Chain.hashers
  | .root => .frame <$> ask fun c => c.stack.root
  | .top => .frame <$> ask fun c => c.stack.top
  | .frame index => .frameAt <$> ask fun c => c.stack.frame? index
  | .frames => .frames <$> ask fun c => c.stack.fromTop
  | .framesBelow index => .frames <$> ask fun c => c.stack.below index
  | .positionOfSize n => .index <$> ask fun c => c.stack.position fun frame => frame.size == n
  | .visible => .groups <$> ask Chain.visibleGroups
  | .visibleFrames n => .indexes <$> ask fun c => c.visibleFrames n
  | .visibleHints => ask fun c => .hints c.visibleHints.1 c.visibleHints.2
  | .display layout => .text <$> ask fun c => dialect.text? layout c
  | .save =>
    modifyGet fun s => (.number s.saved.size, { s with saved := s.saved.push s.chain })
  | .restore copy => do
    match (← get).saved[copy]? with
    | some c =>
      change fun _ => ((), c)
      return .done
    | none => return .noSuchCopy
  | .equalsSaved copy => do
    match (← get).saved[copy]? with
    | some other => .flag <$> ask fun c => c == other
    | none => return .noSuchCopy
  | .stackEqualsSaved copy => do
    match (← get).saved[copy]? with
    | some other => .flag <$> ask fun c => c.stack == other.stack
    | none => return .noSuchCopy
  | .equalsOther start mark body => do
    let hasher := (← get).hasher.withMark mark
    let other ← aside hasher start (execAll dialect body)
    .flag <$> ask fun c => c == other

/-- Runs commands one after the other, and notes the depth right after each. -/
def execAll (dialect : Dialect ε ι ρ) : List (Command ε ι) → Run ε (List (Answer ε ρ × Nat))
  | [] => return []
  | command :: rest => do
    let answer ← exec dialect command
    let depth ← ask Chain.depth
    let answers ← execAll dialect rest
    return (answer, depth) :: answers

end

/-! ## Steps -/

/-- What one step of a session shows: its answer and the session after it. -/
structure Report (ε ρ : Type) {κ : Type} [Entry ε κ] [BEq κ] where
  /-- The answer to the command, or why the step was given up. -/
  answer : Except Fault (Answer ε ρ)
  /-- The session after the step, with the events of this step. -/
  after : Session ε

/-- Runs one command as a step of its own, whose events are recorded afresh. -/
def step (dialect : Dialect ε ι ρ) (command : Command ε ι) (s : Session ε) : Report ε ρ :=
  match exec dialect command { s with log := #[] } with
  | .ok answer after => ⟨.ok answer, after⟩
  | .error fault after => ⟨.error fault, after⟩

/-- Runs a list of commands, each as a step of its own, and gives the last session besides. -/
def run (dialect : Dialect ε ι ρ) :
    List (Command ε ι) → Session ε → List (Report ε ρ) × Session ε
  | [], s => ([], s)
  | command :: rest, s =>
    let report := step dialect command s
    let (reports, last) := run dialect rest report.after
    (report :: reports, last)

end Session
end LexicalScope
