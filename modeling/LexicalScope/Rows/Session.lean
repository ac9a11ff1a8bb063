import LexicalScope.Rows.Command
import LexicalScope.Session.Event

/-!
# Sessions with a stack of rows

A session holds a stack of rows, the copies of it that were saved, and the events
of the current step.  {lit}`Session.exec` makes one request and
{lit}`Session.run` makes a list of requests one step at a time.
-/

namespace LexicalScope
namespace Rows

/-- A stack of rows with its saved copies and the events of the current step. -/
structure Session where
  /-- The stack. -/
  stack : Stack Row
  /-- The saved copies, in the order of saving. -/
  saved : Array (Stack Row)
  /-- What happened in the current step. -/
  log : Array Event

namespace Session

/-- A session in which nothing has happened yet. -/
def start (start : Start) : Session :=
  ⟨start.stack, #[], #[]⟩

/-- A computation on a session. -/
abbrev Run :=
  StateM Session

/-! ## Single operations -/

/-- Asks something about the stack. -/
def ask {α : Type} (f : Stack Row → α) : Run α := fun s =>
  (f s.stack, s)

/-- Changes the stack and hands out what the change answers. -/
def change {α : Type} (f : Stack Row → α × Stack Row) : Run α := fun ⟨stack, saved, log⟩ =>
  let (answer, changed) := f stack
  (answer, ⟨changed, saved, log⟩)

/-- Records an event. -/
def record (event : Event) : Run Unit := fun ⟨stack, saved, log⟩ =>
  ((), ⟨stack, saved, log.push event⟩)

/-- Pushes a frame. -/
def push (row : Row) : Run Unit := do
  change fun stack => ((), stack.push row)
  record (.pushed (← ask Stack.depth))

/-- Pops the current frame, unless it is the root. -/
def pop : Run (Except Error Row) := do
  let outcome ← change Stack.pop
  match outcome with
  | .ok _ => record (.popped (← ask Stack.depth))
  | .error _ => record .refused
  return outcome

/-- Answers a walk below an index: its size hint at the start and the first of its rows. -/
def walkAnswer (stack : Stack Row) (index : Nat) (limit : Option Nat) : Answer :=
  let length := min index stack.depth
  .walk (.exact length) (stack.takeBelow index (limit.getD length))

/-- Runs a body on a stack of its own, with no saved copies, and answers the stack it leaves. -/
def aside {α : Type} (start : Start) (body : Run α) : Run (Stack Row) :=
  fun ⟨stack, saved, log⟩ =>
    let (_, other) := body ⟨start.stack, #[], log⟩
    (other.stack, ⟨stack, saved, other.log⟩)

/-! ## Requests -/

mutual

/-- Makes one request. -/
def exec : Command → Run Answer
  | .depth => .number <$> ask Stack.depth
  | .push row => do
    push row
    return .done
  | .pop => .popped <$> pop
  | .root => .row <$> ask Stack.root
  | .top => .row <$> ask Stack.top
  | .topIsRoot => .flag <$> ask Stack.topIsRoot
  | .topPush n => do
    change fun stack => stack.modifyTop fun row => ((), row.push n)
    return .done
  | .topReplace row => .row <$> change fun stack => stack.modifyTop fun old => (old, row)
  | .frame index => .rowAt <$> ask fun stack => stack.frame? index
  | .framePush index n => .flag <$> change fun stack =>
    (stack.modifyFrame index fun row => ((), row.push n)).map Option.isSome id
  | .walk limit => ask fun stack => walkAnswer stack stack.depth limit
  | .walkBelow index limit => ask fun stack => walkAnswer stack index limit
  | .markAll first limit => .number <$> change fun stack =>
    stack.changeWhileBelow stack.depth (mark first limit) 0
  | .markBelow index first limit => .number <$> change fun stack =>
    stack.changeWhileBelow index (mark first limit) 0
  | .position question => ask fun stack =>
    let (index, calls) := stack.positionWith question.ask 0
    .position index calls
  | .display layout => ask fun stack => .text ((Display.document stack.toList).text layout)
  | .save =>
    modifyGet fun s => (.number s.saved.size, { s with saved := s.saved.push s.stack })
  | .restore copy => do
    match (← get).saved[copy]? with
    | some stack =>
      change fun _ => ((), stack)
      return .done
    | none => return .noSuchCopy
  | .equalsSaved copy => do
    match (← get).saved[copy]? with
    | some other => ask fun stack => .flag (stack == other)
    | none => return .noSuchCopy
  | .equalsOther start body => do
    let other ← aside start (execAll body)
    ask fun stack => .flag (stack == other)
  | .rounds n body => do
    match ← rounds (execAll body) n with
    | some last => return .answers last
    | none => return .done

/-- Makes requests one after the other. -/
def execAll : List Command → Run (List Answer)
  | [] => return []
  | command :: rest => do
    let answer ← exec command
    let answers ← execAll rest
    return answer :: answers

end

/-! ## Steps -/

/-- What one step of a session shows: its answer and the session after it. -/
structure Report where
  /-- The answer to the request. -/
  answer : Answer
  /-- The session after the request, with the events of this step. -/
  after : Session

/-- Makes one request as a step of its own, whose events are recorded afresh. -/
def step (command : Command) (s : Session) : Report :=
  let (answer, after) := exec command { s with log := #[] }
  ⟨answer, after⟩

/-- Makes a list of requests, each as a step of its own, and gives the last session besides. -/
def run : List Command → Session → List Report × Session
  | [], s => ([], s)
  | command :: rest, s =>
    let report := step command s
    let (reports, last) := run rest report.after
    (report :: reports, last)

end Session
end Rows
end LexicalScope
