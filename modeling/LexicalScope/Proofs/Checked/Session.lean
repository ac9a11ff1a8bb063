import LexicalScope.Proofs.Chain.Lookups
import LexicalScope.Proofs.Checked.Chain
import LexicalScope.Proofs.Session.Abandonment
import LexicalScope.Proofs.Session.Everywhere

/-!
# Sessions on a machine

A run is followed moment by moment on a machine.  The depth is computed for every event that is
recorded, when a scope begins, and each time its end asks whether there is a frame left to pop.
As long as every moment has a depth that is a word, the machine goes through the moments of the
run, and the only thing that it panics at is a fault.  In a chain of bindings that is the demand
for a key that is not bound, and in a chain of names there is none.

Main results:

- Theorem {lit}`Checked.begin_cases`: a machine begins a task as it is meant to be begun.
- Theorem {lit}`Checked.follows_of_reaches`: so it does with every moment of a run.
- Theorem {lit}`Checked.machineReaches_iff`: it goes through these moments and no others.
- Theorem {lit}`Checked.demand_is_only_panic`: what remains to panic at.
-/

open StateTransition

namespace LexicalScope

variable {ε ι ρ κ ν : Type} [Entry ε κ] [BEq κ]

/-- Why a machine ends a program by force. -/
inductive Panic where
  /-- An operation trapped. -/
  | trap (trap : Trap)
  /-- A request was a fault. -/
  | fault (fault : Fault)
  deriving DecidableEq

namespace Checked

/-! ## Machines -/

/-- How a machine fulfils requests about keys, and the requests that are given just words. -/
structure Machine (ε ι ρ : Type) {κ : Type} [Entry ε κ] [BEq κ] where
  /-- Fulfils a request, unless it traps. -/
  fulfil : ι → Chain ε → Except Trap (Except Fault ρ × Chain ε)
  /-- The index that a request is given is a word. -/
  Indexed : ι → Prop

/-- The machine fulfils requests as the dialect does. -/
def Machine.Implements (machine : Machine ε ι ρ) (dialect : Dialect ε ι ρ) : Prop :=
  ∀ request c, c.stack.Fits → machine.Indexed request →
    machine.fulfil request c = .ok (dialect.fulfil request c)

/-- The machine for chains of bindings. -/
def bindingMachine [BEq ν] [Ord κ] :
    Machine (Binding κ ν) (BindingRequest κ ν) (BindingAnswer κ ν) where
  fulfil := fulfilBinding
  Indexed := BindingIndexed

/-- The machine for chains of names. -/
def nameMachine : Machine (Member κ) (NameRequest κ) (NameAnswer κ) where
  fulfil := fulfilName
  Indexed := NameIndexed

/-! ## Tasks on a machine -/

/-- The session after a frame was pushed. -/
def afterPush (s : Session ε) (frame : Frame ε) : Except Trap (Session ε) := do
  let (depth, stack) ← push s.chain.stack frame
  return { s with
    chain := { s.chain with stack := stack }
    log := s.log.push (.pushed depth.toNat) }

/-- What an attempt to pop the current frame answers, and the session after it. -/
def afterPop (s : Session ε) : Except Trap (Except Error (Frame ε) × Session ε) := do
  let (outcome, stack) ← pop s.chain.stack
  let event := match outcome with
    | .ok (_, depth) => .popped depth.toNat
    | .error _ => .refused
  return (outcome.map Prod.fst, { s with
    chain := { s.chain with stack := stack }
    log := s.log.push event })

/-- Answers the commands that do no more than look at a chain. -/
def look [Ord κ] (dialect : Dialect ε ι ρ) (c : Chain ε) : Command ε ι → Except Trap (Answer ε ρ)
  | .depth => do return .number (← depth c.stack).toNat
  | .hashers => return .hashers c.hashers
  | .root => return .frame c.stack.root
  | .top => return .frame c.stack.top
  | .frame index => do return .frameAt (← frame? c.stack (.ofNat index))
  | .frames => do return .frames (← fromTop c.stack)
  | .framesBelow index => do return .frames (← below c.stack (.ofNat index))
  | .positionOfSize n => do
    return .index ((← position c.stack fun frame => frame.size == n).map UInt64.toNat)
  | .visible => do return .groups (← visibleGroups c)
  | .visibleFrames n => do return .indexes (← visibleFrames c n)
  | .visibleHints => do
    let (before, after) ← visibleHints c
    return .hints before after
  | .display layout => return .text (dialect.text? layout c)
  | _ => return .done

/-- The command does no more than look at a chain. -/
def Looks : Command ε ι → Prop
  | .depth | .hashers | .root | .top | .frame _ | .frames | .framesBelow _ | .positionOfSize _ =>
    True
  | .visible | .visibleFrames _ | .visibleHints | .display _ => True
  | _ => False

/-- A trap as a panic. -/
def trapping {α : Type} (result : Except Trap α) : Except Panic α :=
  result.mapError .trap

/--
What comes of doing the first bit of a task on a machine: the session after it and the tasks that
take the place of this one, or a panic.
-/
def begin [Ord κ] (dialect : Dialect ε ι ρ) (machine : Machine ε ι ρ) (s : Session ε) :
    Task ε ι → Except Panic (Session ε × List (Task ε ι))
  | .close depth => trapping do
    if depth < (← Checked.depth s.chain.stack).toNat then
      return ((← afterPop s).2, [.close depth])
    else return (s, [])
  | .rejoin main => return ({ main with log := s.log }, [])
  | .run command =>
    match command with
    | .keyed request => do
      match ← trapping (machine.fulfil request s.chain) with
      | (.ok _, c) => return ({ s with chain := c }, [])
      | (.error fault, _) => throw (.fault fault)
    | .push => trapping do return (← afterPush s (.empty s.chain.hasher), [])
    | .pushFrame entries mark => trapping do
      return (← afterPush s (.ofList (s.hasher.withMark mark) entries), [])
    | .pop => trapping do
      let (outcome, after) ← afterPop s
      return ({ after with popped := outcome.toOption.or s.popped }, [])
    | .pushPopped => trapping do
      match s.popped with
      | some frame => return (← afterPush s frame, [])
      | none => return (s, [])
    | .scope body => trapping do
      let depth ← Checked.depth s.chain.stack
      return (← afterPush s (.empty s.chain.hasher), body.map .run ++ [.close depth.toNat])
    | .nest 0 body => return (s, body.map .run)
    | .nest (n + 1) body => trapping do
      let depth ← Checked.depth s.chain.stack
      return (← afterPush s (.empty s.chain.hasher), [.run (.nest n body), .close depth.toNat])
    | .rounds n body => return (s, (List.replicate n (body.map .run)).flatten)
    | .save => return ({ s with saved := s.saved.push s.chain }, [])
    | .restore copy =>
      match s.saved[copy]? with
      | some c => return ({ s with chain := c }, [])
      | none => return (s, [])
    | .equalsOther start mark body =>
      let hasher := s.hasher.withMark mark
      return (⟨hasher, start.chain hasher, #[], none, s.log⟩, body.map .run ++ [.rejoin s])
    | .equalsSaved _ | .stackEqualsSaved _ => return (s, [])
    | command => trapping do
      let _ ← look dialect s.chain command
      return (s, [])

/-- The next moment on a machine, if anything is left to be done. -/
def next [Ord κ] (dialect : Dialect ε ι ρ) (machine : Machine ε ι ρ) :
    Moment ε ι → Except Panic (Option (Moment ε ι))
  | ⟨_, []⟩ => return none
  | ⟨s, task :: rest⟩ => do
    let (after, tasks) ← begin dialect machine s task
    return some ⟨after, tasks ++ rest⟩

/-- One moment leads to another one on a machine. -/
def MachineReaches [Ord κ] (dialect : Dialect ε ι ρ) (machine : Machine ε ι ρ) :
    Moment ε ι → Moment ε ι → Prop :=
  Relation.ReflTransGen fun m m' => next dialect machine m = .ok (some m')

/-! ## What is asked of commands -/

/-- The index that a command is given is a word. -/
def CommandIndexed (machine : Machine ε ι ρ) : Command ε ι → Prop
  | .keyed request => machine.Indexed request
  | .frame index => index < UInt64.size
  | .framesBelow index => index < UInt64.size
  | _ => True

/-- The command of a task, if it has one, and all commands in it are given no more than words. -/
def TaskIndexed (machine : Machine ε ι ρ) : Task ε ι → Prop
  | .run command => command.Everywhere (CommandIndexed machine)
  | _ => True

/-! ## Single tasks -/

section Tasks

variable {dialect : Dialect ε ι ρ} {machine : Machine ε ι ρ} {s : Session ε}

omit [Entry ε κ] [BEq κ] in
/-- A condition holds everywhere in a list if and only if it does in each command. -/
theorem allEverywhere_iff {p : Command ε ι → Prop} (commands : List (Command ε ι)) :
    Command.AllEverywhere p commands ↔ ∀ command ∈ commands, command.Everywhere p := by
  induction commands with
  | nil => exact ⟨fun _ _ h => (nomatch h), fun _ => trivial⟩
  | cons command rest ih => rw [List.forall_mem_cons, ← ih, Command.AllEverywhere]

omit [Entry ε κ] [BEq κ] in
/-- A condition that holds everywhere in a command holds of the command itself. -/
theorem everywhere_self {p : Command ε ι → Prop} {command : Command ε ι}
    (h : command.Everywhere p) : p command := by
  cases command with
  | scope body => exact h.1
  | nest n body => exact h.1
  | rounds n body => exact h.1
  | equalsOther start mark body => exact h.1
  | _ => exact h

/-- If the indexes of all commands fit into words, so do those of the tasks to run them. -/
theorem indexed_run {body : List (Command ε ι)}
    (h : Command.AllEverywhere (CommandIndexed machine) body) :
    ∀ task ∈ body.map .run, TaskIndexed machine task := by
  rw [List.forall_mem_map]
  exact (allEverywhere_iff body).mp h

/-- The tasks that take the place of one are given no more than words if it is. -/
theorem indexed_of_begin? {task : Task ε ι} (h : TaskIndexed machine task) {after : Session ε}
    {tasks : List (Task ε ι)} (hbegin : task.begin? dialect s = some (after, tasks)) :
    ∀ task ∈ tasks, TaskIndexed machine task := by
  have hnone : ∀ task ∈ ([] : List (Task ε ι)), TaskIndexed machine task := fun _ h => (nomatch h)
  have hclose : ∀ depth, ∀ task ∈ ([.close depth] : List (Task ε ι)), TaskIndexed machine task :=
    fun depth => List.forall_mem_singleton.mpr trivial
  cases task with
  | close depth =>
      rw [Task.begin?] at hbegin
      split at hbegin <;> cases hbegin
      · exact hclose depth
      · exact hnone
  | rejoin main =>
      cases hbegin
      exact hnone
  | run command =>
      cases command with
      | keyed request =>
          rw [Task.begin?] at hbegin
          split at hbegin <;> cases hbegin
          exact hnone
      | scope body =>
          cases hbegin
          exact List.forall_mem_append.mpr ⟨indexed_run h.2, hclose _⟩
      | nest n body =>
          cases n with
          | zero =>
              cases hbegin
              exact indexed_run h.2
          | succ n =>
              cases hbegin
              exact List.forall_mem_cons.mpr ⟨⟨trivial, h.2⟩, hclose _⟩
      | rounds n body =>
          cases hbegin
          intro task htask
          rcases List.mem_flatten.mp htask with ⟨tasks, htasks, hmem⟩
          rw [List.eq_of_mem_replicate htasks] at hmem
          exact indexed_run h.2 task hmem
      | equalsOther start mark body =>
          cases hbegin
          exact List.forall_mem_append.mpr ⟨indexed_run h.2, List.forall_mem_singleton.mpr trivial⟩
      | _ =>
          cases hbegin
          exact hnone

/-- A push does not trap if the depth after it fits into a word. -/
theorem afterPush_eq (h : s.chain.stack.Fits) {frame : Frame ε}
    (hpush : (s.afterPush frame).chain.stack.Fits) :
    afterPush s frame = .ok (s.afterPush frame) := by
  have hdepth : (UInt64.ofNat (s.chain.stack.push frame).depth).toNat = s.chain.depth + 1 :=
    hpush.toNat_depth.trans (s.chain.stack.depth_push frame)
  rw [afterPush, push_eq h hpush, Session.afterPush, ← hdepth]
  rfl

/-- A pop does not trap. -/
theorem afterPop_eq (h : s.chain.stack.Fits) : afterPop s = .ok (s.chain.pop.1, s.afterPop) := by
  have hdepth := h.pop.toNat_depth
  rw [afterPop, pop_eq h, Session.afterPop, Chain.pop, Chain.depth]
  rcases hpop : s.chain.stack.pop with ⟨e | frame, rest⟩
  · rfl
  · rw [hpop] at hdepth
    exact congrArg (fun n => Except.ok (Except.ok frame, { s with
      chain := { s.chain with stack := rest }
      log := s.log.push (.popped n) })) hdepth

/-- A task that opens a scope notes the depth before the push. -/
theorem opened_eq (h : s.chain.stack.Fits) {frame : Frame ε}
    (hpush : (s.afterPush frame).chain.stack.Fits) (tasks : Nat → List (Task ε ι)) :
    (do
      let depth ← Checked.depth s.chain.stack
      return (← afterPush s frame, tasks depth.toNat) : Except Trap _) =
      .ok (s.afterPush frame, tasks s.chain.depth) := by
  rw [depth_eq h, afterPush_eq h hpush]
  exact congrArg (fun depth => Except.ok (s.afterPush frame, tasks depth)) h.toNat_depth

/-- A task that only pushes a frame does not trap if the depth after it fits into a word. -/
theorem pushed_eq (h : s.chain.stack.Fits) {frame : Frame ε}
    (hpush : (s.afterPush frame).chain.stack.Fits) :
    (do return (← afterPush s frame, []) : Except Trap (Session ε × List (Task ε ι))) =
      .ok (s.afterPush frame, []) := by
  rw [afterPush_eq h hpush]
  rfl

/-- A task that ends a scope asks for the depth each time. -/
theorem closed_eq (h : s.chain.stack.Fits) (depth : Nat) :
    (do
      if depth < (← Checked.depth s.chain.stack).toNat then
        return ((← afterPop s).2, [.close depth])
      else return (s, []) : Except Trap (Session ε × List (Task ε ι))) =
      .ok (if depth < s.chain.depth then (s.afterPop, [.close depth]) else (s, [])) := by
  have hdepth : (UInt64.ofNat s.chain.stack.depth).toNat = s.chain.depth := h.toNat_depth
  rw [depth_eq h, afterPop_eq h]
  change (if depth < (UInt64.ofNat s.chain.stack.depth).toNat then _ else _) = _
  rw [hdepth]
  split <;> rfl

variable [Ord κ]

/-- To look at a chain traps nowhere, and answers what the command answers. -/
theorem look_eq (h : s.chain.stack.Fits) {command : Command ε ι}
    (hindex : CommandIndexed machine command) (hlook : Looks command) :
    ∃ answer, look dialect s.chain command = .ok answer ∧
      Session.exec dialect command s = .ok answer s := by
  cases command with
  | depth =>
      refine ⟨.number s.chain.depth, ?_, by rw [Session.exec]; rfl⟩
      rw [look, depth_eq h]
      exact congrArg (fun n => Except.ok (Answer.number n)) h.toNat_depth
  | hashers => exact ⟨_, rfl, by rw [Session.exec]; rfl⟩
  | root => exact ⟨_, rfl, by rw [Session.exec]; rfl⟩
  | top => exact ⟨_, rfl, by rw [Session.exec]; rfl⟩
  | display layout => exact ⟨_, rfl, by rw [Session.exec]; rfl⟩
  | frame index =>
      refine ⟨.frameAt (s.chain.stack.frame? index), ?_, by rw [Session.exec]; rfl⟩
      rw [look, frame?_eq, UInt64.toNat_ofNat_of_lt' hindex]
      rfl
  | frames =>
      refine ⟨.frames s.chain.stack.fromTop, ?_, by rw [Session.exec]; rfl⟩
      rw [look, fromTop_eq h]
      rfl
  | framesBelow index =>
      refine ⟨.frames (s.chain.stack.below index), ?_, by rw [Session.exec]; rfl⟩
      rw [look, below_eq h, UInt64.toNat_ofNat_of_lt' hindex]
      rfl
  | positionOfSize n =>
      refine ⟨.index (s.chain.stack.position fun frame => frame.size == n), ?_,
        by rw [Session.exec]; rfl⟩
      rw [look, position_eq h]
      exact congrArg (fun index => Except.ok (Answer.index index)) (toNat_ofNat_position h _ _)
  | visible =>
      refine ⟨.groups s.chain.visibleGroups, ?_, by rw [Session.exec]; rfl⟩
      rw [look, visibleGroups_eq h]
      rfl
  | visibleFrames n =>
      refine ⟨.indexes (s.chain.visibleFrames n), ?_, by rw [Session.exec]; rfl⟩
      rw [look, visibleFrames_eq h]
      rfl
  | visibleHints =>
      refine ⟨.hints s.chain.visibleHints.1 s.chain.visibleHints.2, ?_, by rw [Session.exec]; rfl⟩
      rw [look, visibleHints_eq h]
      rfl
  | _ => exact hlook.elim

/-- A command that only looks at the chain does not trap. -/
theorem begin_look (h : s.chain.stack.Fits) {command : Command ε ι}
    (hindex : TaskIndexed machine (.run command)) (hlook : Looks command) :
    (do let _ ← look dialect s.chain command; return (s, []) :
      Except Trap (Session ε × List (Task ε ι))) = .ok (s, []) := by
  rcases look_eq h (everywhere_self hindex) hlook with ⟨answer, hanswer, -⟩
  rw [hanswer]
  rfl

/--
A machine begins a task as it is meant to be begun, or the task is a request about keys that is a
fault.
-/
theorem begin_cases (hmachine : machine.Implements dialect) (h : s.chain.stack.Fits)
    {task : Task ε ι} (hindex : TaskIndexed machine task)
    (hafter : ∀ after tasks, task.begin? dialect s = some (after, tasks) →
      after.chain.stack.Fits) :
    (∃ begun, task.begin? dialect s = some begun ∧ begin dialect machine s task = .ok begun) ∨
      ∃ request fault, task = .run (.keyed request) ∧
        (dialect.fulfil request s.chain).1 = .error fault ∧
          begin dialect machine s task = .error (.fault fault) := by
  cases task with
  | rejoin main => exact .inl ⟨_, rfl, rfl⟩
  | close depth =>
      refine .inl ⟨_, ?_, congrArg trapping (closed_eq h depth)⟩
      rw [Task.begin?]
      split <;> rfl
  | run command =>
      cases command with
      | keyed request =>
          have hfulfil := hmachine request s.chain h hindex
          rcases houtcome : dialect.fulfil request s.chain with ⟨fault | answer, c⟩ <;>
            rw [houtcome] at hfulfil
          · refine .inr ⟨request, fault, rfl, by rw [houtcome], ?_⟩
            rw [begin, hfulfil]
            rfl
          · refine .inl ⟨({ s with chain := c }, []), by rw [Task.begin?, houtcome], ?_⟩
            rw [begin, hfulfil]
            rfl
      | push => exact .inl ⟨_, rfl, congrArg trapping (pushed_eq h (hafter _ _ rfl))⟩
      | pushFrame entries mark =>
          exact .inl ⟨_, rfl, congrArg trapping (pushed_eq h (hafter _ _ rfl))⟩
      | pop =>
          refine .inl ⟨_, rfl, ?_⟩
          rw [begin, afterPop_eq h]
          rfl
      | pushPopped =>
          refine .inl ⟨_, rfl, ?_⟩
          have hpushed := hafter _ _ rfl
          cases hpopped : s.popped with
          | none => rw [begin, hpopped]; rfl
          | some frame =>
              rw [hpopped] at hpushed
              rw [begin, hpopped]
              exact congrArg trapping (pushed_eq h hpushed)
      | scope body =>
          have hopened := opened_eq h (hafter _ _ rfl) fun depth => body.map .run ++ [.close depth]
          exact .inl ⟨_, rfl, congrArg trapping hopened⟩
      | nest n body =>
          cases n with
          | zero => exact .inl ⟨_, rfl, rfl⟩
          | succ n =>
              have hopened := opened_eq h (hafter _ _ rfl) fun depth =>
                [.run (.nest n body), .close depth]
              exact .inl ⟨_, rfl, congrArg trapping hopened⟩
      | rounds n body => exact .inl ⟨_, rfl, rfl⟩
      | save => exact .inl ⟨_, rfl, rfl⟩
      | restore copy =>
          refine .inl ⟨_, rfl, ?_⟩
          rw [begin]
          cases s.saved[copy]? <;> rfl
      | equalsOther start mark body => exact .inl ⟨_, rfl, rfl⟩
      | equalsSaved copy => exact .inl ⟨_, rfl, rfl⟩
      | stackEqualsSaved copy => exact .inl ⟨_, rfl, rfl⟩
      | depth | hashers | root | top | frame | frames | framesBelow | positionOfSize | visible
      | visibleFrames | visibleHints | display =>
          refine .inl ⟨(s, []), rfl, ?_⟩
          exact congrArg trapping (begin_look h hindex trivial)

end Tasks

/-! ## Moments of a run -/

section Moments

variable [Ord κ] {dialect : Dialect ε ι ρ} {machine : Machine ε ι ρ} {m₀ m m' : Moment ε ι}

/-- What the machine does at a moment is what comes next. -/
inductive Follows (dialect : Dialect ε ι ρ) (machine : Machine ε ι ρ) (m : Moment ε ι) : Prop where
  /-- Nothing is left to be done, and the machine stops. -/
  | ended (h : m.tasks = []) (hnext : next dialect machine m = .ok none)
  /-- The machine goes on to the next moment. -/
  | goes {m' : Moment ε ι} (h : m.next? dialect = some m')
      (hnext : next dialect machine m = .ok (some m'))
  /-- The next task is a fault, and the machine panics. -/
  | faulty {fault : Fault} (h : m.Faulty dialect fault)
      (hnext : next dialect machine m = .error (.fault fault))

/-- All moments to come have a depth that is a word, and the tasks are given no more than words. -/
structure Bounded (dialect : Dialect ε ι ρ) (machine : Machine ε ι ρ) (m : Moment ε ι) : Prop where
  fits : ∀ m', Reaches (Moment.next? dialect) m m' → m'.session.chain.stack.Fits
  indexed : ∀ task ∈ m.tasks, TaskIndexed machine task

omit [Ord κ] in
/-- A moment that fits is followed by moments that fit if the next one is. -/
theorem fits_of_next? (h : m.next? dialect = some m') (hm : m.session.chain.stack.Fits)
    (hrest : ∀ last, Reaches (Moment.next? dialect) m' last → last.session.chain.stack.Fits) :
    ∀ last, Reaches (Moment.next? dialect) m last → last.session.chain.stack.Fits := by
  intro last hlast
  rcases Relation.ReflTransGen.cases_head hlast with rfl | ⟨middle, hmiddle, hlast⟩
  · exact hm
  · rw [Option.mem_def, h, Option.some.injEq] at hmiddle
    exact hrest last (hmiddle ▸ hlast)

omit [Ord κ] in
/-- Where no task is left, no depth is left to come. -/
theorem fits_of_next?_eq_none (h : m.next? dialect = none) (hm : m.session.chain.stack.Fits) :
    ∀ last, Reaches (Moment.next? dialect) m last → last.session.chain.stack.Fits := by
  intro last hlast
  rcases Relation.ReflTransGen.cases_head hlast with rfl | ⟨middle, hmiddle, -⟩
  · exact hm
  · rw [Option.mem_def, h] at hmiddle
    cases hmiddle

omit [Ord κ] in
/-- One moment on, all of this is still the case. -/
theorem Bounded.next (h : Bounded dialect machine m) (hnext : m.next? dialect = some m') :
    Bounded dialect machine m' := by
  refine ⟨fun last hlast => h.fits last (.head hnext hlast), ?_⟩
  obtain ⟨s, _ | ⟨task, rest⟩⟩ := m
  · cases hnext
  · rcases Option.map_eq_some_iff.mp hnext with ⟨⟨after, tasks⟩, hbegin, rfl⟩
    rcases List.forall_mem_cons.mp h.indexed with ⟨htask, hrest⟩
    exact List.forall_mem_append.mpr ⟨indexed_of_begin? htask hbegin, hrest⟩

omit [Ord κ] in
/-- The bounds hold from every later moment on. -/
theorem Bounded.of_reaches (h : Bounded dialect machine m₀)
    (hreaches : Reaches (Moment.next? dialect) m₀ m) : Bounded dialect machine m := by
  induction hreaches with
  | refl => exact h
  | tail _ hnext ih => exact ih.next hnext

/-- If the bounds hold, the steps on words are those on numbers. -/
theorem Bounded.follows (hmachine : machine.Implements dialect) (h : Bounded dialect machine m) :
    Follows dialect machine m := by
  have hfits := h.fits m .refl
  obtain ⟨s, _ | ⟨task, rest⟩⟩ := m
  · exact .ended rfl rfl
  · have hafter : ∀ after tasks, task.begin? dialect s = some (after, tasks) →
        after.chain.stack.Fits := fun after tasks hbegin =>
      h.fits ⟨after, tasks ++ rest⟩ (.single (Moment.next?_append dialect s task rest hbegin))
    have htask := (List.forall_mem_cons.mp h.indexed).1
    rcases begin_cases hmachine hfits htask hafter with
      ⟨⟨after, tasks⟩, hbegin, hmachineBegin⟩ | ⟨request, fault, rfl, hfault, hmachineBegin⟩
    · refine .goes (Moment.next?_append dialect s task rest hbegin) ?_
      rw [Checked.next, hmachineBegin]
      rfl
    · refine .faulty ⟨request, rest, rfl, hfault⟩ ?_
      rw [Checked.next, hmachineBegin]
      rfl

/-- At every moment of a run the machine does what comes next. -/
theorem follows_of_reaches (hmachine : machine.Implements dialect)
    (h : Bounded dialect machine m₀) (hreaches : Reaches (Moment.next? dialect) m₀ m) :
    Follows dialect machine m :=
  (h.of_reaches hreaches).follows hmachine

/-- The machine goes through the moments of the run and no others. -/
theorem machineReaches_iff (hmachine : machine.Implements dialect)
    (h : Bounded dialect machine m₀) :
    MachineReaches dialect machine m₀ m ↔ Reaches (Moment.next? dialect) m₀ m := by
  -- In both directions by induction on the steps: each moment on the way is one of the run.
  constructor
  · intro hreaches
    induction hreaches with
    | refl => exact .refl
    | tail _ hnext ih =>
        cases follows_of_reaches hmachine h ih with
        | ended _ hended =>
            rw [hended] at hnext
            cases hnext
        | goes hgoes hmachineNext =>
            rw [hmachineNext] at hnext
            cases hnext
            exact ih.tail hgoes
        | faulty _ hfault =>
            rw [hfault] at hnext
            cases hnext
  · intro hreaches
    induction hreaches with
    | refl => exact .refl
    | @tail middle last hmiddle hnext ih =>
        cases follows_of_reaches hmachine h hmiddle with
        | ended hended _ =>
            obtain ⟨s, tasks⟩ := middle
            cases hended
            cases hnext
        | goes hgoes hmachineNext =>
            rw [Option.mem_def, hgoes] at hnext
            cases hnext
            exact ih.tail hmachineNext
        | faulty hfault _ =>
            rw [Option.mem_def, hfault.next?] at hnext
            cases hnext

omit [Ord κ] in
/-- A moment has at most one fault. -/
theorem faulty_unique {fault fault' : Fault} (h : m.Faulty dialect fault)
    (h' : m.Faulty dialect fault') : fault = fault' := by
  rcases h with ⟨request, rest, htasks, hrequest⟩
  rcases h' with ⟨request', rest', htasks', hrequest'⟩
  cases htasks.symm.trans htasks'
  exact Except.error.inj (hrequest.symm.trans hrequest')

/-- The machine panics at a moment if and only if the next task is a fault. -/
theorem next_eq_error_iff (h : Follows dialect machine m) (panic : Panic) :
    next dialect machine m = .error panic ↔
      ∃ fault, panic = .fault fault ∧ m.Faulty dialect fault := by
  cases h with
  | ended hended hnext =>
      rw [hnext]
      refine ⟨fun h => (nomatch h), ?_⟩
      rintro ⟨fault, -, request, rest, htasks, -⟩
      rw [hended] at htasks
      cases htasks
  | goes hgoes hnext =>
      rw [hnext]
      refine ⟨fun h => (nomatch h), ?_⟩
      rintro ⟨fault, -, hfault⟩
      rw [hfault.next?] at hgoes
      cases hgoes
  | @faulty fault hfault hnext =>
      rw [hnext, Except.error.injEq]
      constructor
      · rintro rfl
        exact ⟨fault, rfl, hfault⟩
      · rintro ⟨fault', rfl, hfault'⟩
        rw [faulty_unique hfault hfault']

end Moments

/-! ## What remains to panic at -/

/-- No frame at all holds a key that no frame below the depth holds. -/
theorem freeBelow_depth_iff (c : Chain ε) (k : κ) : c.FreeBelow c.depth k ↔ c.has k = false := by
  rw [Chain.freeBelow_iff, ← Chain.resolve_eq_innermost?, Chain.resolve_eq_none_iff]

section Panics

omit [Entry ε κ]

variable [BEq ν] [Ord κ] [Display κ] [Display ν]

/--
What a machine does in a run of a command on a chain of bindings: it goes through the moments of
the run, and panics where the value of a key is demanded that no frame binds at that moment.
-/
structure PanicsAtDemands (command : Command (Binding κ ν) (BindingRequest κ ν))
    (before : Session (Binding κ ν)) : Prop where
  reaches : ∀ m, MachineReaches BindingRequest.dialect bindingMachine ⟨before, [.run command]⟩ m ↔
    Reaches (Moment.next? BindingRequest.dialect) ⟨before, [.run command]⟩ m
  panics : ∀ m, MachineReaches BindingRequest.dialect bindingMachine ⟨before, [.run command]⟩ m →
    ∀ panic, next BindingRequest.dialect bindingMachine m = .error panic ↔
      panic = .fault .unbound ∧ ∃ key rest, m.tasks = .run (.keyed (.demand key)) :: rest ∧
        m.session.chain.has key = false

/-- What a machine does in a run of a command on a chain of names, where it never panics. -/
structure NeverPanics (command : Command (Member κ) (NameRequest κ)) (before : Session (Member κ)) :
    Prop where
  reaches : ∀ m, MachineReaches NameRequest.dialect nameMachine ⟨before, [.run command]⟩ m ↔
    Reaches (Moment.next? NameRequest.dialect) ⟨before, [.run command]⟩ m
  goesOn : ∀ m, MachineReaches NameRequest.dialect nameMachine ⟨before, [.run command]⟩ m →
    ∃ m', next NameRequest.dialect nameMachine m = .ok m'

/-- Within the bounds a command on bindings panics at an unbound demand and nowhere else. -/
theorem panicsAtDemands {command : Command (Binding κ ν) (BindingRequest κ ν)}
    {before : Session (Binding κ ν)}
    (h : Bounded BindingRequest.dialect bindingMachine ⟨before, [.run command]⟩) :
    PanicsAtDemands command before := by
  have hmachine : bindingMachine.Implements (BindingRequest.dialect (κ := κ) (ν := ν)) :=
    fun _ _ hfits hindex => fulfilBinding_eq hfits hindex
  have hreaches := fun m => machineReaches_iff (m := m) hmachine h
  refine ⟨hreaches, fun m hm panic => ?_⟩
  rw [next_eq_error_iff (follows_of_reaches hmachine h ((hreaches m).mp hm))]
  constructor
  · rintro ⟨fault, rfl, request, rest, htasks, hfault⟩
    rcases (request.fulfil_eq_error_iff m.session.chain fault).mp hfault with ⟨key, rfl, hfree⟩
    cases fault
    exact ⟨rfl, key, rest, htasks, (freeBelow_depth_iff _ _).mp hfree⟩
  · rintro ⟨rfl, key, rest, htasks, hfree⟩
    refine ⟨.unbound, rfl, .demand key, rest, htasks, ?_⟩
    exact (BindingRequest.fulfil_eq_error_iff _ _ _).mpr
      ⟨key, rfl, (freeBelow_depth_iff _ _).mpr hfree⟩

omit [BEq ν] [Display ν] in
/-- Within the bounds a command on names does not panic. -/
theorem neverPanics {command : Command (Member κ) (NameRequest κ)} {before : Session (Member κ)}
    (h : Bounded NameRequest.dialect nameMachine ⟨before, [.run command]⟩) :
    NeverPanics command before := by
  have hmachine : nameMachine.Implements (NameRequest.dialect (κ := κ)) :=
    fun _ _ hfits hindex => fulfilName_eq hfits hindex
  have hreaches := fun m => machineReaches_iff (m := m) hmachine h
  refine ⟨hreaches, fun m hm => ?_⟩
  cases follows_of_reaches hmachine h ((hreaches m).mp hm) with
  | ended _ hnext => exact ⟨none, hnext⟩
  | goes _ hnext => exact ⟨_, hnext⟩
  | faulty hfault _ =>
      rcases hfault with ⟨request, rest, -, hfault⟩
      cases request <;> cases hfault

/--
As long as the depth is a word, no operation on a stack traps, whatever index it is given: the
depth does not overflow, nothing is subtracted from zero, no slice ends beyond the pushed frames,
and a search comes to the index of a frame.  So no client of a stack panics, no run on a chain of
names does, and a run on a chain of bindings does only where an unbound key is demanded.
-/
theorem demand_is_only_panic :
    (∀ {φ : Type} (s : Stack φ), s.Fits → StaysInBounds s) ∧
    (∀ {φ β : Type} (client : Stack.Client φ β) (s : Stack φ), Within client s →
      runClient client s = .ok (client.run s)) ∧
    (∀ (command : Command (Binding κ ν) (BindingRequest κ ν)) (before : Session (Binding κ ν)),
      Bounded BindingRequest.dialect bindingMachine ⟨before, [.run command]⟩ →
        PanicsAtDemands command before) ∧
    (∀ (command : Command (Member κ) (NameRequest κ)) (before : Session (Member κ)),
      Bounded NameRequest.dialect nameMachine ⟨before, [.run command]⟩ →
        NeverPanics command before) :=
  ⟨fun _ => staysInBounds, fun _ _ => runClient_eq, fun _ _ => panicsAtDemands,
    fun _ _ => neverPanics⟩

/--
A search on a stack of two frames, and a scope in which a key is looked up below an index past the
depth, and then demanded in vain.
-/
theorem demand_is_only_panic_in_scope :
    let s : Stack Nat := (Stack.ofRoot 3).push 4
    let client : Stack.Client Nat (Option Nat × Unit) :=
      .ask (.position (fun state n => (n == 3, state)) ()) .done
    let getBelow : Command (Binding Int64 Value) (BindingRequest Int64 Value) :=
      .keyed (.getBelow (UInt64.size - 1) 7)
    let demand : Command (Binding Int64 Value) (BindingRequest Int64 Value) := .keyed (.demand 7)
    let before : Session (Binding Int64 Value) := .start .standard .empty
    let names : Session (Member Int64) := .start .standard .empty
    let last : Moment (Binding Int64 Value) (BindingRequest Int64 Value) :=
      ⟨before.afterPush (.empty before.chain.hasher), [.run demand, .close 1]⟩
    StaysInBounds s ∧ runClient client s = .ok ((some 0, ()), s) ∧
      PanicsAtDemands (.scope [getBelow, demand]) before ∧
      next BindingRequest.dialect bindingMachine last = .error (.fault .unbound) ∧
      NeverPanics (.keyed (.resolve 7)) names := by
  intro s client getBelow demand before names last
  have hs : s.Fits := by decide
  have hwithin : Within client s := .ask hs trivial (.done _ hs)
  have hbefore : before.chain.stack.Fits := by decide
  have hlast : last.session.chain.stack.Fits := by decide
  have hbounded : Bounded BindingRequest.dialect bindingMachine
      ⟨before, [.run (.scope [getBelow, demand])]⟩ := by
    refine ⟨?_, List.forall_mem_singleton.mpr ⟨trivial, ?_, trivial, trivial⟩⟩
    · have hstops : last.next? BindingRequest.dialect = none := rfl
      exact fits_of_next? rfl hbefore (fits_of_next? rfl hlast (fits_of_next?_eq_none hstops hlast))
    · change UInt64.size - 1 < UInt64.size
      decide
  have hnames : Bounded NameRequest.dialect nameMachine
      ⟨names, [.run (.keyed (.resolve 7))]⟩ := by
    refine ⟨?_, List.forall_mem_singleton.mpr trivial⟩
    have hfits : names.chain.stack.Fits := by decide
    exact fits_of_next? rfl hfits (fits_of_next?_eq_none rfl hfits)
  rcases demand_is_only_panic (κ := Int64) (ν := Value) with ⟨hstacks, hclients, hbindings, hsets⟩
  have hpanics := hbindings (.scope [getBelow, demand]) before hbounded
  have hreaches := (hpanics.reaches last).mpr (.head rfl (.single rfl))
  have hunbound : last.session.chain.has 7 = false := by decide +kernel
  exact ⟨hstacks s hs, hclients client s hwithin, hpanics,
    (hpanics.panics last hreaches _).mpr ⟨rfl, 7, [.close 1], rfl, hunbound⟩,
    hsets (.keyed (.resolve 7)) names hnames⟩

end Panics

end Checked
end LexicalScope
