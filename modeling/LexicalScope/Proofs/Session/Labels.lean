import LexicalScope.Proofs.Chain.Labels
import LexicalScope.Proofs.Session.Abandonment

/-!
# Where labels come from

The label of a frame is fixed when the frame is made, and a chain has the label of its own that it
was made with.  Frames are pushed, popped, pushed again, saved and restored as wholes, and their
labels go with them.  So the labels in a session can be told from what was done with whole frames
alone, without looking at a key: an empty frame gets the chain's own label, a frame that is passed
brings its label along, and nothing else makes a label.

A second chain is made with a label of its own.  While a program goes on with it, the session that
was left for it waits, and so there is a stack of sessions, the innermost first.

Main results:

- Theorem {lit}`Moment.labels_of_next?`: what the next step of a program does to all labels.
- Theorem {lit}`Moment.Comes.labels_eq`: the labels at any moment of a program are those that its
  steps with whole frames lead to.
- Theorem {lit}`Moment.Comes.carries`: at any moment every chain and every saved copy has the label
  that the chain was made with, and so has its root.
- Theorem {lit}`Session.labels_follow_frames`: all of this, for chains of bindings and of names.
-/

open StateTransition

namespace LexicalScope

variable {ε ι ρ κ ν : Type}

/-! ## Labels of sessions -/

/-- The labels of a chain, of the saved copies, and of the frame that was popped last. -/
structure Session.Labels where
  chain : Chain.Labels
  saved : List Chain.Labels
  popped : Option Hasher
  deriving DecidableEq

/-- What a session does with whole frames. -/
inductive FrameStep where
  /-- An empty frame is pushed, by request or as a scope begins. -/
  | opened
  /-- A frame with the label is passed, and pushed. -/
  | passed (label : Hasher)
  /-- The frame that was popped last is passed, and pushed. -/
  | passedPopped
  /-- The current frame is popped by request, and remembered. -/
  | taken
  /-- The current frame is popped as a scope ends. -/
  | closed
  /-- A copy of the chain is saved. -/
  | saved
  /-- A saved copy takes the place of the chain. -/
  | restored (copy : Nat)

/-- What a program does with whole frames, and with whole chains. -/
inductive Structural where
  /-- Something is done with frames of the chain that the program is at. -/
  | onFrames (step : FrameStep)
  /-- A second chain is made with the label, and the program goes on with it. -/
  | entered (label : Hasher)
  /-- The program is done with a second chain, and comes back from it. -/
  | left
  /-- After a fault all that was still to be done is given up, on second chains too. -/
  | givenUp

namespace Session.Labels

/-- The labels of a session whose chain is just made. -/
def created (label : Hasher) : Labels :=
  ⟨.created label, [], none⟩

/-- The labels after a frame was pushed. -/
def push (l : Labels) (label : Hasher) : Labels :=
  { l with chain := l.chain.push label }

/-- The labels after something was done with frames. -/
def after (l : Labels) : FrameStep → Labels
  | .opened => l.push l.chain.own
  | .passed label => l.push label
  | .passedPopped => l.popped.elim l l.push
  | .taken => { l with chain := l.chain.pop.2, popped := l.chain.pop.1.or l.popped }
  | .closed => { l with chain := l.chain.pop.2 }
  | .saved => { l with saved := l.saved ++ [l.chain] }
  | .restored copy => l.saved[copy]?.elim l fun c => { l with chain := c }

/-- The chain and its saved copies give new frames the label, and their roots have it. -/
structure Carries (label : Hasher) (l : Labels) : Prop where
  chain : l.chain.Carries label
  saved : ∀ c ∈ l.saved, c.Carries label

theorem Carries.created (label : Hasher) : (created label).Carries label :=
  ⟨.created label, nofun⟩

/-- Nothing that is done with frames changes the label of a chain, or that of its root. -/
theorem Carries.after {label : Hasher} {l : Labels} (h : l.Carries label) (step : FrameStep) :
    (l.after step).Carries label := by
  cases step with
  | opened => exact ⟨h.chain.push _, h.saved⟩
  | passed pushed => exact ⟨h.chain.push _, h.saved⟩
  | passedPopped =>
      rw [Labels.after]
      cases l.popped with
      | none => exact h
      | some pushed => exact ⟨h.chain.push pushed, h.saved⟩
  | taken => exact ⟨h.chain.pop, h.saved⟩
  | closed => exact ⟨h.chain.pop, h.saved⟩
  | saved =>
      refine ⟨h.chain, fun c hc => ?_⟩
      rcases List.mem_append.mp hc with hold | hnew
      · exact h.saved c hold
      · rw [List.mem_singleton.mp hnew]
        exact h.chain
  | restored copy =>
      rw [Labels.after]
      cases hcopy : l.saved[copy]? with
      | none => exact h
      | some c => exact ⟨h.saved c (List.mem_of_getElem? hcopy), h.saved⟩

end Session.Labels

namespace Structural

/-- The labels of all sessions after a step, the innermost session first. -/
def after : Structural → List Session.Labels → List Session.Labels
  | .onFrames step, sessions => sessions.modifyHead fun l => l.after step
  | .entered label, sessions => .created label :: sessions
  | .left, sessions => sessions.tail
  | .givenUp, sessions => sessions.getLast?.toList

/-- The labels that the chains of all sessions were made with, after a step. -/
def creations : Structural → List Hasher → List Hasher
  | .onFrames _, labels => labels
  | .entered label, labels => label :: labels
  | .left, labels => labels.tail
  | .givenUp, labels => labels.getLast?.toList

/-- The labels of all sessions after a list of steps. -/
def afterAll (steps : List Structural) (sessions : List Session.Labels) : List Session.Labels :=
  steps.foldl (fun sessions step => step.after sessions) sessions

/-- The labels that the chains of all sessions were made with, after a list of steps. -/
def creationsAll (steps : List Structural) (labels : List Hasher) : List Hasher :=
  steps.foldl (fun labels step => step.creations labels) labels

/-- Steps in a row change the labels one after the other. -/
theorem afterAll_append (first second : List Structural) (sessions : List Session.Labels) :
    afterAll (first ++ second) sessions = afterAll second (afterAll first sessions) :=
  List.foldl_append

/-- Steps in a row make chains one after the other. -/
theorem creationsAll_append (first second : List Structural) (labels : List Hasher) :
    creationsAll (first ++ second) labels = creationsAll second (creationsAll first labels) :=
  List.foldl_append

/-- The label that the outermost chain was made with stays, as long as this chain is not left. -/
theorem getLast?_creations (step : Structural) {labels : List Hasher} {label : Hasher}
    (h : labels.getLast? = some label) (hleft : step = .left → 1 < labels.length) :
    (step.creations labels).getLast? = some label := by
  cases step with
  | onFrames step => exact h
  | entered other => rw [creations, List.getLast?_cons, h, Option.getD_some]
  | left =>
      rcases labels with _ | ⟨first, _ | ⟨second, rest⟩⟩
      · cases h
      · exact absurd (hleft rfl) (Nat.lt_irrefl 1)
      · exact h
  | givenUp =>
      rw [creations, h]
      rfl

/-- Every chain goes on with the label that it was made with. -/
theorem carries_after (step : Structural) {sessions : List Session.Labels} {labels : List Hasher}
    (h : List.Forall₂ (fun l label => l.Carries label) sessions labels) :
    List.Forall₂ (fun l label => l.Carries label) (step.after sessions)
      (step.creations labels) := by
  cases step with
  | onFrames step =>
      cases h with
      | nil => exact .nil
      | cons hcurrent houter => exact .cons (hcurrent.after step) houter
  | entered label => exact .cons (.created label) h
  | left =>
      cases h with
      | nil => exact .nil
      | cons _ houter => exact houter
  | givenUp =>
      have hlast := rel_getElem? h (sessions.length - 1)
      have hlength := h.length_eq
      rw [after, creations, List.getLast?_eq_getElem?, List.getLast?_eq_getElem?, ← hlength]
      rcases optionRel_cases hlast with ⟨hnone, hnone'⟩ | ⟨l, label, hsome, hsome', hcarries⟩
      · rw [hnone, hnone']
        exact .nil
      · rw [hsome, hsome']
        exact .cons hcarries .nil

/-- The labels of all sessions carry those with which their chains were made. -/
theorem carries_afterAll (steps : List Structural) {sessions : List Session.Labels}
    {labels : List Hasher} (h : List.Forall₂ (fun l label => l.Carries label) sessions labels) :
    List.Forall₂ (fun l label => l.Carries label) (afterAll steps sessions)
      (creationsAll steps labels) := by
  induction steps generalizing sessions labels with
  | nil => exact h
  | cons step steps ih => exact ih (step.carries_after h)

end Structural

variable [Entry ε κ] [BEq κ]

/-- A chain is made with one label: it is the chain's own, and the root has it. -/
theorem Start.labels_chain (start : Start ε) (hasher : Hasher) :
    (start.chain hasher).labels = .created (start.chain hasher).hasher := by
  cases start <;> rfl

namespace Session

/-- The labels of a session. -/
def labels (s : Session ε) : Labels :=
  ⟨s.chain.labels, s.saved.toList.map Chain.labels, s.popped.map Frame.hasher⟩

/-- At the start there is the label of the chain that is just made. -/
theorem labels_start (hasher : Hasher) (init : Start ε) :
    (start hasher init).labels = .created (init.chain hasher).hasher := by
  rw [labels, start, init.labels_chain]
  rfl

/-- A push adds the label of the frame. -/
theorem labels_afterPush (s : Session ε) (frame : Frame ε) :
    (s.afterPush frame).labels = s.labels.push frame.hasher := by
  rw [labels, afterPush, Chain.labels_pushFrame]
  rfl

/-- Pushing the popped frame again adds the label that was remembered. -/
theorem labels_repush (s : Session ε) :
    (s.popped.elim s s.afterPush).labels = s.labels.after .passedPopped := by
  rw [Labels.after]
  cases hpopped : s.popped with
  | none =>
      rw [show s.labels.popped = none by rw [labels, hpopped]; rfl]
      rfl
  | some frame =>
      rw [show s.labels.popped = some frame.hasher by rw [labels, hpopped]; rfl]
      exact s.labels_afterPush frame

/-- A pop at the end of a scope takes the last label off, but not that of the root. -/
theorem labels_afterPop (s : Session ε) : s.afterPop.labels = s.labels.after .closed := by
  have hpop := congrArg Prod.snd s.chain.labels_pop
  rw [labels, afterPop]
  dsimp only at hpop ⊢
  rw [hpop]
  rfl

/-- A pop by request also remembers the label that it takes off. -/
theorem labels_remember (s : Session ε) :
    { s.afterPop with popped := s.chain.pop.1.toOption.or s.popped : Session ε }.labels =
      s.labels.after .taken := by
  have hpop := congrArg Prod.snd s.chain.labels_pop
  have hframe := congrArg Prod.fst s.chain.labels_pop
  rw [labels, afterPop]
  dsimp only at hpop hframe ⊢
  rw [hpop, Option.map_or, hframe]
  rfl

/-- Saving a copy saves the labels. -/
theorem labels_save (s : Session ε) :
    { s with saved := s.saved.push s.chain : Session ε }.labels = s.labels.after .saved := by
  rw [labels, Array.toList_push, List.map_append]
  rfl

/-- Restoring a copy restores its labels. -/
theorem labels_restore (s : Session ε) (copy : Nat) :
    (s.saved[copy]?.elim s fun c => { s with chain := c }).labels =
      s.labels.after (.restored copy) := by
  have hcopy : s.labels.saved[copy]? = s.saved[copy]?.map Chain.labels := by
    rw [labels, List.getElem?_map, Array.getElem?_toList]
  rw [Labels.after, hcopy]
  cases s.saved[copy]? <;> rfl

end Session

/-! ## The steps of a program -/

/-- What the first bit of a task does with whole frames or chains, if it does anything with them. -/
def Task.structural? (s : Session ε) : Task ε ι → Option Structural
  | .close depth => if depth < s.chain.depth then some (.onFrames .closed) else none
  | .rejoin _ => some .left
  | .run command =>
    match command with
    | .push | .scope _ | .nest (_ + 1) _ => some (.onFrames .opened)
    | .pushFrame entries mark =>
      let frame : Frame ε := .ofList (s.hasher.withMark mark) entries
      some (.onFrames (.passed frame.hasher))
    | .pop => some (.onFrames .taken)
    | .pushPopped => some (.onFrames .passedPopped)
    | .save => some (.onFrames .saved)
    | .restore copy => some (.onFrames (.restored copy))
    | .equalsOther start mark _ => some (.entered (start.chain (s.hasher.withMark mark)).hasher)
    | .keyed _ | .nest 0 _ | .rounds _ _ | .depth | .hashers | .root | .top | .frame _ => none
    | .frames | .framesBelow _ | .positionOfSize _ | .visible | .visibleFrames _ => none
    | .visibleHints | .display _ | .equalsSaved _ | .stackEqualsSaved _ => none

namespace Moment

/-- The session that the program is at, and those that wait for it to come back. -/
def sessions (m : Moment ε ι) : List (Session ε) :=
  m.session :: mains m.tasks

/-- The labels of all these sessions. -/
def labels (m : Moment ε ι) : List Session.Labels :=
  m.sessions.map Session.labels

/-- What the next task does with whole frames or chains, if it does anything with them. -/
def structural? : Moment ε ι → Option Structural
  | ⟨_, []⟩ => none
  | ⟨s, task :: _⟩ => task.structural? s

variable {dialect : Dialect ε ι ρ}

/-- Tasks that leave no session behind leave those that wait already. -/
theorem labels_append (s : Session ε) {tasks : List (Task ε ι)} (h : mains tasks = [])
    (rest : List (Task ε ι)) :
    labels ⟨s, tasks ++ rest⟩ = s.labels :: (mains rest).map Session.labels := by
  rw [labels, sessions, List.map_cons, mains_append, h, List.nil_append]

/-- What comes of the first bit of a task changes the labels as it says, and no other way. -/
theorem labels_of_begin? (hdialect : dialect.KeepsLabels) {task : Task ε ι} {s after : Session ε}
    {tasks : List (Task ε ι)} (h : task.begin? dialect s = some (after, tasks))
    (rest : List (Task ε ι)) :
    labels ⟨after, tasks ++ rest⟩ =
      Structural.afterAll (task.structural? s).toList (labels ⟨s, task :: rest⟩) := by
  have hscope : ∀ body : List (Command ε ι), mains (body.map .run ++ [.close s.chain.depth]) = [] :=
    fun body => by rw [mains_append, mains_run, mains_close]; rfl
  cases task with
  | close depth =>
      rw [Task.begin?] at h
      rw [Task.structural?]
      split at h
      · next hdepth =>
        cases h
        rw [labels_append _ (mains_close depth), s.labels_afterPop, if_pos hdepth]
        rfl
      · next hdepth =>
        cases h
        rw [if_neg hdepth]
        rfl
  | rejoin main =>
      cases h
      rfl
  | run command =>
      cases command with
      | keyed request =>
          have hlabels := hdialect request s.chain
          rw [Task.begin?] at h
          rcases hs : dialect.fulfil request s.chain with ⟨fault | answer, c⟩
          · rw [hs] at h
            cases h
          · rw [hs] at h hlabels
            cases h
            rw [labels_append _ rfl, Session.labels, hlabels]
            rfl
      | push =>
          cases h
          rw [labels_append _ rfl, s.labels_afterPush]
          rfl
      | pushFrame entries mark =>
          cases h
          rw [labels_append _ rfl, s.labels_afterPush]
          rfl
      | pop =>
          cases h
          rw [labels_append _ rfl, s.labels_remember]
          rfl
      | pushPopped =>
          cases h
          rw [labels_append _ rfl, s.labels_repush]
          rfl
      | scope body =>
          cases h
          rw [labels_append _ (hscope body), s.labels_afterPush]
          rfl
      | nest n body =>
          cases n with
          | zero =>
              cases h
              rw [labels_append _ (mains_run body)]
              rfl
          | succ n =>
              cases h
              rw [labels_append _ rfl, s.labels_afterPush]
              rfl
      | rounds n body =>
          cases h
          rw [labels_append _ (mains_replicate n (mains_run body))]
          rfl
      | save =>
          cases h
          rw [labels_append _ rfl, s.labels_save]
          rfl
      | restore copy =>
          cases h
          rw [labels_append _ rfl, s.labels_restore]
          rfl
      | equalsOther start mark body =>
          cases h
          rw [labels, sessions, List.append_assoc, mains_append, mains_run, List.map_cons,
            Session.labels, start.labels_chain]
          rfl
      | depth | hashers | root | top | frame | frames | framesBelow | positionOfSize | visible
      | visibleFrames | visibleHints | display | equalsSaved | stackEqualsSaved =>
          cases h
          rfl

/-- The next step of a program changes the labels as it says, and no other way. -/
theorem labels_of_next? (hdialect : dialect.KeepsLabels) {m m' : Moment ε ι}
    (h : m.next? dialect = some m') :
    m'.labels = Structural.afterAll m.structural?.toList m.labels := by
  rcases m with ⟨s, _ | ⟨task, rest⟩⟩
  · cases h
  · rcases Option.map_eq_some_iff.mp h with ⟨⟨after, tasks⟩, hbegin, rfl⟩
    exact labels_of_begin? hdialect hbegin rest

/-- When a second chain is left, a session waits for that. -/
theorem one_lt_length_labels {m : Moment ε ι} (h : m.structural? = some .left) :
    1 < m.labels.length := by
  rcases m with ⟨s, _ | ⟨task, rest⟩⟩
  · cases h
  · cases task with
    | close depth =>
        rw [structural?, Task.structural?] at h
        split at h <;> cases h
    | rejoin main => exact Nat.succ_lt_succ (Nat.succ_pos _)
    | run command =>
        cases command with
        | nest n body => cases n <;> cases h
        | _ => cases h

/-- If all tasks are given up, the session that waited longest is what stays. -/
theorem labels_abandoned (m : Moment ε ι) :
    labels ⟨m.abandoned, ([] : List (Task ε ι))⟩ = Structural.givenUp.after m.labels := by
  change [m.abandoned.labels] = ((m.session :: mains m.tasks).map Session.labels).getLast?.toList
  rw [List.getLast?_map, List.getLast?_cons, abandoned]
  cases (mains m.tasks).getLast? <;> rfl

/-! ## Moments of programs -/

/--
From the origin the program has come to the moment, and these are the steps that it made with whole
frames and chains.  A command is begun when all tasks of the one before it are done, and at a fault
all tasks are given up.
-/
inductive Comes (dialect : Dialect ε ι ρ) (origin : Session ε) :
    List (Command ε ι) → List Structural → Moment ε ι → Prop where
  | origin : Comes dialect origin [] [] ⟨origin, []⟩
  | command {program : List (Command ε ι)} {steps : List Structural} {s : Session ε}
      (h : Comes dialect origin program steps ⟨s, []⟩) (command : Command ε ι) :
      Comes dialect origin (program ++ [command]) steps ⟨{ s with log := #[] }, [.run command]⟩
  | next {program : List (Command ε ι)} {steps : List Structural} {m m' : Moment ε ι}
      (h : Comes dialect origin program steps m) (hnext : m.next? dialect = some m') :
      Comes dialect origin program (steps ++ m.structural?.toList) m'
  | fault {program : List (Command ε ι)} {steps : List Structural} {m : Moment ε ι} {fault : Fault}
      (h : Comes dialect origin program steps m) (hfaulty : m.Faulty dialect fault) :
      Comes dialect origin program (steps ++ [.givenUp]) ⟨m.abandoned, []⟩

namespace Comes

variable {origin : Session ε} {program : List (Command ε ι)} {steps : List Structural}
  {m : Moment ε ι}

/-- The labels at a moment are those that the steps with whole frames and chains lead to. -/
theorem labels_eq (hdialect : dialect.KeepsLabels) (h : Comes dialect origin program steps m) :
    m.labels = Structural.afterAll steps [origin.labels] := by
  induction h with
  | origin => rfl
  | command _ _ ih => exact ih
  | next _ hnext ih => rw [labels_of_next? hdialect hnext, ih, ← Structural.afterAll_append]
  | fault _ _ ih =>
      rw [labels_abandoned, ih, Structural.afterAll_append]
      rfl

/-- All sessions carry on with the labels that their chains were made with. -/
theorem carries (hdialect : dialect.KeepsLabels) {label : Hasher}
    (horigin : origin.labels.Carries label) (h : Comes dialect origin program steps m) :
    List.Forall₂ (fun l label => l.Carries label) m.labels
      (Structural.creationsAll steps [label]) := by
  rw [h.labels_eq hdialect]
  exact Structural.carries_afterAll steps (.cons horigin .nil)

/-- The session that waits longest is on the chain that the program began with. -/
theorem getLast?_creationsAll (hdialect : dialect.KeepsLabels) {label : Hasher}
    (horigin : origin.labels.Carries label) (h : Comes dialect origin program steps m) :
    (Structural.creationsAll steps [label]).getLast? = some label := by
  induction h with
  | origin => rfl
  | command _ _ ih => exact ih
  | fault _ _ ih =>
      rw [Structural.creationsAll_append]
      exact Structural.givenUp.getLast?_creations ih nofun
  | @next program steps m m' hm hnext ih =>
      have hlength := (hm.carries hdialect horigin).length_eq
      rw [Structural.creationsAll_append]
      cases hstep : m.structural? with
      | none => exact ih
      | some step =>
          refine step.getLast?_creations ih fun hleft => ?_
          rw [← hlength]
          exact one_lt_length_labels (hleft ▸ hstep)

/-- Whatever follows from a moment that a program comes to, the program comes to it too. -/
theorem reaches (h : Comes dialect origin program steps m) {m' : Moment ε ι}
    (hreaches : Reaches (next? dialect) m m') :
    ∃ steps', Comes dialect origin program steps' m' := by
  induction hreaches with
  | refl => exact ⟨steps, h⟩
  | tail _ hnext ih =>
      rcases ih with ⟨steps', hmiddle⟩
      exact ⟨_, hmiddle.next hnext⟩

end Comes

end Moment

namespace Session

variable [Ord κ] {dialect : Dialect ε ι ρ}

/-- A program comes to the session that it ends in. -/
theorem comes_run (hdialect : dialect.FaultsInPlace) {origin s : Session ε}
    {done : List (Command ε ι)} {steps : List Structural}
    (h : Moment.Comes dialect origin done steps ⟨s, []⟩) (program : List (Command ε ι)) :
    ∃ steps', Moment.Comes dialect origin (done ++ program) steps'
      ⟨(run dialect program s).2, []⟩ := by
  induction program generalizing s done steps with
  | nil =>
      rw [List.append_nil]
      exact ⟨steps, h⟩
  | cons command rest ih =>
      have hstep : ∃ steps', Moment.Comes dialect origin (done ++ [command]) steps'
          ⟨(step dialect command s).after, []⟩ := by
        have hbegun := h.command command
        unfold step
        cases hexec : exec dialect command { s with log := #[] } with
        | ok answer after =>
            exact hbegun.reaches ((exec_eq_ok_iff hdialect _ _ _).mp ⟨answer, hexec⟩)
        | error fault after =>
            rcases (exec_eq_error_iff hdialect _ _ _ _).mp hexec with ⟨m, hreaches, hfaulty, rfl⟩
            rcases hbegun.reaches hreaches with ⟨steps', hm⟩
            exact ⟨_, hm.fault hfaulty⟩
      rcases hstep with ⟨steps', hafter⟩
      rcases ih hafter with ⟨last, hlast⟩
      rw [List.append_assoc] at hlast
      exact ⟨last, hlast⟩

/-- The chain and its saved copies give new frames the label, and their roots have it. -/
structure Carries (label : Hasher) (s : Session ε) : Prop where
  own : s.chain.hasher = label
  root : s.chain.stack.root.hasher = label
  saved : ∀ c ∈ s.saved, c.hasher = label ∧ c.stack.root.hasher = label

omit [Ord κ] in
/-- What the labels carry, the frames themselves do. -/
theorem carries_of_labels {label : Hasher} {s : Session ε} (h : s.labels.Carries label) :
    s.Carries label := by
  refine ⟨h.chain.own, Option.some.inj h.chain.root, fun c hc => ?_⟩
  have hcopy := h.saved c.labels (List.mem_map_of_mem (Array.mem_toList_iff.mpr hc))
  exact ⟨hcopy.own, Option.some.inj hcopy.root⟩

/-- All labels in the sessions of a dialect come from what is done with whole frames and chains. -/
structure LabelsFollow (dialect : Dialect ε ι ρ) : Prop where
  /-- No request about keys changes a label. -/
  keyed : dialect.KeepsLabels
  /-- A program comes to the session that it ends in. -/
  ends : ∀ (hasher : Hasher) (init : Start ε) (program : List (Command ε ι)), ∃ steps,
    Moment.Comes dialect (start hasher init) program steps
      ⟨(run dialect program (start hasher init)).2, []⟩
  /-- It comes to all moments of a command that is run after it. -/
  moments : ∀ (hasher : Hasher) (init : Start ε) (program : List (Command ε ι))
    (command : Command ε ι) (m : Moment ε ι),
    Reaches (Moment.next? dialect)
      ⟨{ (run dialect program (start hasher init)).2 with log := #[] }, [.run command]⟩ m →
    ∃ steps, Moment.Comes dialect (start hasher init) (program ++ [command]) steps m
  /-- At each moment, the labels are those that its steps with frames and chains lead to. -/
  labels : ∀ (hasher : Hasher) (init : Start ε) (program : List (Command ε ι))
    (steps : List Structural) (m : Moment ε ι),
    Moment.Comes dialect (start hasher init) program steps m →
    m.labels = Structural.afterAll steps [.created (init.chain hasher).hasher]
  /-- At each moment, all chains and saved copies have the label that the chain was made with. -/
  carries : ∀ (hasher : Hasher) (init : Start ε) (program : List (Command ε ι))
    (steps : List Structural) (m : Moment ε ι),
    Moment.Comes dialect (start hasher init) program steps m →
    List.Forall₂ (fun s label => s.Carries label) m.sessions
        (Structural.creationsAll steps [(init.chain hasher).hasher]) ∧
      (Structural.creationsAll steps [(init.chain hasher).hasher]).getLast? =
        some (init.chain hasher).hasher

/-- If no request changes a label and faults change nothing, labels follow the structural steps. -/
theorem labelsFollow (hlabels : dialect.KeepsLabels) (hfaults : dialect.FaultsInPlace) :
    LabelsFollow dialect where
  keyed := hlabels
  ends hasher init program := comes_run hfaults .origin program
  moments := by
    intro hasher init program command m hreaches
    have horigin : Moment.Comes dialect (start hasher init) [] [] ⟨start hasher init, []⟩ := .origin
    rcases comes_run hfaults horigin program with ⟨steps, hrun⟩
    exact (hrun.command command).reaches hreaches
  labels := by
    intro hasher init program steps m h
    rw [h.labels_eq hlabels, labels_start]
  carries := by
    intro hasher init program steps m h
    have horigin : (start hasher init).labels.Carries (init.chain hasher).hasher := by
      rw [labels_start]
      exact .created _
    refine ⟨?_, h.getLast?_creationsAll hlabels horigin⟩
    have hcarries := h.carries hlabels horigin
    rw [Moment.labels, List.forall₂_map_left_iff] at hcarries
    exact hcarries.imp fun _ _ => carries_of_labels

/--
The labels in a session follow from what is done with whole frames, whatever program runs and
however the session was started.  At every moment, each chain and each copy saved of it has the
label that the chain was made with, and so has its root.  An empty frame gets this label when it is
pushed or when a scope begins; a frame that is passed keeps its own, and takes it along when it is
popped, pushed again, saved and restored.  No request about keys changes a label.
-/
theorem labels_follow_frames [BEq ν] [Display κ] [Display ν] :
    LabelsFollow (BindingRequest.dialect : Dialect (Binding κ ν) _ _) ∧
      LabelsFollow (NameRequest.dialect : Dialect (Member κ) _ _) :=
  ⟨labelsFollow BindingRequest.keepsLabels BindingRequest.faultsInPlace,
    labelsFollow NameRequest.keepsLabels NameRequest.faultsInPlace⟩

/-- A frame with another label is popped from within a scope, which the next frame replaces. -/
example :
    let program : List (Command (Binding Int64 Value) (BindingRequest Int64 Value)) :=
      [.pushFrame [] (some 7), .save, .scope [.pop, .pop, .push], .pushPopped, .save, .restore 0]
    (run BindingRequest.dialect program (start (.marked 1) .empty)).2.labels =
      ⟨⟨.marked 1, [.marked 1, .marked 7]⟩, [⟨.marked 1, [.marked 1, .marked 7]⟩,
        ⟨.marked 1, [.marked 1, .marked 1, .marked 7]⟩], some (.marked 7)⟩ := by
  decide +kernel

end Session
end LexicalScope
