import LexicalScope.Key.CaseFolded
import LexicalScope.Proofs.Chain.Histories
import LexicalScope.Proofs.Session.Labels

/-!
# Chronicles of sessions

The chronicle of a session holds the histories of all its frames: of those in the chain and in the
saved copies, and of the frame that was popped last.  It is made of plain lists and knows nothing
of frames and chains; it follows the tasks of the program alone.  A frame that is pushed begins a
history, with an insertion for each entry that it is made of.  A request about keys adds an edit to
the history of one frame.  Popping and pushing again, saving and restoring move whole histories.

While a program goes on with a second chain, the chronicle of the session that was left for it
waits, and so there is a stack of chronicles, the innermost first.

Main results:

- Theorem {lit}`Moment.follows_of_begin?`: what the next step of a program does to all frames is
  what it does to their histories.
- Theorem {lit}`Moment.Chronicled.follows`: at every moment that a program comes to, all frames are
  as their histories tell.
- Theorem {lit}`Session.frames_follow_histories`: all of this, for chains of bindings and of names.
-/

open StateTransition

namespace LexicalScope

variable {ε ι ρ κ ν : Type}

/-! ## Chronicles -/

/-- The histories of the frames of a chain, of its saved copies, and of the frame popped last. -/
structure Session.Histories (κ ν : Type) where
  chain : List (History κ ν)
  saved : List (List (History κ ν))
  popped : Option (History κ ν)

namespace Session.Histories

/-- The histories at the start: the root has none yet, or it is made of entries. -/
def start (view : ε → Binding κ ν) : Start ε → Histories κ ν
  | .unchosen | .empty => ⟨[[]], [], none⟩
  | .seeded entries => ⟨[.ofEntries view entries], [], none⟩

/-- A frame is pushed along with its history. -/
def push (h : Histories κ ν) (frame : History κ ν) : Histories κ ν :=
  { h with chain := h.chain ++ [frame] }

/-- The frame that was popped last is pushed along with its history, if there is one. -/
def repush (h : Histories κ ν) : Histories κ ν :=
  h.popped.elim h h.push

/-- The current frame is popped along with its history, unless it is the root. -/
def pop (h : Histories κ ν) : Histories κ ν :=
  if 1 < h.chain.length then { h with chain := h.chain.dropLast } else h

/-- The current frame is popped and remembered along with its history, unless it is the root. -/
def take (h : Histories κ ν) : Histories κ ν :=
  if 1 < h.chain.length then { h with chain := h.chain.dropLast, popped := h.chain.getLast? }
  else h

/-- A copy is saved along with the histories of its frames. -/
def save (h : Histories κ ν) : Histories κ ν :=
  { h with saved := h.saved ++ [h.chain] }

/-- A saved copy takes the place of the chain, and so do the histories of its frames. -/
def restore (h : Histories κ ν) (copy : Nat) : Histories κ ν :=
  h.saved[copy]?.elim h fun frames => { h with chain := frames }

/-- What is noted of a request about keys is added to the history of a frame. -/
def note [BEq κ] (h : Histories κ ν) (note? : Option (Note κ ν)) : Histories κ ν :=
  { h with chain := note?.elim h.chain fun note => note.after h.chain }

end Session.Histories

/-- The chronicles of all sessions after the first bit of a task, the innermost session first. -/
def Task.chronicle [Entry ε κ] [BEq κ] (view : ε → Binding κ ν) (note? : ι → Option (Note κ ν))
    (task : Task ε ι) (sessions : List (Session.Histories κ ν)) : List (Session.Histories κ ν) :=
  match task with
  | .close depth => sessions.modifyHead fun h => if depth < h.chain.length then h.pop else h
  | .rejoin _ => sessions.tail
  | .run command =>
    match command with
    | .keyed request => sessions.modifyHead fun h => h.note (note? request)
    | .push | .scope _ | .nest (_ + 1) _ => sessions.modifyHead fun h => h.push []
    | .pushFrame entries _ => sessions.modifyHead fun h => h.push (.ofEntries view entries)
    | .pop => sessions.modifyHead .take
    | .pushPopped => sessions.modifyHead .repush
    | .save => sessions.modifyHead .save
    | .restore copy => sessions.modifyHead fun h => h.restore copy
    | .equalsOther start _ _ => .start view start :: sessions
    | .nest 0 _ | .rounds _ _ | .depth | .hashers | .root | .top | .frame _ | .frames => sessions
    | .framesBelow _ | .positionOfSize _ | .visible | .visibleFrames _ | .visibleHints => sessions
    | .display _ | .equalsSaved _ | .stackEqualsSaved _ => sessions

/-! ## Sessions that follow their chronicles -/

/-- All frames of a session, of its saved copies and the one popped last follow their histories. -/
structure Session.Follows [Entry ε κ] [BEq κ] (view : ε → Binding κ ν) (s : Session ε)
    (h : Histories κ ν) : Prop where
  chain : Chain.Follows view s.chain h.chain
  saved : List.Forall₂ (Chain.Follows view) s.saved.toList h.saved
  popped : Option.Rel (Frame.Follows view) s.popped h.popped

variable [Entry ε κ] [BEq κ] {view : ε → Binding κ ν}

/-- A frame that is pushed brings its history along. -/
theorem Chain.Follows.pushFrame {c : Chain ε} {frames : List (History κ ν)} {frame : Frame ε}
    {history : History κ ν} (h : Chain.Follows view c frames)
    (hframe : frame.Follows view history) :
    Chain.Follows view (c.pushFrame frame) (frames ++ [history]) := by
  change List.Forall₂ _ (c.stack.push frame).toList _
  rw [Stack.toList_push]
  exact List.rel_append h (.cons hframe .nil)

/-- A frame above the root that is popped takes its history along. -/
theorem Chain.Follows.pop {c : Chain ε} {frames : List (History κ ν)}
    (h : Chain.Follows view c frames) (hdepth : 1 < c.depth) :
    ∃ history, c.pop.1 = .ok c.stack.top ∧ frames.getLast? = some history ∧
      c.stack.top.Follows view history ∧ Chain.Follows view c.pop.2 frames.dropLast := by
  have hpop : c.pop = (.ok c.stack.top, { c with stack := c.stack.keep (c.depth - 1) }) := by
    rw [Chain.pop, c.stack.pop_of_one_lt_depth hdepth]
    rfl
  have htop := h.frame? (c.depth - 1)
  rw [c.frame?_top, h.depth, ← List.getLast?_eq_getElem?] at htop
  rcases optionRel_cases htop with ⟨hnone, -⟩ | ⟨frame, history, hframe, hlast, hfollows⟩
  · cases hnone
  · cases hframe
    refine ⟨history, by rw [hpop], hlast, hfollows, ?_⟩
    rw [hpop, List.dropLast_eq_take, ← h.depth]
    change List.Forall₂ _ (c.stack.keep (c.depth - 1)).toList _
    rw [Stack.toList_keep _ (by omega)]
    exact List.forall₂_take _ h

/-- The root alone is not popped. -/
theorem Chain.pop_of_depth_le_one {c : Chain ε} (h : ¬1 < c.depth) :
    c.pop = (.error .underflow, c) := by
  have hpos : 0 < c.depth := c.stack.depth_pos
  exact c.pop_of_depth_eq_one (Nat.le_antisymm (Nat.not_lt.mp h) hpos)

namespace Session.Follows

variable {s : Session ε} {h : Histories κ ν}

/-- A session begins along with its chronicle. -/
theorem start [EquivBEq κ] (hview : Entry.SeenAs view) (hasher : Hasher) (init : Start ε)
    (log : Array Event) :
    Follows view ⟨hasher, init.chain hasher, #[], none, log⟩ (.start view init) := by
  cases init with
  | unchosen | empty => exact ⟨.cons (.empty _) .nil, .nil, .none⟩
  | seeded entries => exact ⟨.cons (.ofList hview _ entries) .nil, .nil, .none⟩

/-- The events do not matter. -/
theorem withLog (hs : s.Follows view h) (log : Array Event) :
    Follows view { s with log := log } h :=
  ⟨hs.chain, hs.saved, hs.popped⟩

/-- A frame that is pushed brings its history along. -/
theorem push (hs : s.Follows view h) {frame : Frame ε} {history : History κ ν}
    (hframe : frame.Follows view history) : (s.afterPush frame).Follows view (h.push history) :=
  ⟨hs.chain.pushFrame hframe, hs.saved, hs.popped⟩

/-- The frame that was popped last brings its history along when it is pushed again. -/
theorem repush (hs : s.Follows view h) : (s.popped.elim s s.afterPush).Follows view h.repush := by
  rw [Histories.repush]
  rcases optionRel_cases hs.popped with ⟨hnone, hnone'⟩ | ⟨frame, history, hsome, hsome', hframe⟩
  · rw [hnone, hnone']
    exact hs
  · rw [hsome, hsome']
    exact hs.push hframe

/-- A frame that is popped at the end of a scope takes its history along. -/
theorem pop (hs : s.Follows view h) : s.afterPop.Follows view h.pop := by
  rw [Histories.pop, ← hs.chain.depth]
  split
  · next hdepth =>
    rcases hs.chain.pop hdepth with ⟨history, -, -, -, hchain⟩
    exact ⟨hchain, hs.saved, hs.popped⟩
  · next hdepth =>
    refine ⟨?_, hs.saved, hs.popped⟩
    rw [Session.afterPop, Chain.pop_of_depth_le_one hdepth]
    exact hs.chain

/-- A frame that is popped by request is remembered along with its history. -/
theorem take (hs : s.Follows view h) :
    Follows view { s.afterPop with popped := s.chain.pop.1.toOption.or s.popped } h.take := by
  rw [Histories.take, ← hs.chain.depth]
  split
  · next hdepth =>
    rcases hs.chain.pop hdepth with ⟨history, hok, hlast, htop, hchain⟩
    refine ⟨hchain, hs.saved, ?_⟩
    rw [hok, hlast]
    exact .some htop
  · next hdepth =>
    rw [Session.afterPop, Chain.pop_of_depth_le_one hdepth]
    exact ⟨hs.chain, hs.saved, hs.popped⟩

/-- A copy is saved along with its histories. -/
theorem save (hs : s.Follows view h) :
    Follows view { s with saved := s.saved.push s.chain } h.save := by
  refine ⟨hs.chain, ?_, hs.popped⟩
  rw [Array.toList_push]
  exact List.rel_append hs.saved (.cons hs.chain .nil)

/-- A saved copy brings its histories along. -/
theorem restore (hs : s.Follows view h) (copy : Nat) :
    (s.saved[copy]?.elim s fun c => { s with chain := c }).Follows view (h.restore copy) := by
  have hcopy := rel_getElem? hs.saved copy
  rw [Array.getElem?_toList] at hcopy
  rw [Histories.restore]
  rcases optionRel_cases hcopy with ⟨hnone, hnone'⟩ | ⟨c, frames, hsome, hsome', hc⟩
  · rw [hnone, hnone']
    exact hs
  · rw [hsome, hsome']
    exact ⟨hc, hs.saved, hs.popped⟩

end Session.Follows

/-! ## The steps of a program -/

namespace Moment

variable {dialect : Dialect ε ι ρ} {note? : ι → Option (Note κ ν)}

/-- What the next step of a program does to all frames is what it does to their histories. -/
theorem follows_of_begin? [EquivBEq κ] (hview : Entry.SeenAs view)
    (hnoted : dialect.IsNoted view note?) {task : Task ε ι} {s after : Session ε}
    {tasks : List (Task ε ι)} (hbegin : task.begin? dialect s = some (after, tasks))
    {rest : List (Task ε ι)} {histories : List (Session.Histories κ ν)}
    (h : List.Forall₂ (Session.Follows view) (sessions ⟨s, task :: rest⟩) histories) :
    List.Forall₂ (Session.Follows view) (sessions ⟨after, tasks ++ rest⟩)
      (task.chronicle view note? histories) := by
  cases h with
  | @cons _ current _ waiting hs hrest =>
    -- Tasks that leave no session behind leave those that wait already.
    have hstays : ∀ {after : Session ε} {tasks : List (Task ε ι)} {h : Session.Histories κ ν},
        mains tasks = [] → after.Follows view h → mains (task :: rest) = mains rest →
        List.Forall₂ (Session.Follows view) (sessions ⟨after, tasks ++ rest⟩) (h :: waiting) := by
      intro after tasks h htasks hafter hwaiting
      rw [sessions, mains_append, htasks, List.nil_append, ← hwaiting]
      exact .cons hafter hrest
    have hempty : ∀ hasher, (Frame.empty hasher : Frame ε).Follows view [] := .empty
    have hscope : ∀ body : List (Command ε ι),
        mains (body.map .run ++ [.close s.chain.depth]) = [] :=
      fun body => by rw [mains_append, mains_run, mains_close]; rfl
    cases task with
    | close depth =>
        rw [Task.begin?, hs.chain.depth] at hbegin
        rw [Task.chronicle, List.modifyHead_cons]
        split at hbegin
        · next hdepth =>
          cases hbegin
          rw [if_pos hdepth]
          exact hstays (mains_close depth) hs.pop rfl
        · next hdepth =>
          cases hbegin
          rw [if_neg hdepth]
          exact hstays rfl hs rfl
    | rejoin main =>
        cases hbegin
        cases hrest with
        | cons hmain hwaiting => exact .cons (hmain.withLog s.log) hwaiting
    | run command =>
        cases command with
        | keyed request =>
            have hchain := hnoted request s.chain current.chain hs.chain
            rw [Task.begin?] at hbegin
            rcases hfulfil : dialect.fulfil request s.chain with ⟨fault | answer, c⟩
            · rw [hfulfil] at hbegin
              cases hbegin
            · rw [hfulfil] at hbegin hchain
              cases hbegin
              exact hstays rfl ⟨hchain, hs.saved, hs.popped⟩ rfl
        | push =>
            cases hbegin
            exact hstays rfl (hs.push (hempty _)) rfl
        | pushFrame entries mark =>
            cases hbegin
            exact hstays rfl (hs.push (.ofList hview _ entries)) rfl
        | pop =>
            cases hbegin
            exact hstays rfl hs.take rfl
        | pushPopped =>
            cases hbegin
            exact hstays rfl hs.repush rfl
        | scope body =>
            cases hbegin
            exact hstays (hscope body) (hs.push (hempty _)) rfl
        | nest n body =>
            cases n with
            | zero =>
                cases hbegin
                exact hstays (mains_run body) hs rfl
            | succ n =>
                cases hbegin
                exact hstays rfl (hs.push (hempty _)) rfl
        | rounds n body =>
            cases hbegin
            exact hstays (mains_replicate n (mains_run body)) hs rfl
        | save =>
            cases hbegin
            exact hstays rfl hs.save rfl
        | restore copy =>
            cases hbegin
            exact hstays rfl (hs.restore copy) rfl
        | equalsOther start mark body =>
            cases hbegin
            rw [sessions, List.append_assoc, mains_append, mains_run]
            exact .cons (.start hview _ start s.log) (.cons hs hrest)
        | depth | hashers | root | top | frame | frames | framesBelow | positionOfSize | visible
        | visibleFrames | visibleHints | display | equalsSaved | stackEqualsSaved =>
            cases hbegin
            exact hstays rfl hs rfl

/--
From its start the program has come to the moment, and these are the chronicles of the sessions
that it is at.  A command is begun when all tasks of the one before it are done.  At a fault all
tasks are given up, and what stays is the session that waited longest, with its chronicle.
-/
inductive Chronicled (dialect : Dialect ε ι ρ) (view : ε → Binding κ ν)
    (note? : ι → Option (Note κ ν)) (hasher : Hasher) (init : Start ε) :
    List (Command ε ι) → List (Session.Histories κ ν) → Moment ε ι → Prop where
  | start : Chronicled dialect view note? hasher init [] [.start view init]
      ⟨.start hasher init, []⟩
  | command {program : List (Command ε ι)} {histories : List (Session.Histories κ ν)}
      {s : Session ε} (h : Chronicled dialect view note? hasher init program histories ⟨s, []⟩)
      (command : Command ε ι) : Chronicled dialect view note? hasher init (program ++ [command])
        histories ⟨{ s with log := #[] }, [.run command]⟩
  | next {program : List (Command ε ι)} {histories : List (Session.Histories κ ν)}
      {s after : Session ε} {task : Task ε ι} {rest tasks : List (Task ε ι)}
      (h : Chronicled dialect view note? hasher init program histories ⟨s, task :: rest⟩)
      (hbegin : task.begin? dialect s = some (after, tasks)) :
      Chronicled dialect view note? hasher init program (task.chronicle view note? histories)
        ⟨after, tasks ++ rest⟩
  | fault {program : List (Command ε ι)} {histories : List (Session.Histories κ ν)}
      {m : Moment ε ι} {fault : Fault}
      (h : Chronicled dialect view note? hasher init program histories m)
      (hfaulty : m.Faulty dialect fault) :
      Chronicled dialect view note? hasher init program histories.getLast?.toList
        ⟨m.abandoned, []⟩

/-- Every moment that a program comes to has its chronicles. -/
theorem Comes.exists_chronicled (view : ε → Binding κ ν) (note? : ι → Option (Note κ ν))
    {hasher : Hasher} {init : Start ε} {program : List (Command ε ι)} {steps : List Structural}
    {m : Moment ε ι} (h : Comes dialect (.start hasher init) program steps m) :
    ∃ histories, Chronicled dialect view note? hasher init program histories m := by
  induction h with
  | origin => exact ⟨_, .start⟩
  | command _ command ih =>
      rcases ih with ⟨histories, hm⟩
      exact ⟨_, hm.command command⟩
  | @next program steps m m' _ hnext ih =>
      rcases ih with ⟨histories, hm⟩
      rcases m with ⟨s, _ | ⟨task, rest⟩⟩
      · cases hnext
      · rcases Option.map_eq_some_iff.mp hnext with ⟨⟨after, tasks⟩, hbegin, rfl⟩
        exact ⟨_, hm.next hbegin⟩
  | fault _ hfaulty ih =>
      rcases ih with ⟨histories, hm⟩
      exact ⟨_, hm.fault hfaulty⟩

/-- If all tasks are given up, the session that waited longest still follows its chronicle. -/
theorem follows_abandoned {m : Moment ε ι} {histories : List (Session.Histories κ ν)}
    (h : List.Forall₂ (Session.Follows view) m.sessions histories) :
    List.Forall₂ (Session.Follows view) (sessions ⟨m.abandoned, ([] : List (Task ε ι))⟩)
      histories.getLast?.toList := by
  have hlast := rel_getElem? h (m.sessions.length - 1)
  have hlength := h.length_eq
  rw [← List.getLast?_eq_getElem?, sessions, List.getLast?_cons, ← sessions, hlength,
    ← List.getLast?_eq_getElem?] at hlast
  rcases optionRel_cases hlast with ⟨hnone, -⟩ | ⟨s, current, hs, hcurrent, hfollows⟩
  · cases hnone
  · rw [hcurrent]
    cases hs
    refine .cons ?_ .nil
    rw [abandoned]
    cases hmains : (mains m.tasks).getLast? with
    | none =>
        rw [hmains] at hfollows
        exact hfollows
    | some main =>
        rw [hmains] at hfollows
        exact hfollows.withLog m.session.log

/-- At every moment that a program comes to, all frames are as their histories tell. -/
theorem Chronicled.follows [EquivBEq κ] (hview : Entry.SeenAs view)
    (hnoted : dialect.IsNoted view note?) {hasher : Hasher} {init : Start ε}
    {program : List (Command ε ι)} {histories : List (Session.Histories κ ν)} {m : Moment ε ι}
    (h : Chronicled dialect view note? hasher init program histories m) :
    List.Forall₂ (Session.Follows view) m.sessions histories := by
  induction h with
  | start => exact .cons (.start hview hasher init #[]) .nil
  | command _ _ ih =>
      cases ih with
      | cons hs hnil => exact .cons (hs.withLog #[]) hnil
  | next _ hbegin ih => exact follows_of_begin? hview hnoted hbegin ih
  | fault _ _ ih => exact follows_abandoned ih

end Moment

namespace Session

variable [Ord κ]

/-- All frames in the sessions of a dialect are as their histories tell. -/
structure FramesFollow (dialect : Dialect ε ι ρ) (view : ε → Binding κ ν)
    (note? : ι → Option (Note κ ν)) : Prop where
  /-- Every request about keys does to the frames what is noted of it. -/
  keyed : dialect.IsNoted view note?
  /-- A program comes to the session that it ends in, which has its chronicle. -/
  ends : ∀ (hasher : Hasher) (init : Start ε) (program : List (Command ε ι)), ∃ histories,
    Moment.Chronicled dialect view note? hasher init program [histories]
      ⟨(run dialect program (start hasher init)).2, []⟩
  /-- It comes to all moments of a command that is run after it, and they have theirs. -/
  moments : ∀ (hasher : Hasher) (init : Start ε) (program : List (Command ε ι))
    (command : Command ε ι) (m : Moment ε ι),
    Reaches (Moment.next? dialect)
      ⟨{ (run dialect program (start hasher init)).2 with log := #[] }, [.run command]⟩ m →
    ∃ histories,
      Moment.Chronicled dialect view note? hasher init (program ++ [command]) histories m
  /-- At each moment, every frame of every session is as its history tells. -/
  follows : ∀ (hasher : Hasher) (init : Start ε) (program : List (Command ε ι))
    (histories : List (Histories κ ν)) (m : Moment ε ι),
    Moment.Chronicled dialect view note? hasher init program histories m →
    List.Forall₂ (Follows view) m.sessions histories

/-- If every request does what is noted of it, all frames follow their histories. -/
theorem framesFollow [EquivBEq κ] {dialect : Dialect ε ι ρ} {view : ε → Binding κ ν}
    {note? : ι → Option (Note κ ν)} (hview : Entry.SeenAs view)
    (hnoted : dialect.IsNoted view note?) (hfaults : dialect.FaultsInPlace) :
    FramesFollow dialect view note? where
  keyed := hnoted
  ends := by
    intro hasher init program
    have horigin : Moment.Comes dialect (start hasher init) [] [] ⟨start hasher init, []⟩ := .origin
    rcases comes_run hfaults horigin program with ⟨steps, hrun⟩
    rcases hrun.exists_chronicled view note? with ⟨histories, hend⟩
    have hfollows := hend.follows hview hnoted
    cases hfollows with
    | @cons _ current _ _ _ hnil =>
        cases hnil
        exact ⟨current, hend⟩
  moments := by
    intro hasher init program command m hreaches
    have horigin : Moment.Comes dialect (start hasher init) [] [] ⟨start hasher init, []⟩ := .origin
    rcases comes_run hfaults horigin program with ⟨steps, hrun⟩
    rcases (hrun.command command).reaches hreaches with ⟨steps', hm⟩
    exact hm.exists_chronicled view note?
  follows _ _ _ _ _ h := h.follows hview hnoted

/--
Frames are as their histories tell, whatever program runs and however the session was started.  At
every moment, every frame of the chain, of the saved copies and the frame popped last holds at most
one entry for a key.  The entry is there if and only if the last insertion or removal of the key in
that frame was an insertion; it is spelled as in the first insertion after the last removal, and it
has the value of the latest insertion or overwriting.  The history of a frame begins with the
entries that the frame is made of, and goes along when the frame is popped, pushed again, saved or
restored.  The same holds within scopes and on second chains.
-/
theorem frames_follow_histories [EquivBEq κ] [BEq ν] [Display κ] [Display ν] :
    FramesFollow (BindingRequest.dialect : Dialect (Binding κ ν) _ _) id BindingRequest.note? ∧
      FramesFollow (NameRequest.dialect : Dialect (Member κ) _ _) Member.toBinding
        NameRequest.note? :=
  ⟨framesFollow Binding.seenAs BindingRequest.isNoted BindingRequest.faultsInPlace,
    framesFollow Member.seenAs NameRequest.isNoted NameRequest.faultsInPlace⟩

/--
A frame is made of one key in two spellings, popped, pushed again and assigned to.  A name is added,
removed, and added again in two other spellings.
-/
theorem frames_follow_histories_respelled :
    let upper : CaseFolded := ⟨"K", "k", by decide +kernel⟩
    let lower : CaseFolded := ⟨"k", "k", by decide +kernel⟩
    let program : List (Command (Binding CaseFolded Value) _) :=
      [.pushFrame [⟨upper, .null⟩, ⟨lower, .bool true⟩] none, .pop, .pushPopped,
        .keyed (.assign lower (.bool false))]
    let additions : List (Command (Member CaseFolded) _) := [.keyed (.add upper),
      .keyed (.delete upper), .keyed (.add lower), .keyed (.addAt 0 upper)]
    EquivBEq CaseFolded ∧
    (∃ m histories, Moment.Chronicled BindingRequest.dialect id BindingRequest.note?
        .standard .empty program histories m ∧
      List.Forall₂ (Follows id) m.sessions histories ∧
      histories.map (fun h => h.chain.map List.length) = [[0, 3]] ∧
      (m.session.chain.stack.top.find? lower).map (fun b => b.key.spelling) = some "K") ∧
    ∃ m histories, Moment.Chronicled NameRequest.dialect Member.toBinding NameRequest.note?
        .standard .empty additions histories m ∧
      List.Forall₂ (Follows Member.toBinding) m.sessions histories ∧
      histories.map (fun h => h.chain.map List.length) = [[4]] ∧
      (m.session.chain.stack.top.find? upper).map (fun m => m.key.spelling) = some "k" := by
  intro upper lower program additions
  rcases frames_follow_histories (κ := CaseFolded) (ν := Value) with ⟨hbindings, hnames⟩
  have hstart : Moment.Chronicled (BindingRequest.dialect : Dialect (Binding CaseFolded Value) _ _)
      id BindingRequest.note? .standard .empty [] _ _ := .start
  have hpushed := (hstart.command (.pushFrame [⟨upper, .null⟩, ⟨lower, .bool true⟩] none)).next rfl
  have hpopped := (hpushed.command .pop).next rfl
  have hrepushed := (hpopped.command .pushPopped).next rfl
  have hm := (hrepushed.command (.keyed (.assign lower (.bool false)))).next rfl
  have hstart' : Moment.Chronicled (NameRequest.dialect : Dialect (Member CaseFolded) _ _)
      Member.toBinding NameRequest.note? .standard .empty [] _ _ := .start
  have hadded := (hstart'.command (.keyed (.add upper))).next rfl
  have hdeleted := (hadded.command (.keyed (.delete upper))).next rfl
  have hrenewed := (hdeleted.command (.keyed (.add lower))).next rfl
  have hm' := (hrenewed.command (.keyed (.addAt 0 upper))).next rfl
  exact ⟨inferInstance,
    ⟨_, _, hm, hbindings.follows _ _ _ _ _ hm, by decide +kernel, by decide +kernel⟩,
    _, _, hm', hnames.follows _ _ _ _ _ hm', by decide +kernel, by decide +kernel⟩

end Session
end LexicalScope
