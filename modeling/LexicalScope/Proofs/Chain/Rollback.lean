import LexicalScope.Proofs.Chain.Alike
import LexicalScope.Proofs.Chain.Undo

/-!
# Rolling runs back

A run of pushes, pops and requests about keys is rolled back by taking its moves back, the
last one first.  What takes a move back is known from the answer to the move, except that
for a deletion one must also know where the key resolved to before.

The proof is by induction on the run.  A move that is taken back at once gives the same
chain up to the spelling of keys; the moves before it are then taken back from such a chain,
which makes no difference since what takes them back does the same to both.

Main results:

- Theorem {lit}`Reversal.Lawful.rollBack_play`: runs are rolled back if single requests are.
- Theorem {lit}`Chain.rollback`: every run on a chain of bindings or a chain of names is
  rolled back to the chain that it began with.
-/

namespace LexicalScope

variable {ε ι ρ κ ν : Type}

/-! ## Moves and what takes them back -/

section Moves

variable [Entry ε κ] [BEq κ]

/-- A change of a chain, with requests of type `ι` about keys. -/
inductive Move (ε ι : Type) {κ : Type} [Entry ε κ] [BEq κ] where
  /-- Push an empty frame. -/
  | push
  /-- Push a given frame. -/
  | pushFrame (frame : Frame ε)
  /-- Pop the current frame. -/
  | pop
  /-- Fulfil a request about keys. -/
  | keyed (request : ι)

/-- What takes a move back. -/
inductive Undo (ε ι : Type) {κ : Type} [Entry ε κ] [BEq κ] where
  /-- There is nothing to take back. -/
  | nothing
  /-- Pop the current frame. -/
  | pop
  /-- Push a frame again. -/
  | pushFrame (frame : Frame ε)
  /-- Fulfil a request. -/
  | keyed (request : ι)
  /-- Pop the frames above the one with an index, fulfil a request and push the frames back. -/
  | beneath (index : Nat) (request : ι)

/-- How requests about keys are fulfilled and what takes them back. -/
structure Reversal (ε ι ρ : Type) {κ : Type} [Entry ε κ] [BEq κ] where
  /-- Fulfils a request. -/
  fulfil : ι → Chain ε → Except Fault ρ × Chain ε
  /-- What takes a request back, by where keys resolved to before it and by its answer. -/
  inverse : (κ → Option Nat) → ι → ρ → Undo ε ι

namespace Reversal

variable (V : Reversal ε ι ρ)

/-- Makes a move, and hands out what takes it back. -/
def make (move : Move ε ι) (c : Chain ε) : Undo ε ι × Chain ε :=
  match move with
  | .push => (.pop, c.push)
  | .pushFrame frame => (.pop, c.pushFrame frame)
  | .pop =>
    match c.pop with
    | (.ok frame, rest) => (.pushFrame frame, rest)
    | (.error _, rest) => (.nothing, rest)
  | .keyed request =>
    match V.fulfil request c with
    | (.ok answer, after) => (V.inverse c.resolve request answer, after)
    | (.error _, after) => (.nothing, after)

/-- Takes a move back. -/
def takeBack (undo : Undo ε ι) (c : Chain ε) : Chain ε :=
  match undo with
  | .nothing => c
  | .pop => c.pop.2
  | .pushFrame frame => c.pushFrame frame
  | .keyed request => (V.fulfil request c).2
  | .beneath index request => c.withCurrent index fun c => (V.fulfil request c).2

/-- Makes moves one after the other; what takes them back begins with the last one. -/
def play : List (Move ε ι) → Chain ε → List (Undo ε ι) × Chain ε
  | [], c => ([], c)
  | move :: rest, c =>
    let (undo, after) := V.make move c
    let (undos, last) := play rest after
    (undos ++ [undo], last)

/-- Takes moves back in the given order. -/
def rollBack (undos : List (Undo ε ι)) (c : Chain ε) : Chain ε :=
  undos.foldl (fun c undo => V.takeBack undo c) c

/-- Requests do the same to chains that are the same, and what takes them back does so. -/
structure Lawful (R : ε → ε → Prop) : Prop where
  refl : ∀ e, R e e
  trans : ∀ a b c, R a b → R b c → R a c
  congr : ∀ request {c d}, Chain.SameUpTo R c d →
    Chain.SameUpTo R (V.fulfil request c).2 (V.fulfil request d).2
  fault : ∀ {request c fault}, (V.fulfil request c).1 = .error fault → (V.fulfil request c).2 = c
  inverse : ∀ request c {answer}, (V.fulfil request c).1 = .ok answer →
    Chain.SameUpTo R (V.takeBack (V.inverse c.resolve request answer) (V.fulfil request c).2) c

namespace Lawful

variable {V} {R : ε → ε → Prop}

/-- A move that is taken back at once gives the same chain. -/
theorem takeBack_make (h : V.Lawful R) (move : Move ε ι) (c : Chain ε) :
    Chain.SameUpTo R (V.takeBack (V.make move c).1 (V.make move c).2) c := by
  have hsame := Chain.sameUpTo_refl h.refl c
  cases move with
  | push =>
      change Chain.SameUpTo R c.push.pop.2 c
      rw [Chain.pop_push]
      exact hsame
  | pushFrame frame =>
      change Chain.SameUpTo R (c.pushFrame frame).pop.2 c
      rw [Chain.pop_pushFrame]
      exact hsame
  | pop =>
      rw [make]
      rcases hpop : c.pop with ⟨e | frame, rest⟩
      · change Chain.SameUpTo R rest c
        rw [Chain.eq_of_pop_error hpop]
        exact hsame
      · change Chain.SameUpTo R (rest.pushFrame frame) c
        rw [Chain.pushFrame_of_pop hpop]
        exact hsame
  | keyed request =>
      rw [make]
      rcases hfulfil : V.fulfil request c with ⟨fault | answer, after⟩
      · have hafter := h.fault (congrArg Prod.fst hfulfil)
        rw [hfulfil] at hafter
        change Chain.SameUpTo R after c
        rw [show after = c from hafter]
        exact hsame
      · have hback := h.inverse request c (congrArg Prod.fst hfulfil)
        rw [hfulfil] at hback
        exact hback

/-- Taking a move back does the same to chains that are the same. -/
theorem takeBack_congr (h : V.Lawful R) (undo : Undo ε ι) {c d : Chain ε}
    (hcd : Chain.SameUpTo R c d) : Chain.SameUpTo R (V.takeBack undo c) (V.takeBack undo d) := by
  cases undo with
  | nothing => exact hcd
  | pop => exact hcd.pop.2
  | pushFrame frame =>
      exact hcd.pushFrame (Frame.Alike.refl (fun _ => rfl) h.refl frame)
  | keyed request => exact h.congr request hcd
  | beneath index request => exact hcd.withCurrent (fun _ _ => h.congr request) index

/-- A run is rolled back to the chain that it began with. -/
theorem rollBack_play (h : V.Lawful R) (moves : List (Move ε ι)) (c : Chain ε) :
    Chain.SameUpTo R (V.rollBack (V.play moves c).1 (V.play moves c).2) c := by
  induction moves generalizing c with
  | nil => exact Chain.sameUpTo_refl h.refl c
  | cons move rest ih =>
      have hrest := ih (V.make move c).2
      have hfold : V.rollBack (V.play (move :: rest) c).1 (V.play (move :: rest) c).2 =
          V.takeBack (V.make move c).1
            (V.rollBack (V.play rest (V.make move c).2).1 (V.play rest (V.make move c).2).2) := by
        simp only [play, rollBack, List.foldl_append, List.foldl_cons, List.foldl_nil]
      rw [hfold]
      exact Chain.sameUpTo_trans h.trans (h.takeBack_congr _ hrest) (h.takeBack_make move c)

end Lawful
end Reversal

end Moves

/-! ## Chains of bindings -/

variable [BEq κ]

namespace BindingRequest

variable [BEq ν]

/-- What takes a request to a chain of bindings back. -/
def inverse (resolve : κ → Option Nat) :
    BindingRequest κ ν → BindingAnswer κ ν → Undo (Binding κ ν) (BindingRequest κ ν)
  | .declare key _, .replaced none => .keyed (.deleteLocal key)
  | .declare key _, .replaced (some old) => .keyed (.declare key old)
  | .declareAt index key _, .replacedAt (.ok none) => .beneath index (.deleteLocal key)
  | .declareAt index key _, .replacedAt (.ok (some old)) => .keyed (.declareAt index key old)
  | .overwrite key _, .outcome (.ok old) => .keyed (.overwrite key old)
  | .overwriteBelow index key _, .outcome (.ok old) => .keyed (.overwriteBelow index key old)
  | .assign key _, .outcome (.ok old) => .keyed (.assign key old)
  | .delete key, .outcome (.ok value) =>
    match resolve key with
    | some index => .keyed (.declareAt index key value)
    | none => .nothing
  | .deleteLocal key, .outcome (.ok value) => .keyed (.declare key value)
  | _, _ => .nothing

/-- How requests to chains of bindings are fulfilled and taken back. -/
def reversal [Ord κ] : Reversal (Binding κ ν) (BindingRequest κ ν) (BindingAnswer κ ν) where
  fulfil := fulfil
  inverse := inverse

end BindingRequest

/-- The bindings have equal keys and the same value. -/
abbrev Binding.SameValue : Binding κ ν → Binding κ ν → Prop :=
  Binding.Like (fun a b => (a == b) = true) Eq

theorem Binding.sameValue_refl [ReflBEq κ] (b : Binding κ ν) : b.SameValue b :=
  ⟨BEq.rfl, rfl⟩

/-- Having the same value is passed on from binding to binding. -/
theorem Binding.sameValue_trans [EquivBEq κ] (a b c : Binding κ ν) (h : a.SameValue b)
    (h' : b.SameValue c) : a.SameValue c :=
  ⟨BEq.trans h.key h'.key, h.value.trans h'.value⟩

namespace Bindings

variable [EquivBEq κ] [BEq ν] {c : Bindings κ ν} {k : κ}

/-- An assignment is taken back by assigning the old value. -/
theorem undo_modifyBelow {x : Nat} {v old : ν} (h : (c.modifyBelow x k fun _ => v).1 = .ok old) :
    Chain.SameUpTo Binding.SameValue
      ((c.modifyBelow x k fun _ => v).2.modifyBelow x k fun _ => old).2 c := by
  cases hinnermost : Chain.innermost? c x k with
  | none =>
      rw [modifyBelow_of_none hinnermost] at h
      cases h
  | some i =>
      rcases modifyBelow_of_innermost? hinnermost fun _ => v with ⟨frame, b, hframe, hfind, heq⟩
      rw [heq] at h ⊢
      cases h
      have hkey : (b.key == k) = true := Frame.key_beq_of_find? hfind
      have hheld : (frame.insert (⟨b.key, v⟩ : Binding κ ν)).1 = some b := by
        rw [← hfind]
        exact frame.find?_congr hkey
      have hchanged : (frame.insert (⟨b.key, v⟩ : Binding κ ν)).2.contains k = frame.contains k := by
        obtain ⟨new, hnew⟩ : ∃ new, (frame.insert (⟨b.key, v⟩ : Binding κ ν)).2.find? b.key = some new :=
          ⟨_, frame.find?_insert_self (⟨b.key, v⟩ : Binding κ ν)⟩
        rw [Frame.contains_eq_isSome_find?, Frame.contains_eq_isSome_find?, hfind,
          ← Frame.find?_congr _ hkey, hnew]
        rfl
      -- The changed frame still is the innermost one with the key, so the second change hits it.
      have hagain := (c.innermost?_setFrame hframe hchanged x).trans hinnermost
      rcases modifyBelow_of_innermost? hagain fun _ => b.value with
        ⟨frame', b', hframe', hfind', heq'⟩
      rw [c.frame?_setFrame_self (Stack.lt_depth_of_frame? hframe), Option.some.injEq] at hframe'
      subst hframe'
      have hkey' : (b'.key == b.key) = true :=
        BEq.trans (Frame.key_beq_of_find? hfind') (BEq.symm hkey)
      have halike : Frame.Alike Eq Binding.SameValue
          ((frame.insert (⟨b.key, v⟩ : Binding κ ν)).2.insert ⟨b'.key, b.value⟩).2 frame :=
        Frame.alike_insert_insert Binding.sameValue_refl _ hkey' hheld ⟨BEq.rfl, rfl⟩
      rw [heq']
      exact Chain.sameUpTo_setFrame Binding.sameValue_refl hframe halike _

/-- Assigning the old value again takes an assignment back. -/
theorem undo_modify {v old : ν} (h : (c.modify k fun _ => v).1 = .ok old) :
    Chain.SameUpTo Binding.SameValue ((c.modify k fun _ => v).2.modify k fun _ => old).2 c := by
  have hdepth : (c.modify k fun _ => v).2.depth = c.depth := (writtenAt_modifyBelow c _ _ _).depth_eq
  change Chain.SameUpTo Binding.SameValue
    ((c.modify k fun _ => v).2.modifyBelow (c.modify k fun _ => v).2.depth k fun _ => old).2 c
  rw [hdepth]
  exact undo_modifyBelow h

omit [EquivBEq κ] in
/-- An assignment that found no binding leaves the chain as it is. -/
theorem modifyBelow_of_error {x : Nat} {v : ν} {e : Error}
    (h : (c.modifyBelow x k fun _ => v).1 = .error e) : (c.modifyBelow x k fun _ => v).2 = c :=
  (writtenAt_modifyBelow c x k _).eq_of_refused (by rw [h]; rfl)

omit [EquivBEq κ] in
/-- An assignment that is refused changes nothing. -/
theorem modify_of_error {v : ν} {e : Error} (h : (c.modify k fun _ => v).1 = .error e) :
    (c.modify k fun _ => v).2 = c :=
  modifyBelow_of_error h

end Bindings

namespace BindingRequest

variable [BEq ν] [Ord κ]

/-- A fault leaves the chain as it is. -/
theorem fulfil_of_fault {request : BindingRequest κ ν} {c : Bindings κ ν} {fault : Fault}
    (h : (request.fulfil c).1 = .error fault) : (request.fulfil c).2 = c := by
  cases request with
  | demand key => exact fulfil_demand key c
  | _ => cases h

variable [EquivBEq κ]

/-- A request to a chain of bindings is taken back by its inverse. -/
theorem takeBack_inverse (request : BindingRequest κ ν) (c : Bindings κ ν)
    {answer : BindingAnswer κ ν} (h : (request.fulfil c).1 = .ok answer) :
    Chain.SameUpTo Binding.SameValue
      (reversal.takeBack (inverse c.resolve request answer) (request.fulfil c).2) c := by
  have hrefl := Binding.sameValue_refl (κ := κ) (ν := ν)
  have hsame := Chain.sameUpTo_refl hrefl c
  cases request with
  | declare key value =>
      obtain rfl : .replaced ((c.insert ⟨key, value⟩).1.map Binding.value) = answer :=
        Except.ok.inj h
      rcases hinsert : (c.insert ⟨key, value⟩).1 with _ | stored
      · exact Chain.undo_insert_new hrefl hinsert
      · exact Chain.undo_insert_over hrefl ⟨key, stored.value⟩ BEq.rfl hinsert
          ⟨BEq.rfl, rfl⟩
  | declareAt index key value =>
      obtain rfl : .replacedAt ((c.insertAt index ⟨key, value⟩).1.map (Option.map Binding.value)) =
        answer := Except.ok.inj h
      rcases hinsert : (c.insertAt index ⟨key, value⟩).1 with _ | _ | stored
      · exact Chain.sameUpTo_of_eq hrefl (Chain.insertAt_of_error hinsert)
      · exact Chain.undo_insertAt_new hrefl hinsert
      · exact Chain.undo_insertAt_over hrefl ⟨key, stored.value⟩ BEq.rfl hinsert
          ⟨BEq.rfl, rfl⟩
  | overwrite key value | assign key value =>
      obtain rfl : .outcome (c.modify key fun _ => value).1 = answer := Except.ok.inj h
      rcases hmodify : (c.modify key fun _ => value).1 with _ | old
      · exact Chain.sameUpTo_of_eq hrefl (Bindings.modify_of_error hmodify)
      · simp only [inverse, Reversal.takeBack, reversal, fulfil, Prod.map_snd, id_eq, Bindings.assign]
        exact Bindings.undo_modify hmodify
  | overwriteBelow index key value =>
      obtain rfl : .outcome (c.modifyBelow index key fun _ => value).1 = answer :=
        Except.ok.inj h
      rcases hmodify : (c.modifyBelow index key fun _ => value).1 with _ | old
      · exact Chain.sameUpTo_of_eq hrefl (Bindings.modifyBelow_of_error hmodify)
      · exact Bindings.undo_modifyBelow hmodify
  | delete key =>
      obtain rfl : .outcome ((c.erase key).1.map Binding.value) = answer := Except.ok.inj h
      rcases herase : (c.erase key).1 with _ | held
      · exact Chain.sameUpTo_of_eq hrefl (Chain.erase_of_error herase)
      · have hkey : (key == held.key) = true := BEq.symm (Chain.key_beq_of_erase herase)
        rcases Chain.undo_erase (e := ⟨key, held.value⟩) hrefl herase BEq.rfl ⟨hkey, rfl⟩ with
          ⟨i, hresolve, hback⟩
        simp only [inverse, Except.map, hresolve]
        exact hback
  | deleteLocal key =>
      obtain rfl : .outcome ((c.eraseLocal key).1.map Binding.value) = answer := Except.ok.inj h
      rcases herase : (c.eraseLocal key).1 with _ | held
      · exact Chain.sameUpTo_of_eq hrefl (Chain.eraseLocal_of_error herase)
      · have hkey : (key == held.key) = true := BEq.symm (Chain.key_beq_of_eraseLocal herase)
        exact Chain.undo_eraseLocal (e := ⟨key, held.value⟩) hrefl herase BEq.rfl ⟨hkey, rfl⟩
  | demand key => exact Chain.sameUpTo_of_eq hrefl (fulfil_demand key c)
  | get key => exact hsame
  | getBelow index key => exact hsame
  | has key => exact hsame
  | hasLocal key => exact hsame
  | hasAt index key => exact hsame
  | resolve key => exact hsame
  | keys => exact hsame

/-- What takes requests to chains of bindings back does so, but for the spelling of keys. -/
theorem lawful_reversal :
    (reversal : Reversal (Binding κ ν) _ _).Lawful Binding.SameValue where
  refl := Binding.sameValue_refl
  trans := Binding.sameValue_trans
  congr := by
    intro request c d hcd
    have hwritten : ∀ v ∈ request.written, v = v := fun _ _ => rfl
    exact (fulfil_alike (G := fun _ _ => True) (fun _ => BEq.rfl) hwritten hcd trivial).2
  fault := fulfil_of_fault
  inverse := fun request c _ => takeBack_inverse request c

end BindingRequest

/-! ## Chains of names -/

namespace NameRequest

/-- What takes a request to a chain of names back. -/
def inverse (resolve : κ → Option Nat) :
    NameRequest κ → NameAnswer κ → Undo (Member κ) (NameRequest κ)
  | .add key, .flag true => .keyed (.deleteLocal key)
  | .addAt index key, .added (.ok true) => .beneath index (.deleteLocal key)
  | .delete key, .outcome (.ok spelling) =>
    match resolve key with
    | some index => .keyed (.addAt index spelling)
    | none => .nothing
  | .deleteLocal _, .outcome (.ok spelling) => .keyed (.add spelling)
  | _, _ => .nothing

/-- How requests to chains of names are fulfilled and taken back. -/
def reversal : Reversal (Member κ) (NameRequest κ) (NameAnswer κ) where
  fulfil := fulfil
  inverse := inverse

variable [EquivBEq κ]

/-- A request to a chain of names is taken back by its inverse, spelling and all. -/
theorem takeBack_inverse (request : NameRequest κ) (c : Names κ) {answer : NameAnswer κ}
    (h : (request.fulfil c).1 = .ok answer) :
    Chain.SameUpTo (Member.Like Eq)
      (reversal.takeBack (inverse c.resolve request answer) (request.fulfil c).2) c := by
  have hrefl : ∀ m : Member κ, Member.Like Eq m m := fun _ => rfl
  have hsame := Chain.sameUpTo_refl hrefl c
  cases request with
  | add key =>
      obtain rfl : .flag (c.insert ⟨key⟩).1.isNone = answer := Except.ok.inj h
      rcases hinsert : (c.insert ⟨key⟩).1 with _ | stored
      · exact Chain.undo_insert_new hrefl hinsert
      · exact Chain.sameUpTo_insert_self hrefl hinsert rfl
  | addAt index key =>
      obtain rfl : .added ((c.insertAt index ⟨key⟩).1.map Option.isNone) = answer := Except.ok.inj h
      rcases hinsert : (c.insertAt index ⟨key⟩).1 with _ | _ | stored
      · exact Chain.sameUpTo_of_eq hrefl (Chain.insertAt_of_error hinsert)
      · exact Chain.undo_insertAt_new hrefl hinsert
      · exact Chain.sameUpTo_insertAt_self hrefl hinsert rfl
  | delete key =>
      obtain rfl : .outcome ((c.erase key).1.map Member.key) = answer := Except.ok.inj h
      rcases herase : (c.erase key).1 with _ | held
      · exact Chain.sameUpTo_of_eq hrefl (Chain.erase_of_error herase)
      · rcases Chain.undo_erase (e := held) hrefl herase (Chain.key_beq_of_erase herase) rfl with
          ⟨i, hresolve, hback⟩
        simp only [inverse, Except.map, hresolve]
        exact hback
  | deleteLocal key =>
      obtain rfl : .outcome ((c.eraseLocal key).1.map Member.key) = answer := Except.ok.inj h
      rcases herase : (c.eraseLocal key).1 with _ | held
      · exact Chain.sameUpTo_of_eq hrefl (Chain.eraseLocal_of_error herase)
      · exact Chain.undo_eraseLocal (e := held) hrefl herase (Chain.key_beq_of_eraseLocal herase) rfl
  | get key => exact hsame
  | has key => exact hsame
  | hasLocal key => exact hsame
  | hasAt index key => exact hsame
  | resolve key => exact hsame

/-- What takes requests to chains of names back does so, with the spelling of keys. -/
theorem lawful_reversal :
    (reversal : Reversal (Member κ) _ _).Lawful (Member.Like Eq) where
  refl := fun _ => rfl
  trans := fun _ _ _ h h' => Eq.trans h h'
  congr := fun _ _ _ hcd => (fulfil_alike (fun _ => rfl) hcd).2
  fault := by
    intro request c fault h
    cases request <;> cases h
  inverse := fun request c _ => takeBack_inverse request c

end NameRequest

/-! ## Runs -/

/--
Every run on a chain of bindings or of names is rolled back by what its answers say: the
chain has the depth and the hashers that it had, and every frame holds the same keys.  A
binding has its value again, but maybe another spelling of its key; a name has its spelling
again as well.
-/
theorem Chain.rollback [EquivBEq κ] [BEq ν] [Ord κ] :
    (∀ (c : Bindings κ ν) (moves : List (Move (Binding κ ν) (BindingRequest κ ν))),
      Chain.SameUpTo Binding.SameValue
        (BindingRequest.reversal.rollBack (BindingRequest.reversal.play moves c).1
          (BindingRequest.reversal.play moves c).2) c) ∧
    (∀ (c : Names κ) (moves : List (Move (Member κ) (NameRequest κ))),
      Chain.SameUpTo (Member.Like Eq)
        (NameRequest.reversal.rollBack (NameRequest.reversal.play moves c).1
          (NameRequest.reversal.play moves c).2) c) :=
  ⟨fun c moves => BindingRequest.lawful_reversal.rollBack_play moves c,
    fun c moves => NameRequest.lawful_reversal.rollBack_play moves c⟩

/-- Deleting a key uncovers another binding of it, and then the frame that held it is popped. -/
theorem Chain.rollback_uncovered :
    let c : Bindings Nat Bool := (Chain.ofRoot (.ofList .standard [⟨1, false⟩])).pushFrame
      (.ofList (.marked 7) [⟨1, true⟩, ⟨2, true⟩])
    let moves : List (Move (Binding Nat Bool) (BindingRequest Nat Bool)) :=
      [.keyed (.declareAt 0 3 true), .keyed (.delete 1), .keyed (.assign 1 true), .pop,
        .keyed (.deleteLocal 2), .push, .keyed (.declare 3 false)]
    let run := BindingRequest.reversal.play moves c
    let back := BindingRequest.reversal.rollBack run.1 run.2
    Chain.SameUpTo Binding.SameValue back c ∧
      (Bindings.get run.2 1).toOption = some true ∧ (Bindings.get run.2 3).toOption = some false ∧
      (Bindings.getBelow back 1 1).toOption = some false := by
  intro c moves run back
  have h : Chain.SameUpTo Binding.SameValue back c := Chain.rollback.1 c moves
  exact ⟨h, by decide +kernel, by decide +kernel, by decide +kernel⟩

end LexicalScope
