import LexicalScope.Proofs.Session.Confinement
import LexicalScope.Proofs.Session.Independence

/-!
# Shadowed entries are out of reach

As long as some frame further in holds a key, the entry of that key in a given frame is
shadowed.  Whatever looks the key up from the innermost frame finds another entry first, what
is put into or taken out of the current frame goes elsewhere, and a pop takes off a frame
further in.  So the shadowed entry stays as it is, unless it is addressed by an index: by
inserting into its frame, or by assigning below an index that leaves all shadowing frames out.

Main results:

- Theorems {lit}`BindingRequest.keepsShadowed` and {lit}`NameRequest.keepsShadowed`: a request
  does not reach a shadowed entry.
- Theorem {lit}`Session.Step.heldAt_after`: neither does any other step.
- Theorem {lit}`Session.shadowed_entry_stays`: a run in which the key is shadowed before every
  step leaves the shadowed entry as it is.
-/

namespace LexicalScope

variable {ε ι ρ κ ν : Type} [BEq κ]

/-! ## The entry of a key in one frame -/

namespace Chain

section Entries

variable [Entry ε κ]

/-- What the frame with an index holds under a key, if there is such a frame. -/
def heldAt (c : Chain ε) (i : Nat) (k : κ) : Option (Option ε) :=
  (c.stack.frame? i).map fun frame => frame.find? k

/-- A key that is held from an index on is held by a frame with such an index. -/
theorem exists_hasAt_of_heldFrom {c : Chain ε} {n : Nat} {k : κ} (h : c.heldFrom n k = true) :
    ∃ j, n ≤ j ∧ c.hasAt j k = true := by
  by_contra hnone
  have hfree : ∀ j, n ≤ j → c.hasAt j k = false := by
    intro j hj
    exact Bool.eq_false_iff.mpr fun hheld => hnone ⟨j, hj, hheld⟩
  rw [(c.heldFrom_eq_false_iff n k).mpr hfree] at h
  cases h

/-- An index from which on a key is held is below the depth. -/
theorem lt_depth_of_heldFrom {c : Chain ε} {n : Nat} {k : κ} (h : c.heldFrom n k = true) :
    n < c.depth := by
  by_contra hle
  rw [c.heldFrom_of_depth_le (Nat.not_lt.mp hle)] at h
  cases h

/-- A key that a frame further in holds resolves to a frame further in. -/
theorem lt_of_resolve {c : Chain ε} {i r : Nat} {k : κ} (h : c.heldFrom (i + 1) k = true)
    (hr : c.resolve k = some r) : i < r := by
  rcases exists_hasAt_of_heldFrom h with ⟨j, hij, hj⟩
  have habove := ((c.resolve_eq_some_iff k r).mp hr).2
  by_contra hle
  rw [(c.heldFrom_eq_false_iff (r + 1) k).mp habove j (by omega)] at hj
  cases hj

/-- A frame holds a key in every spelling or in none. -/
theorem hasAt_congr [EquivBEq κ] (c : Chain ε) (i : Nat) {k k' : κ} (h : (k == k') = true) :
    c.hasAt i k = c.hasAt i k' := by
  rw [← isSome_bind_find?, ← isSome_bind_find?]
  cases c.stack.frame? i with
  | none => rfl
  | some frame => exact congrArg Option.isSome (frame.find?_congr h)

/-- An operation that writes to another frame leaves the entry. -/
theorem WrittenAt.heldAt_eq {α : Type} {accepted : α → Bool} {c : Chain ε} {written : Option Nat}
    {outcome : α × Chain ε} (h : c.WrittenAt accepted written outcome) {i : Nat}
    (hi : written ≠ some i) (k : κ) : outcome.2.heldAt i k = c.heldAt i k := by
  cases h with
  | nowhere answer => rfl
  | @frame j hj answer _ changed =>
      have hji : j ≠ i := fun heq => hi (congrArg some heq)
      rw [heldAt, heldAt, c.frame?_setFrame_of_ne hji]

/-- A push leaves what the frames below hold. -/
theorem heldAt_pushFrame (c : Chain ε) (frame : Frame ε) {i : Nat} (hi : i < c.depth) (k : κ) :
    (c.pushFrame frame).heldAt i k = c.heldAt i k := by
  have hlt : i < c.stack.toList.length := by
    rw [Stack.length_toList]
    exact hi
  rw [heldAt, heldAt, Stack.frame?_eq_getElem?, Stack.frame?_eq_getElem?, pushFrame,
    Stack.toList_push, List.getElem?_append_left hlt]

/-- A pop leaves what the frames below hold. -/
theorem heldAt_pop (c : Chain ε) {i : Nat} (hi : i + 1 < c.depth) (k : κ) :
    c.pop.2.heldAt i k = c.heldAt i k := by
  have hpop : c.pop.2.stack = c.stack.keep (c.depth - 1) := by
    change c.stack.pop.2 = _
    rw [c.stack.pop_of_one_lt_depth (Nat.lt_of_le_of_lt (Nat.le_add_left 1 i) hi)]
    rfl
  rw [heldAt, heldAt, hpop, Stack.frame?_eq_getElem?, Stack.frame?_eq_getElem?,
    Stack.toList_keep _ (by omega), List.getElem?_take_of_lt (by omega)]

end Entries
end Chain

/-! ## Requests about keys -/

/--
Requests of the permitted kind leave the entry of a key in a frame, if the key is held further
in.
-/
def Dialect.KeepsShadowed [Entry ε κ] (dialect : Dialect ε ι ρ) (permitted : ι → Chain ε → Prop)
    (i : Nat) (k : κ) : Prop :=
  ∀ request c, c.heldFrom (i + 1) k = true → permitted request c →
    (dialect.fulfil request c).2.heldAt i k = c.heldAt i k

namespace BindingRequest

variable [BEq ν]

/--
If the request writes to the key by an index, it does not declare it in the given frame, and
it does not assign to it below an index that all shadowing frames are beyond.
-/
def Spares (i : Nat) (k : κ) (request : BindingRequest κ ν) (c : Bindings κ ν) : Prop :=
  match request with
  | .declareAt index key _ => (key == k) = true → index ≠ i
  | .overwriteBelow index key _ =>
    (key == k) = true → index ≤ i ∨ ∃ j < index, i < j ∧ c.hasAt j k = true
  | .declare _ _ | .get _ | .getBelow _ _ | .overwrite _ _ | .assign _ _ => True
  | .has _ | .hasLocal _ | .hasAt _ _ | .resolve _ => True
  | .delete _ | .deleteLocal _ | .demand _ | .keys => True

instance (i : Nat) (k : κ) (request : BindingRequest κ ν) (c : Bindings κ ν) :
    Decidable (request.Spares i k c) :=
  match request with
  | .declareAt index key _ => inferInstanceAs (Decidable ((key == k) = true → index ≠ i))
  | .overwriteBelow index key _ =>
    inferInstanceAs (Decidable
      ((key == k) = true → index ≤ i ∨ ∃ j < index, i < j ∧ c.hasAt j k = true))
  | .declare _ _ | .get _ | .getBelow _ _ | .overwrite _ _ | .assign _ _ => .isTrue trivial
  | .has _ | .hasLocal _ | .hasAt _ _ | .resolve _ => .isTrue trivial
  | .delete _ | .deleteLocal _ | .demand _ | .keys => .isTrue trivial

/-- The frame that a request about a shadowed key writes to is another one. -/
theorem target_ne_of_spares [EquivBEq κ] {i : Nat} {k : κ} {request : BindingRequest κ ν}
    {c : Bindings κ ν} (hshadowed : c.heldFrom (i + 1) k = true) (hspares : request.Spares i k c)
    (hkey : request.concerns k = true) : request.target c ≠ some i := by
  have hdepth := Chain.lt_depth_of_heldFrom hshadowed
  have hresolve : ∀ key, (key == k) = true → c.resolve key ≠ some i := by
    intro key hkey heq
    rw [Chain.resolve_congr c hkey] at heq
    exact Nat.lt_irrefl i (Chain.lt_of_resolve hshadowed heq)
  intro htarget
  cases request with
  | declare key value =>
      rw [target, Option.some.injEq] at htarget
      omega
  | declareAt index key value =>
      rw [target] at htarget
      split at htarget
      · exact hspares hkey (Option.some.inj htarget)
      · cases htarget
  | overwrite key value | assign key value | delete key => exact hresolve key hkey htarget
  | overwriteBelow index key value =>
      rcases (c.innermost?_eq_some_iff index key i).mp htarget with ⟨hi, -, habove⟩
      rcases hspares hkey with hle | ⟨j, hj, hij, hheld⟩
      · omega
      · rw [← c.hasAt_congr j hkey] at hheld
        rcases (c.hasAt_eq_true_iff j key).mp hheld with ⟨frame, _, hframe, -⟩
        have hjdepth : j < c.depth := Stack.lt_depth_of_frame? hframe
        rw [habove j hij (Nat.lt_min.mpr ⟨hj, hjdepth⟩)] at hheld
        cases hheld
  | deleteLocal key =>
      rw [target] at htarget
      split at htarget
      · rw [Option.some.injEq] at htarget
        omega
      · cases htarget
  | get | getBelow | has | hasLocal | hasAt | resolve | demand | keys => cases htarget

/-- A request to a chain of bindings does not reach a shadowed entry, unless by an index. -/
theorem keepsShadowed [EquivBEq κ] [Ord κ] [Display κ] [Display ν] (i : Nat) (k : κ) :
    (dialect : Dialect (Binding κ ν) _ _).KeepsShadowed (Spares i k) i k := by
  intro request c hshadowed hspares
  cases hkey : request.concerns k with
  | true => exact (writesTo_target request c).heldAt_eq (target_ne_of_spares hshadowed hspares hkey) k
  | false =>
      have hrefl : c.AgreesOn k c := .refl (fun _ => rfl) (fun _ => ⟨rfl, rfl⟩) c
      cases request with
      | demand key => exact congrArg (fun d => Chain.heldAt d i k) (fulfil_demand key c)
      | keys => rfl
      | _ => exact (fulfil_of_not_concerns (by trivial) hkey hrefl).2.held i

end BindingRequest

namespace NameRequest

/-- If the request adds the key by an index, it does not add it to the given frame. -/
def Spares (i : Nat) (k : κ) (request : NameRequest κ) (_ : Names κ) : Prop :=
  match request with
  | .addAt index key => (key == k) = true → index ≠ i
  | .add _ | .get _ | .has _ | .hasLocal _ | .hasAt _ _ | .resolve _ => True
  | .delete _ | .deleteLocal _ => True

instance (i : Nat) (k : κ) (request : NameRequest κ) (c : Names κ) :
    Decidable (request.Spares i k c) :=
  match request with
  | .addAt index key => inferInstanceAs (Decidable ((key == k) = true → index ≠ i))
  | .add _ | .get _ | .has _ | .hasLocal _ | .hasAt _ _ | .resolve _ => .isTrue trivial
  | .delete _ | .deleteLocal _ => .isTrue trivial

/-- The frame that a request about a shadowed key writes to is another one. -/
theorem target_ne_of_spares [EquivBEq κ] {i : Nat} {k : κ} {request : NameRequest κ} {c : Names κ}
    (hshadowed : c.heldFrom (i + 1) k = true) (hspares : request.Spares i k c)
    (hkey : request.concerns k = true) : request.target c ≠ some i := by
  have hdepth := Chain.lt_depth_of_heldFrom hshadowed
  intro htarget
  cases request with
  | add key =>
      rw [target, Option.some.injEq] at htarget
      omega
  | addAt index key =>
      rw [target] at htarget
      split at htarget
      · exact hspares hkey (Option.some.inj htarget)
      · cases htarget
  | delete key =>
      rw [target, Chain.resolve_congr c hkey] at htarget
      exact Nat.lt_irrefl i (Chain.lt_of_resolve hshadowed htarget)
  | deleteLocal key =>
      rw [target] at htarget
      split at htarget
      · rw [Option.some.injEq] at htarget
        omega
      · cases htarget
  | get | has | hasLocal | hasAt | resolve => cases htarget

/-- A request to a chain of names does not reach a shadowed key, unless by an index. -/
theorem keepsShadowed [EquivBEq κ] [Display κ] (i : Nat) (k : κ) :
    (dialect : Dialect (Member κ) _ _).KeepsShadowed (Spares i k) i k := by
  intro request c hshadowed hspares
  cases hkey : request.concerns k with
  | true => exact (writesTo_target request c).heldAt_eq (target_ne_of_spares hshadowed hspares hkey) k
  | false =>
      have hrefl : c.AgreesOn k c := .refl (fun _ => rfl) (fun _ => ⟨rfl, rfl⟩) c
      exact (fulfil_of_not_concerns hkey hrefl).2.held i

end NameRequest

/-! ## Steps and runs -/

namespace Session

section Steps

variable [Entry ε κ]

/--
The step is made while some frame further in than the given one holds the key, it is not a
request that may reach the frame by an index, and it does not go back to a saved copy.  Steps
that do not concern the chain may be made at any time.
-/
def Step.Shadowed (permitted : ι → Chain ε → Prop) (i : Nat) (k : κ) (step : Step ε ι)
    (s : Session ε) : Prop :=
  match step with
  | .keyed request => s.chain.heldFrom (i + 1) k = true ∧ permitted request s.chain
  | .push _ | .pop | .take => s.chain.heldFrom (i + 1) k = true
  | .restore _ => False
  | .save | .record _ => True

instance (permitted : ι → Chain ε → Prop) [∀ request c, Decidable (permitted request c)] (i : Nat)
    (k : κ) (step : Step ε ι) (s : Session ε) : Decidable (step.Shadowed permitted i k s) :=
  match step with
  | .keyed request =>
    inferInstanceAs (Decidable (s.chain.heldFrom (i + 1) k = true ∧ permitted request s.chain))
  | .push _ | .pop | .take => inferInstanceAs (Decidable (s.chain.heldFrom (i + 1) k = true))
  | .restore _ => .isFalse id
  | .save | .record _ => .isTrue trivial

variable {dialect : Dialect ε ι ρ} {permitted : ι → Chain ε → Prop} {i : Nat} {k : κ}

/-- A step that is made while the key is shadowed leaves the shadowed entry. -/
theorem Step.heldAt_after (hdialect : dialect.KeepsShadowed permitted i k) (step : Step ε ι)
    (s : Session ε) (h : step.Shadowed permitted i k s) :
    (step.after dialect s).chain.heldAt i k = s.chain.heldAt i k := by
  cases step with
  | keyed request => exact hdialect request s.chain h.1 h.2
  | push frame =>
      have hdepth := Chain.lt_depth_of_heldFrom h
      exact s.chain.heldAt_pushFrame frame (by omega) k
  | pop | take => exact s.chain.heldAt_pop (Chain.lt_depth_of_heldFrom h) k
  | restore copy => exact h.elim
  | save | record log => rfl

/-- So does a list of steps, each of which is made while the key is shadowed. -/
theorem heldAt_replay (hdialect : dialect.KeepsShadowed permitted i k) {steps : List (Step ε ι)}
    {s : Session ε} (h : Throughout dialect (Step.Shadowed permitted i k) steps s) :
    (replay dialect steps s).chain.heldAt i k = s.chain.heldAt i k :=
  h.replay (P := fun t => t.chain.heldAt i k = s.chain.heldAt i k)
    (fun step t hstep ht => (step.heldAt_after hdialect t hstep).trans ht) rfl

/-- A run in which the key is shadowed before every step leaves the entry at every moment. -/
theorem heldAt_run [Ord κ] (hdialect : dialect.KeepsShadowed permitted i k)
    (program : List (Command ε ι)) (s : Session ε)
    (h : Throughout dialect (Step.Shadowed permitted i k) (runSteps dialect program s) s) :
    (run dialect program s).2.chain.heldAt i k = s.chain.heldAt i k ∧
      ∀ n, (replay dialect ((runSteps dialect program s).take n) s).chain.heldAt i k =
        s.chain.heldAt i k := by
  refine ⟨?_, fun n => heldAt_replay hdialect (h.take n)⟩
  rw [run_snd_eq_replay]
  exact heldAt_replay hdialect h

end Steps

/--
Fix a frame by its index, and a key.  If before every step of a run, the pushes and pops of
scopes included, some frame further in holds the key, if the run writes to the key by an index
only where that cannot reach the frame, and if it does not go back to a saved copy, then the
frame holds the same under the key at every moment of the run and at its end.
-/
theorem shadowed_entry_stays [EquivBEq κ] [Ord κ] [BEq ν] [Display κ] [Display ν] (i : Nat) (k : κ) :
    (∀ (program : List (Command (Binding κ ν) (BindingRequest κ ν))) (s : Session (Binding κ ν)),
      Throughout BindingRequest.dialect (Step.Shadowed (BindingRequest.Spares i k) i k)
        (runSteps BindingRequest.dialect program s) s →
      (run BindingRequest.dialect program s).2.chain.heldAt i k = s.chain.heldAt i k ∧
      ∀ n, (replay BindingRequest.dialect ((runSteps BindingRequest.dialect program s).take n)
        s).chain.heldAt i k = s.chain.heldAt i k) ∧
    (∀ (program : List (Command (Member κ) (NameRequest κ))) (s : Session (Member κ)),
      Throughout NameRequest.dialect (Step.Shadowed (NameRequest.Spares i k) i k)
        (runSteps NameRequest.dialect program s) s →
      (run NameRequest.dialect program s).2.chain.heldAt i k = s.chain.heldAt i k ∧
      ∀ n, (replay NameRequest.dialect ((runSteps NameRequest.dialect program s).take n)
        s).chain.heldAt i k = s.chain.heldAt i k) :=
  ⟨heldAt_run (BindingRequest.keepsShadowed i k), heldAt_run (NameRequest.keepsShadowed i k)⟩

/--
The root and the frame above it hold the key.  The runs declare, assign and delete it in a scope,
write to it by indexes that do not reach the root, write to another key of the root, and in the
end remove what shadowed the root.
-/
theorem shadowed_entry_stays_uncovered :
    let s := (run BindingRequest.dialect [.pushFrame [⟨7, .bool true⟩] none]
      (start .standard (.seeded [⟨7, .null⟩, ⟨8, .null⟩]) : Session (Binding Int64 Value))).2
    let program := [.scope [.keyed (.declare 7 (.bool false)), .keyed (.assign 7 .null), .keyed (.delete 7)],
      .keyed (.declareAt 1 7 .null), .keyed (.overwriteBelow 2 7 (.bool false)),
      .keyed (.assign 8 (.bool true)), .save, .keyed (.delete 7)]
    let t := (run NameRequest.dialect [.pushFrame [⟨7⟩] none]
      (start .standard (.seeded [⟨7⟩]) : Session (Member Int64))).2
    let additions := [.nest 2 [.keyed (.add 7), .pop, .keyed (.add 7)], .keyed (.addAt 1 7),
      .keyed (.deleteLocal 7)]
    ((run BindingRequest.dialect program s).2.chain.heldAt 0 7 = s.chain.heldAt 0 7 ∧
      (run BindingRequest.dialect program s).2.chain.resolve 7 = some 0) ∧
    ((run NameRequest.dialect additions t).2.chain.heldAt 0 7 = t.chain.heldAt 0 7 ∧
      (run NameRequest.dialect additions t).2.chain.resolve 7 = some 0) := by
  intro s program t additions
  have hs : Throughout BindingRequest.dialect (Step.Shadowed (BindingRequest.Spares 0 7) 0 7)
      (runSteps BindingRequest.dialect program s) s := by decide +kernel
  have ht : Throughout NameRequest.dialect (Step.Shadowed (NameRequest.Spares 0 7) 0 7)
      (runSteps NameRequest.dialect additions t) t := by decide +kernel
  exact ⟨⟨((shadowed_entry_stays 0 7).1 program s hs).1, by decide +kernel⟩,
    ((shadowed_entry_stays (ν := Value) 0 7).2 additions t ht).1, by decide +kernel⟩

end Session
end LexicalScope
