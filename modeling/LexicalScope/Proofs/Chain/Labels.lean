import LexicalScope.Proofs.Chain.Related
import LexicalScope.Proofs.Frame.Agree
import LexicalScope.Proofs.Stack.Plain
import LexicalScope.Session.BindingRequest
import LexicalScope.Session.NameRequest

/-!
# The labels of a chain

A chain has a label of its own, which new frames get, and each of its frames has one.  Whatever is
asked of the keys, all these labels stay; they come and go with whole frames only.

Main results:

- Theorem {lit}`Chain.labels_pop`: popping a frame takes the last label off.
- Theorems {lit}`BindingRequest.keepsLabels` and {lit}`NameRequest.keepsLabels`: no request about
  keys changes a label.
-/

namespace LexicalScope

variable {ε ι ρ κ ν : Type}

namespace Chain

/-- The labels of a chain: the hasher that new frames get, and those of the frames from the root. -/
structure Labels where
  own : Hasher
  frames : List Hasher
  deriving DecidableEq

namespace Labels

/-- The labels of a chain that is just made. -/
def created (label : Hasher) : Labels :=
  ⟨label, [label]⟩

/-- The labels after a frame was pushed. -/
def push (l : Labels) (label : Hasher) : Labels :=
  { l with frames := l.frames ++ [label] }

/-- The label of the current frame, unless it is the root, and the labels after it was popped. -/
def pop (l : Labels) : Option Hasher × Labels :=
  if 1 < l.frames.length then (l.frames.getLast?, { l with frames := l.frames.dropLast })
  else (none, l)

/-- The chain gives new frames the label, and the root has it. -/
structure Carries (label : Hasher) (l : Labels) : Prop where
  own : l.own = label
  root : l.frames.head? = some label

theorem Carries.created (label : Hasher) : (created label).Carries label :=
  ⟨rfl, rfl⟩

/-- Labels that carry a label still do so after a push. -/
theorem Carries.push {label : Hasher} {l : Labels} (h : l.Carries label) (pushed : Hasher) :
    (l.push pushed).Carries label := by
  refine ⟨h.own, ?_⟩
  rw [Labels.push, List.head?_append, h.root]
  rfl

/-- Labels that carry a label still do so after a pop, which never takes the root. -/
theorem Carries.pop {label : Hasher} {l : Labels} (h : l.Carries label) :
    l.pop.2.Carries label := by
  rw [Labels.pop]
  split
  · next hlength =>
    refine ⟨h.own, ?_⟩
    rw [List.head?_dropLast, if_pos hlength]
    exact h.root
  · exact h

end Labels

variable [Entry ε κ] [BEq κ]

/-- The labels of a chain. -/
def labels (c : Chain ε) : Labels :=
  ⟨c.hasher, c.hashers⟩

/-- A frame that is pushed adds its label at the end. -/
theorem labels_pushFrame (c : Chain ε) (frame : Frame ε) :
    (c.pushFrame frame).labels = c.labels.push frame.hasher := by
  rw [labels, hashers, pushFrame, Stack.toList_push, List.map_append]
  rfl

/-- A popped frame takes its label with it, and the other labels stay. -/
theorem labels_pop (c : Chain ε) :
    (c.pop.1.toOption.map Frame.hasher, c.pop.2.labels) = c.labels.pop := by
  have hlength : c.labels.frames.length = c.stack.depth := by
    rw [labels, hashers, List.length_map, Stack.length_toList]
  have hpop : c.pop = (c.stack.pop.1, { c with stack := c.stack.pop.2 }) := rfl
  have hplain := c.stack.pop_plain
  rw [Stack.Plain.pop] at hplain
  rw [hpop, Labels.pop, hlength]
  split at hplain
  · next h =>
    have hdepth : c.stack.depth = 1 := c.stack.length_toList.symm.trans h
    rw [c.stack.pop_of_depth_eq_one hdepth, if_neg (by omega)]
    rfl
  · next h =>
    have hdepth : 1 < c.stack.depth := by
      have hpos := c.stack.depth_pos
      have hne : c.stack.depth ≠ 1 := fun hone => h (c.stack.length_toList.trans hone)
      omega
    have hlist : c.stack.pop.2.toList = c.stack.toList.dropLast :=
      (congrArg (fun outcome => outcome.2.frames) hplain).symm
    have htop : c.stack.toList.getLast? = some c.stack.top := by
      rw [← Stack.getLast_plain, List.getLast?_eq_some_getLast]
      rfl
    rw [if_pos hdepth, labels, labels, hashers, hashers, hlist, List.map_dropLast,
      List.getLast?_map, htop, c.stack.pop_of_one_lt_depth hdepth]
    rfl

/-! ## Requests about keys -/

/-- The chains have the same label of their own, and so have their frames in pairs. -/
def SameLabels (c d : Chain ε) : Prop :=
  Related (fun l l' => l = l') (fun f g => f.hasher = g.hasher) c d

theorem SameLabels.refl (c : Chain ε) : SameLabels c c :=
  Related.refl (F := fun f g => f.hasher = g.hasher) (fun _ => rfl) (fun _ => rfl) c

/-- Chains whose frames have the same labels in pairs have equal labels. -/
theorem SameLabels.labels_eq {c d : Chain ε} (h : SameLabels c d) : c.labels = d.labels := by
  rw [labels, labels, h.label, hashers, hashers,
    map_eq_map_of_forall₂ h.stack fun _ _ hframes => hframes]

end Chain

/-- No request changes the label of a chain or of one of its frames. -/
def Dialect.KeepsLabels [Entry ε κ] [BEq κ] (dialect : Dialect ε ι ρ) : Prop :=
  ∀ request c, (dialect.fulfil request c).2.labels = c.labels

section Dialects

variable [BEq κ]

open Chain (Related)

/-- Changing a value keeps the hasher of the frame. -/
theorem Frame.hasher_of_modify? [BEq ν] {f : Frame (Binding κ ν)} {k : κ} {change : ν → ν}
    {found : Binding κ ν × Frame (Binding κ ν)} (h : f.modify? k change = some found) :
    found.2.hasher = f.hasher := by
  rcases Option.map_eq_some_iff.mp h with ⟨old, -, rfl⟩
  rfl

/-- Requests to a chain of bindings change no label. -/
theorem BindingRequest.keepsLabels [BEq ν] [Ord κ] [Display κ] [Display ν] :
    (dialect : Dialect (Binding κ ν) (BindingRequest κ ν) (BindingAnswer κ ν)).KeepsLabels := by
  intro request c
  have hself := Chain.SameLabels.refl c
  cases request with
  | declare key value => exact Chain.SameLabels.labels_eq (Related.insert_left hself fun _ _ h => h)
  | declareAt index key value =>
      exact Chain.SameLabels.labels_eq (Related.insertAt_left hself (fun _ _ h => h) index)
  | overwrite key value | overwriteBelow _ key value | assign key value =>
      exact Chain.SameLabels.labels_eq (Related.changeBelow_left hself
        (fun _ _ _ h hf => (Frame.hasher_of_modify? hf).trans h) _)
  | delete key =>
      exact Chain.SameLabels.labels_eq (Related.changeBelow_left hself
        (fun _ _ _ h hf => (Frame.hasher_of_erase? hf).trans h) _)
  | deleteLocal key =>
      exact Chain.SameLabels.labels_eq (Related.eraseLocal_left hself
        fun _ _ _ h hf => (Frame.hasher_of_erase? hf).trans h)
  | demand key => exact congrArg Chain.labels (fulfil_demand key c)
  | get | getBelow | has | hasLocal | hasAt | resolve | keys => rfl

/-- Requests to a chain of names change no label. -/
theorem NameRequest.keepsLabels [Display κ] :
    (dialect : Dialect (Member κ) (NameRequest κ) (NameAnswer κ)).KeepsLabels := by
  intro request c
  have hself := Chain.SameLabels.refl c
  cases request with
  | add key => exact Chain.SameLabels.labels_eq (Related.insert_left hself fun _ _ h => h)
  | addAt index key =>
      exact Chain.SameLabels.labels_eq (Related.insertAt_left hself (fun _ _ h => h) index)
  | delete key =>
      exact Chain.SameLabels.labels_eq (Related.changeBelow_left hself
        (fun _ _ _ h hf => (Frame.hasher_of_erase? hf).trans h) _)
  | deleteLocal key =>
      exact Chain.SameLabels.labels_eq (Related.eraseLocal_left hself
        fun _ _ _ h hf => (Frame.hasher_of_erase? hf).trans h)
  | get | has | hasLocal | hasAt | resolve => rfl

end Dialects

end LexicalScope
