import LexicalScope.Proofs.Chain.Related
import LexicalScope.Proofs.Frame.Alike
import LexicalScope.Session.BindingRequest
import LexicalScope.Session.NameRequest

/-!
# Chains with alike frames

Two chains of the same depth whose frames are alike, index by index.  A request about keys
is answered alike by both and leaves chains that are alike again: whichever frame it
reaches, it reaches the one with the same index in the other chain.

Main results:

- Theorems {lit}`BindingRequest.fulfil_related` and {lit}`NameRequest.fulfil_related`: requests
  to chains of bindings and of names, for any relation of frames that the operations on single
  frames keep.
- Theorems {lit}`BindingRequest.fulfil_alike` and {lit}`NameRequest.fulfil_alike`: requests to
  chains whose frames are alike.
-/

namespace LexicalScope

variable {κ ν : Type}

/-! ## Answers that are alike -/

/-- The values that a request writes. -/
def BindingRequest.written : BindingRequest κ ν → Option ν
  | .declare _ value | .declareAt _ _ value => some value
  | .overwrite _ value | .overwriteBelow _ _ value | .assign _ value => some value
  | .get _ | .getBelow _ _ | .has _ | .hasLocal _ | .hasAt _ _ | .resolve _ => none
  | .delete _ | .deleteLocal _ | .demand _ | .keys => none

/-- The answers have related values and listings, the same errors, truth values and indexes. -/
inductive BindingAnswer.Like (A : ν → ν → Prop)
    (G : List (Nat × List κ) → List (Nat × List κ) → Prop) :
    BindingAnswer κ ν → BindingAnswer κ ν → Prop where
  | replaced {old old' : Option ν} (h : Option.Rel A old old') :
      Like A G (.replaced old) (.replaced old')
  | replacedAt {old old' : Except Error (Option ν)} (h : OutcomeRel (Option.Rel A) old old') :
      Like A G (.replacedAt old) (.replacedAt old')
  | outcome {value value' : Except Error ν} (h : OutcomeRel A value value') :
      Like A G (.outcome value) (.outcome value')
  | flag (b : Bool) : Like A G (.flag b) (.flag b)
  | index (index : Option Nat) : Like A G (.index index) (.index index)
  | value {value value' : ν} (h : A value value') : Like A G (.value value) (.value value')
  | keys {groups groups' : List (Nat × List κ)} (h : G groups groups') :
      Like A G (.keys groups) (.keys groups')

/-- The answers have related keys, the same errors, truth values and indexes. -/
inductive NameAnswer.Like (K : κ → κ → Prop) : NameAnswer κ → NameAnswer κ → Prop where
  | added (outcome : Except Error Bool) : Like K (.added outcome) (.added outcome)
  | outcome {key key' : Except Error κ} (h : OutcomeRel K key key') :
      Like K (.outcome key) (.outcome key')
  | flag (b : Bool) : Like K (.flag b) (.flag b)
  | index (index : Option Nat) : Like K (.index index) (.index index)

/-- Answers with equal values and equal listings are equal. -/
theorem BindingAnswer.like_eq {a b : BindingAnswer κ ν} (h : BindingAnswer.Like Eq Eq a b) :
    a = b := by
  cases h with
  | replaced h => rw [optionRel_eq_iff.mp h]
  | replacedAt h => rw [outcomeRel_eq_iff.mp (h.imp fun _ _ => optionRel_eq_iff.mp)]
  | outcome h => rw [outcomeRel_eq_iff.mp h]
  | flag b => rfl
  | index index => rfl
  | value h => rw [h]
  | keys h => rw [h]

/-- Answers with equal keys are equal. -/
theorem NameAnswer.like_eq {a b : NameAnswer κ} (h : NameAnswer.Like Eq a b) : a = b := by
  cases h with
  | added outcome => rfl
  | outcome h => rw [outcomeRel_eq_iff.mp h]
  | flag b => rfl
  | index index => rfl

variable {L : Hasher → Hasher → Prop} {K : κ → κ → Prop} {A : ν → ν → Prop}

/-- If bindings are alike or missing, so are their values. -/
theorem Binding.optionRel_value {a b : Option (Binding κ ν)}
    (h : Option.Rel (Binding.Like K A) a b) :
    Option.Rel A (a.map Binding.value) (b.map Binding.value) := by
  rcases optionRel_cases h with ⟨rfl, rfl⟩ | ⟨x, y, rfl, rfl, hxy⟩
  · exact .none
  · exact .some hxy.value

/-- If bindings are alike or refused, so are their values. -/
theorem Binding.outcomeRel_value {a b : Except Error (Binding κ ν)}
    (h : OutcomeRel (Binding.Like K A) a b) :
    OutcomeRel A (a.map Binding.value) (b.map Binding.value) :=
  h.map fun _ _ hxy => hxy.value

variable [BEq κ]

/-! ## Requests on related frames -/

/-- Operations on related frames answer related entries, and leave the frames related. -/
structure Frame.Compatible {ε : Type} [Entry ε κ] (F : Frame ε → Frame ε → Prop)
    (R : ε → ε → Prop) (permitted : ε → Prop) : Prop where
  find? : ∀ k f g, F f g → Option.Rel R (f.find? k) (g.find? k)
  insert : ∀ e f g, permitted e → F f g →
    Option.Rel R (f.insert e).1 (g.insert e).1 ∧ F (f.insert e).2 (g.insert e).2
  erase? : ∀ k f g, F f g →
    Option.Rel (fun a b => R a.1 b.1 ∧ F a.2 b.2) (f.erase? k) (g.erase? k)

/-- So do the operations on frames of bindings, assignments among them. -/
structure Binding.Compatible [BEq ν] (F : Frame (Binding κ ν) → Frame (Binding κ ν) → Prop)
    (K : κ → κ → Prop) (A : ν → ν → Prop) (permitted : ν → Prop) : Prop
    extends Frame.Compatible F (Binding.Like K A) fun b => permitted b.value where
  modify? : ∀ k v f g, permitted v → F f g →
    Option.Rel (fun a b => Binding.Like K A a.1 b.1 ∧ F a.2 b.2) (f.modify? k fun _ => v)
      (g.modify? k fun _ => v)

open Chain (Related)

section Bindings

variable [BEq ν] {F : Frame (Binding κ ν) → Frame (Binding κ ν) → Prop} {permitted : ν → Prop}
  {c d : Bindings κ ν}

/-- An assignment of a permitted value below an index answers alike and keeps the chains related. -/
theorem Chain.modifyBelow_related (hF : Binding.Compatible F K A permitted) (h : Related L F c d)
    (x : Nat) (k : κ) {v : ν} (hv : permitted v) :
    OutcomeRel A (c.modifyBelow x k fun _ => v).1 (d.modifyBelow x k fun _ => v).1 ∧
      Related L F (c.modifyBelow x k fun _ => v).2 (d.modifyBelow x k fun _ => v).2 := by
  rcases Related.changeBelow (A := Binding.Like K A) h (fun f g => hF.modify? k v f g hv) x with
    ⟨hanswer, hafter⟩
  exact ⟨Binding.outcomeRel_value hanswer, hafter⟩

/-- An assignment of a permitted value answers alike and keeps the chains related. -/
theorem Chain.modify_related (hF : Binding.Compatible F K A permitted) (h : Related L F c d)
    (k : κ) {v : ν} (hv : permitted v) :
    OutcomeRel A (c.modify k fun _ => v).1 (d.modify k fun _ => v).1 ∧
      Related L F (c.modify k fun _ => v).2 (d.modify k fun _ => v).2 := by
  rw [Bindings.modify, Bindings.modify, h.depth]
  exact modifyBelow_related hF h _ k hv

/--
A request to chains of bindings with related frames is answered alike, and leaves the frames
related, if the operations on single frames do so for the values that the request writes.
-/
theorem BindingRequest.fulfil_related [Ord κ] {request : BindingRequest κ ν}
    (hF : Binding.Compatible F K A (· ∈ request.written))
    {G : List (Nat × List κ) → List (Nat × List κ) → Prop} (h : Related L F c d)
    (hgroups : G c.keyGroups d.keyGroups) :
    OutcomeRel (BindingAnswer.Like A G) (request.fulfil c).1 (request.fulfil d).1 ∧
      Related L F (request.fulfil c).2 (request.fulfil d).2 := by
  cases request with
  | declare key value =>
      rcases Related.insert (fun f g => hF.insert ⟨key, value⟩ f g rfl) h with ⟨hanswer, hafter⟩
      exact ⟨.ok (.replaced (Binding.optionRel_value hanswer)), hafter⟩
  | declareAt index key value =>
      rcases Related.insertAt (fun f g => hF.insert ⟨key, value⟩ f g rfl) h index with
        ⟨hanswer, hafter⟩
      exact ⟨.ok (.replacedAt (hanswer.map fun _ _ => Binding.optionRel_value)), hafter⟩
  | get key =>
      exact ⟨.ok (.outcome (Binding.outcomeRel_value (Related.lookup (hF.find? key) h))), h⟩
  | getBelow index key =>
      have hanswer := Related.lookupBelow (hF.find? key) h index
      exact ⟨.ok (.outcome (Binding.outcomeRel_value hanswer)), h⟩
  | overwrite key value | assign key value =>
      rcases Chain.modify_related hF h key rfl with ⟨hanswer, hafter⟩
      exact ⟨.ok (.outcome hanswer), hafter⟩
  | overwriteBelow index key value =>
      rcases Chain.modifyBelow_related hF h index key rfl with ⟨hanswer, hafter⟩
      exact ⟨.ok (.outcome hanswer), hafter⟩
  | has key =>
      have hheld := Related.has (hF.find? key) h
      exact ⟨.ok (by simp only [hheld]; exact .flag _), h⟩
  | hasLocal key =>
      have hheld := Related.hasLocal (hF.find? key) h
      exact ⟨.ok (by simp only [hheld]; exact .flag _), h⟩
  | hasAt index key =>
      have hheld := Related.hasAt (hF.find? key) h index
      exact ⟨.ok (by simp only [hheld]; exact .flag _), h⟩
  | resolve key =>
      have hindex := Related.resolve (hF.find? key) h
      exact ⟨.ok (by simp only [hindex]; exact .index _), h⟩
  | delete key =>
      rcases Related.erase (hF.erase? key) h with ⟨hanswer, hafter⟩
      exact ⟨.ok (.outcome (Binding.outcomeRel_value hanswer)), hafter⟩
  | deleteLocal key =>
      rcases Related.eraseLocal (hF.erase? key) h with ⟨hanswer, hafter⟩
      exact ⟨.ok (.outcome (Binding.outcomeRel_value hanswer)), hafter⟩
  | demand key =>
      have hvalue : OutcomeRel A (c.get key) (d.get key) :=
        Binding.outcomeRel_value (Related.lookup (hF.find? key) h)
      simp only [fulfil]
      rcases outcomeRel_cases hvalue with ⟨v, w, hc, hd, hvw⟩ | ⟨e, hc, hd⟩
      · rw [hc, hd]
        exact ⟨.ok (.value hvw), h⟩
      · rw [hc, hd]
        exact ⟨.error Fault.unbound, h⟩
  | keys => exact ⟨.ok (.keys hgroups), h⟩

end Bindings

/-- The same for chains of names. -/
theorem NameRequest.fulfil_related {F : Frame (Member κ) → Frame (Member κ) → Prop}
    (hF : Frame.Compatible F (Member.Like K) fun _ => True) {request : NameRequest κ}
    {c d : Names κ} (h : Related L F c d) :
    OutcomeRel (NameAnswer.Like K) (request.fulfil c).1 (request.fulfil d).1 ∧
      Related L F (request.fulfil c).2 (request.fulfil d).2 := by
  have hkey : ∀ {a b : Except Error (Member κ)}, OutcomeRel (Member.Like K) a b →
      OutcomeRel K (a.map Member.key) (b.map Member.key) := fun hab => hab.map fun _ _ hxy => hxy
  have hnew : ∀ {a b : Option (Member κ)}, Option.Rel (Member.Like K) a b →
      a.isNone = b.isNone := by
    intro a b hab
    rcases optionRel_cases hab with ⟨rfl, rfl⟩ | ⟨x, y, rfl, rfl, -⟩ <;> rfl
  cases request with
  | add key =>
      rcases Related.insert (fun f g => hF.insert ⟨key⟩ f g trivial) h with ⟨hanswer, hafter⟩
      have hflag := hnew hanswer
      refine ⟨.ok ?_, hafter⟩
      change NameAnswer.Like K (.flag (c.insert ⟨key⟩).1.isNone) (.flag (d.insert ⟨key⟩).1.isNone)
      rw [hflag]
      exact .flag _
  | addAt index key =>
      rcases Related.insertAt (fun f g => hF.insert ⟨key⟩ f g trivial) h index with
        ⟨hanswer, hafter⟩
      have hsame : (c.addAt index key).1 = (d.addAt index key).1 :=
        outcomeRel_eq_iff.mp (hanswer.map fun _ _ => hnew)
      refine ⟨.ok ?_, hafter⟩
      change NameAnswer.Like K (.added (c.addAt index key).1) (.added (d.addAt index key).1)
      rw [hsame]
      exact .added _
  | get key => exact ⟨.ok (.outcome (hkey (Related.lookup (hF.find? key) h))), h⟩
  | has key =>
      have hheld := Related.has (hF.find? key) h
      exact ⟨.ok (by simp only [hheld]; exact .flag _), h⟩
  | hasLocal key =>
      have hheld := Related.hasLocal (hF.find? key) h
      exact ⟨.ok (by simp only [hheld]; exact .flag _), h⟩
  | hasAt index key =>
      have hheld := Related.hasAt (hF.find? key) h index
      exact ⟨.ok (by simp only [hheld]; exact .flag _), h⟩
  | resolve key =>
      have hindex := Related.resolve (hF.find? key) h
      exact ⟨.ok (by simp only [hindex]; exact .index _), h⟩
  | delete key =>
      rcases Related.erase (hF.erase? key) h with ⟨hanswer, hafter⟩
      exact ⟨.ok (.outcome (hkey hanswer)), hafter⟩
  | deleteLocal key =>
      rcases Related.eraseLocal (hF.erase? key) h with ⟨hanswer, hafter⟩
      exact ⟨.ok (.outcome (hkey hanswer)), hafter⟩

/-! ## Requests on frames that are alike -/

variable [EquivBEq κ]

/-- Being alike is compatible with frames, if the relation of the entries survives replacing. -/
theorem Frame.compatible_alike {ε : Type} [Entry ε κ] {R : ε → ε → Prop} {permitted : ε → Prop}
    (hreplaces : Entry.Replaces R) (hpermitted : ∀ e, permitted e → R e e) :
    Frame.Compatible (Frame.Alike L R) R permitted where
  find? := fun k _ _ hfg => hfg.find? k
  insert := fun _ _ _ he hfg => hfg.insert hreplaces ⟨BEq.rfl, hpermitted _ he⟩
  erase? := fun k _ _ hfg => hfg.erase? k

/--
Being alike is compatible with frames of bindings, if keys and permitted values are like
themselves.
-/
theorem Binding.compatible_alike [BEq ν] (hK : ∀ k, K k k) {permitted : ν → Prop}
    (hpermitted : ∀ v, permitted v → A v v) :
    Binding.Compatible (Frame.Alike L (Binding.Like K A)) K A permitted where
  toCompatible :=
    Frame.compatible_alike Binding.replaces_like fun b hb => ⟨hK b.key, hpermitted _ hb⟩
  modify? := fun k _ _ _ hv hfg => hfg.modify? k (hpermitted _ hv)

/--
A request is answered alike by chains of bindings that are alike, and leaves them so, if
the values that it writes are related to themselves.
-/
theorem BindingRequest.fulfil_alike [BEq ν] [Ord κ] (hK : ∀ k, K k k)
    {G : List (Nat × List κ) → List (Nat × List κ) → Prop} {request : BindingRequest κ ν}
    (hwritten : ∀ v ∈ request.written, A v v) {c d : Bindings κ ν}
    (h : Related L (Frame.Alike L (Binding.Like K A)) c d) (hgroups : G c.keyGroups d.keyGroups) :
    OutcomeRel (BindingAnswer.Like A G) (request.fulfil c).1 (request.fulfil d).1 ∧
      Related L (Frame.Alike L (Binding.Like K A)) (request.fulfil c).2 (request.fulfil d).2 :=
  fulfil_related (Binding.compatible_alike hK hwritten) h hgroups

/-- A request is answered alike by chains of names that are alike, and leaves them so. -/
theorem NameRequest.fulfil_alike (hK : ∀ k, K k k) {request : NameRequest κ} {c d : Names κ}
    (h : Related L (Frame.Alike L (Member.Like K)) c d) :
    OutcomeRel (NameAnswer.Like K) (request.fulfil c).1 (request.fulfil d).1 ∧
      Related L (Frame.Alike L (Member.Like K)) (request.fulfil c).2 (request.fulfil d).2 :=
  fulfil_related (Frame.compatible_alike Member.replaces_like fun m _ => hK m.key) h

end LexicalScope
