import LexicalScope.Chain.Keyed
import LexicalScope.Proofs.Stack.Related

/-!
# Chains with related frames

Two chains whose hashers are related and whose frames are related index by index.
What an operation on keys does to such chains depends only on what it does to single
frames: if related frames answer alike and stay related, the chains answer alike and
stay related.

Main results:

- Theorems {lit}`Chain.Related.lookupBelow` and {lit}`Chain.Related.resolve`: look-ups end in
  the same frame.
- Theorems {lit}`Chain.Related.insertAt` and {lit}`Chain.Related.changeBelow`: changes are made
  in the same frame, or refused for the same reason.
-/

namespace LexicalScope
namespace Chain

variable {ε κ ε' κ' : Type} [Entry ε κ] [BEq κ] [Entry ε' κ'] [BEq κ']

/-- The chains have related hashers and related frames, index by index. -/
structure Related (L : Hasher → Hasher → Prop) (F : Frame ε → Frame ε' → Prop) (c : Chain ε)
    (d : Chain ε') : Prop where
  label : L c.hasher d.hasher
  stack : c.stack.Related F d.stack

namespace Related

variable {L : Hasher → Hasher → Prop} {F : Frame ε → Frame ε' → Prop} {A : ε → ε' → Prop}
  {c : Chain ε} {d : Chain ε'}

theorem refl {L : Hasher → Hasher → Prop} {F : Frame ε → Frame ε → Prop} (hL : ∀ h, L h h)
    (hF : ∀ f, F f f) (c : Chain ε) : Related L F c c :=
  ⟨hL _, .refl hF _⟩

theorem trans {L : Hasher → Hasher → Prop} {F : Frame ε → Frame ε → Prop}
    (hL : ∀ h h' h'', L h h' → L h' h'' → L h h'') (hF : ∀ f g g', F f g → F g g' → F f g')
    {c d e : Chain ε} (h : Related L F c d) (h' : Related L F d e) : Related L F c e :=
  ⟨hL _ _ _ h.label h'.label, h.stack.trans hF h'.stack⟩

/-- Two chains are equal if and only if their frames are, whatever hashers they have. -/
theorem beq_iff_related {c d : Chain ε} :
    (c == d) = true ↔ Related (fun _ _ => True) (fun f g => (f == g) = true) c d :=
  Stack.Related.beq_iff_related.trans ⟨fun h => ⟨trivial, h⟩, fun h => h.stack⟩

/-! ## Frames -/

/-- Related chains are equally deep. -/
theorem depth (h : Related L F c d) : c.depth = d.depth :=
  h.stack.depth

/-- Pushing related frames keeps chains related. -/
theorem pushFrame (h : Related L F c d) {f : Frame ε} {g : Frame ε'} (hfg : F f g) :
    Related L F (c.pushFrame f) (d.pushFrame g) :=
  ⟨h.label, h.stack.push hfg⟩

/-- Related chains give related frames away, or both refuse, and stay related. -/
theorem pop (h : Related L F c d) :
    OutcomeRel F c.pop.1 d.pop.1 ∧ Related L F c.pop.2 d.pop.2 :=
  ⟨h.stack.pop.1, h.label, h.stack.pop.2⟩

/-! ## Look-up -/

section Keys

variable {k : κ} {k' : κ'} (hfind : ∀ f g, F f g → Option.Rel A (f.find? k) (g.find? k'))
include hfind

omit c d in
/-- If related frames find related entries, they contain the same keys. -/
theorem contains {f : Frame ε} {g : Frame ε'} (h : F f g) : f.contains k = g.contains k' := by
  rw [Frame.contains_eq_isSome_find?, Frame.contains_eq_isSome_find?]
  exact optionRel_isSome (hfind f g h)

/-- Look-ups below an index find related entries, or neither finds one. -/
theorem lookupBelow (h : Related L F c d) (x : Nat) :
    OutcomeRel A (c.lookupBelow x k) (d.lookupBelow x k') := by
  rw [Chain.lookupBelow, Chain.lookupBelow]
  rcases optionRel_cases (h.stack.findSomeBelow? hfind x) with ⟨hc, hd⟩ | ⟨a, b, hc, hd, hab⟩
  · rw [hc, hd]
    exact .error _
  · rw [hc, hd]
    exact .ok hab

/-- Look-ups find related entries, or neither finds one. -/
theorem lookup (h : Related L F c d) : OutcomeRel A (c.lookup k) (d.lookup k') := by
  rw [Chain.lookup, Chain.lookup, h.depth]
  exact h.lookupBelow hfind _

/-- A key is somewhere in one chain if and only if its partner is in the other. -/
theorem has (h : Related L F c d) : c.has k = d.has k' := by
  rw [Chain.has, Chain.has, h.depth]
  exact h.stack.anyBelow (fun _ _ => contains hfind) _

/-- The current frames agree about a key and its partner. -/
theorem hasLocal (h : Related L F c d) : c.hasLocal k = d.hasLocal k' :=
  contains hfind h.stack.top

/-- The frames with an index agree about a key and its partner. -/
theorem hasAt (h : Related L F c d) (i : Nat) : c.hasAt i k = d.hasAt i k' :=
  h.stack.any_frame? (fun _ _ => contains hfind) i

/-- A key and its partner resolve to the same index. -/
theorem resolve (h : Related L F c d) : c.resolve k = d.resolve k' :=
  h.stack.position fun _ _ => contains hfind

end Keys

/-! ## Inserting -/

section Inserting

variable {e : ε} {e' : ε'} (hinsert : ∀ f g, F f g →
  Option.Rel A (f.insert e).1 (g.insert e').1 ∧ F (f.insert e).2 (g.insert e').2)
include hinsert

/-- Related entries replace related ones, and the chains stay related. -/
theorem insert (h : Related L F c d) :
    Option.Rel A (c.insert e).1 (d.insert e').1 ∧ Related L F (c.insert e).2 (d.insert e').2 := by
  rcases h.stack.modifyTop hinsert with ⟨hanswer, hstack⟩
  exact ⟨hanswer, h.label, hstack⟩

/-- At an index related entries replace related ones, or both insertions are refused. -/
theorem insertAt (h : Related L F c d) (i : Nat) :
    OutcomeRel (Option.Rel A) (c.insertAt i e).1 (d.insertAt i e').1 ∧
      Related L F (c.insertAt i e).2 (d.insertAt i e').2 := by
  rcases h.stack.modifyFrame hinsert i with ⟨hanswer, hstack⟩
  unfold Chain.insertAt
  rcases hc : c.stack.modifyFrame i fun frame => frame.insert e with ⟨a, s⟩
  rcases hd : d.stack.modifyFrame i fun frame => frame.insert e' with ⟨b, t⟩
  rw [hc, hd] at hanswer hstack
  rcases optionRel_cases hanswer with ⟨rfl, rfl⟩ | ⟨x, y, rfl, rfl, hxy⟩
  · have hdepth : s.depth = t.depth := hstack.depth
    simp only [hdepth]
    exact ⟨.error _, h.label, hstack⟩
  · exact ⟨.ok hxy, h.label, hstack⟩

end Inserting

/-! ## Changing and erasing -/

/-- A change that answers alike on related frames is made at the same index. -/
theorem changeBelow (h : Related L F c d) {change : Frame ε → Option (ε × Frame ε)}
    {change' : Frame ε' → Option (ε' × Frame ε')}
    (hchange : ∀ f g, F f g →
      Option.Rel (fun a b => A a.1 b.1 ∧ F a.2 b.2) (change f) (change' g)) (x : Nat) :
    OutcomeRel A (c.changeBelow x change).1 (d.changeBelow x change').1 ∧
      Related L F (c.changeBelow x change).2 (d.changeBelow x change').2 := by
  rcases h.stack.changeFirstBelow hchange x with ⟨hanswer, hstack⟩
  unfold Chain.changeBelow
  rcases hc : c.stack.changeFirstBelow x change with ⟨a, s⟩
  rcases hd : d.stack.changeFirstBelow x change' with ⟨b, t⟩
  rw [hc, hd] at hanswer hstack
  rcases optionRel_cases hanswer with ⟨rfl, rfl⟩ | ⟨x, y, rfl, rfl, hxy⟩
  · exact ⟨.error _, h.label, hstack⟩
  · exact ⟨.ok hxy, h.label, hstack⟩

section Erasing

variable {k : κ} {k' : κ'} (herase : ∀ f g, F f g →
  Option.Rel (fun a b => A a.1 b.1 ∧ F a.2 b.2) (f.erase? k) (g.erase? k'))
include herase

/-- Related entries are taken out, or neither chain holds one, and the chains stay related. -/
theorem erase (h : Related L F c d) :
    OutcomeRel A (c.erase k).1 (d.erase k').1 ∧ Related L F (c.erase k).2 (d.erase k').2 := by
  unfold Chain.erase
  rw [h.depth]
  exact h.changeBelow herase _

/-- Related entries are taken out of the current frames, or neither holds one. -/
theorem eraseLocal (h : Related L F c d) :
    OutcomeRel A (c.eraseLocal k).1 (d.eraseLocal k').1 ∧
      Related L F (c.eraseLocal k).2 (d.eraseLocal k').2 := by
  unfold Chain.eraseLocal
  rcases optionRel_cases (herase _ _ h.stack.top) with ⟨hc, hd⟩ | ⟨⟨a, f⟩, ⟨b, g⟩, hc, hd, hab, hfg⟩
  · rw [hc, hd]
    exact ⟨.error _, h⟩
  · have hstack := h.stack.modifyTop (f := fun _ => ((), f)) (g := fun _ => ((), g))
      (A := fun _ _ => True) fun _ _ _ => ⟨trivial, hfg⟩
    rw [hc, hd]
    exact ⟨.ok hab, h.label, hstack.2⟩

end Erasing

/-! ## Changing one of two related chains -/

/-- An entry may be inserted into one chain alone if its frame still suits its partner. -/
theorem insert_left (h : Related L F c d) {e : ε} (hinsert : ∀ f g, F f g → F (f.insert e).2 g) :
    Related L F (c.insert e).2 d :=
  ⟨h.label, h.stack.modifyTop_left hinsert⟩

/-- An entry may be inserted by index into one chain alone if its frame still suits its partner. -/
theorem insertAt_left (h : Related L F c d) {e : ε} (hinsert : ∀ f g, F f g → F (f.insert e).2 g)
    (i : Nat) : Related L F (c.insertAt i e).2 d := by
  have hafter : (c.insertAt i e).2 =
      { c with stack := (c.stack.modifyFrame i fun frame => frame.insert e).2 } := by
    unfold Chain.insertAt
    rcases c.stack.modifyFrame i fun frame => frame.insert e with ⟨_ | _, _⟩ <;> rfl
  rw [hafter]
  exact ⟨h.label, h.stack.modifyFrame_left hinsert i⟩

/-- A frame may be changed in one chain alone if it still suits its partner. -/
theorem changeBelow_left (h : Related L F c d) {change : Frame ε → Option (ε × Frame ε)}
    (hchange : ∀ f g a, F f g → change f = some a → F a.2 g) (x : Nat) :
    Related L F (c.changeBelow x change).2 d := by
  have hafter : (c.changeBelow x change).2 =
      { c with stack := (c.stack.changeFirstBelow x change).2 } := by
    unfold Chain.changeBelow
    rcases c.stack.changeFirstBelow x change with ⟨_ | _, _⟩ <;> rfl
  rw [hafter]
  exact ⟨h.label, h.stack.changeFirstBelow_left hchange x⟩

/-- An entry may be taken out of one current frame alone if the frame still suits its partner. -/
theorem eraseLocal_left (h : Related L F c d) {k : κ}
    (herase : ∀ f g a, F f g → f.erase? k = some a → F a.2 g) :
    Related L F (c.eraseLocal k).2 d := by
  unfold Chain.eraseLocal
  cases hc : c.stack.top.erase? k with
  | none => exact h
  | some a =>
      have htop : F a.2 d.stack.top := herase _ _ a h.stack.top hc
      refine ⟨h.label, h.stack.setFrame_left fun y hy => ?_⟩
      have hsize : c.stack.pushed.size = d.stack.pushed.size := Nat.succ.inj h.depth
      rw [hsize, Stack.frame?_top, Option.some.injEq] at hy
      rw [← hy]
      exact htop

end Related
end Chain
end LexicalScope
