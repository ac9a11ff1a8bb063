import Mathlib.Data.List.Forall2
import LexicalScope.Proofs.Stack.Keep
import LexicalScope.Proofs.Stack.Search

/-!
# Stacks with related frames

Two stacks of the same depth whose frames are related index by index.  An operation
does related things to them if it does related things to related frames: it then
answers alike, and the stacks after it are related again.  An operation on one of the
stacks alone keeps them related if it keeps every single frame related to its partner.

Main results:

- Theorems {lit}`Stack.Related.push` and {lit}`Stack.Related.pop`: related stacks grow and
  shrink alike.
- Theorems {lit}`Stack.Related.findSomeBelow?` and {lit}`Stack.Related.position`: searches
  end at the same index.
- Theorem {lit}`Stack.Related.changeFirstBelow`: a change of the first frame that answers
  happens at the same index.
-/

namespace LexicalScope

/-! ## Related outcomes -/

/-- Both outcomes are errors, namely the same, or neither is and the results are related. -/
inductive OutcomeRel {δ α β : Type} (A : α → β → Prop) : Except δ α → Except δ β → Prop where
  | ok {a : α} {b : β} (h : A a b) : OutcomeRel A (.ok a) (.ok b)
  | error (e : δ) : OutcomeRel A (.error e) (.error e)

/-- Related outcomes are related results, or the same error. -/
theorem outcomeRel_cases {δ α β : Type} {A : α → β → Prop} {a : Except δ α} {b : Except δ β}
    (h : OutcomeRel A a b) :
    (∃ x y, a = .ok x ∧ b = .ok y ∧ A x y) ∨ ∃ e, a = .error e ∧ b = .error e := by
  cases h with
  | ok h => exact Or.inl ⟨_, _, rfl, rfl, h⟩
  | error e => exact Or.inr ⟨e, rfl, rfl⟩

/-- Outcomes are related by equality if and only if they are equal. -/
theorem outcomeRel_eq_iff {δ α : Type} {a b : Except δ α} : OutcomeRel Eq a b ↔ a = b := by
  constructor
  · intro h
    rcases outcomeRel_cases h with ⟨x, y, rfl, rfl, rfl⟩ | ⟨e, rfl, rfl⟩ <;> rfl
  · rintro rfl
    cases a with
    | error e => exact .error e
    | ok a => exact .ok rfl

/-- Related outcomes stay related if their results are mapped to related ones. -/
theorem OutcomeRel.map {δ α β α' β' : Type} {A : α → β → Prop} {A' : α' → β' → Prop} {f : α → α'}
    {g : β → β'} {a : Except δ α} {b : Except δ β} (h : OutcomeRel A a b)
    (hfg : ∀ x y, A x y → A' (f x) (g y)) : OutcomeRel A' (a.map f) (b.map g) := by
  cases h with
  | ok h => exact .ok (hfg _ _ h)
  | error e => exact .error e

/-- Outcomes are related by every weaker relation too. -/
theorem OutcomeRel.imp {δ α β : Type} {A B : α → β → Prop} {a : Except δ α} {b : Except δ β}
    (h : OutcomeRel A a b) (hAB : ∀ x y, A x y → B x y) : OutcomeRel B a b := by
  cases h with
  | ok h => exact .ok (hAB _ _ h)
  | error e => exact .error e

/-- Related options are both empty, or they hold related items. -/
theorem optionRel_cases {α β : Type} {A : α → β → Prop} {a : Option α} {b : Option β}
    (h : Option.Rel A a b) :
    (a = none ∧ b = none) ∨ ∃ x y, a = some x ∧ b = some y ∧ A x y := by
  cases h with
  | none => exact Or.inl ⟨rfl, rfl⟩
  | some h => exact Or.inr ⟨_, _, rfl, rfl, h⟩

/-- Relating options keeps a relation reflexive. -/
theorem optionRel_refl {α : Type} {A : α → α → Prop} (hA : ∀ x, A x x) (a : Option α) :
    Option.Rel A a a := by
  cases a with
  | none => exact .none
  | some x => exact .some (hA x)

/-- Options are related by equality if and only if they are equal. -/
theorem optionRel_eq_iff {α : Type} {a b : Option α} : Option.Rel Eq a b ↔ a = b := by
  constructor
  · intro h
    rcases optionRel_cases h with ⟨rfl, rfl⟩ | ⟨x, y, rfl, rfl, rfl⟩ <;> rfl
  · rintro rfl
    exact optionRel_refl (fun _ => rfl) a

/-- Of related options, one holds something if and only if the other does. -/
theorem optionRel_isSome {α β : Type} {A : α → β → Prop} {a : Option α} {b : Option β}
    (h : Option.Rel A a b) : a.isSome = b.isSome := by
  rcases optionRel_cases h with ⟨rfl, rfl⟩ | ⟨x, y, rfl, rfl, -⟩ <;> rfl

/-- Relating options keeps a relation symmetric. -/
theorem optionRel_symm {α β : Type} {A : α → β → Prop} {B : β → α → Prop}
    (hAB : ∀ x y, A x y → B y x) {a : Option α} {b : Option β} (h : Option.Rel A a b) :
    Option.Rel B b a := by
  rcases optionRel_cases h with ⟨rfl, rfl⟩ | ⟨x, y, rfl, rfl, hxy⟩
  · exact .none
  · exact .some (hAB x y hxy)

/-- Relating options keeps a relation transitive. -/
theorem optionRel_trans {α : Type} {A : α → α → Prop} (hA : ∀ x y z, A x y → A y z → A x z)
    {a b c : Option α} (hab : Option.Rel A a b) (hbc : Option.Rel A b c) : Option.Rel A a c := by
  rcases optionRel_cases hab with ⟨rfl, rfl⟩ | ⟨x, y, rfl, rfl, hxy⟩
  · exact hbc
  · rcases optionRel_cases hbc with ⟨hnone, -⟩ | ⟨_, z, hsome, rfl, hyz⟩
    · cases hnone
    · rw [Option.some.injEq] at hsome
      subst hsome
      exact .some (hA _ _ _ hxy hyz)

/-! ## Lists whose items are related -/

section Lists

variable {φ ψ : Type} {F : φ → ψ → Prop} {xs : List φ} {ys : List ψ}

/-- Related lists have related items, or none, at every index. -/
theorem rel_getElem? (h : List.Forall₂ F xs ys) (i : Nat) : Option.Rel F xs[i]? ys[i]? := by
  induction h generalizing i with
  | nil => exact .none
  | cons hhead _ ih =>
      cases i with
      | zero => exact .some hhead
      | succ i => exact ih i

/-- Related lists stay related if an item of one and its partner are changed into related ones. -/
theorem forall₂_set_modify (h : List.Forall₂ F xs ys) {x : φ} {i : Nat} {change : ψ → ψ}
    (hx : ∀ y, ys[i]? = some y → F x (change y)) :
    List.Forall₂ F (xs.set i x) (ys.modify i change) := by
  induction h generalizing i with
  | nil =>
      rw [List.modify_nil]
      exact .nil
  | cons hhead htail ih =>
      cases i with
      | zero => exact .cons (hx _ rfl) htail
      | succ i => exact .cons hhead (ih hx)

/-- Related lists stay related if related items are put at the same index. -/
theorem forall₂_set (h : List.Forall₂ F xs ys) {x : φ} {y : ψ} (hxy : F x y) (i : Nat) :
    List.Forall₂ F (xs.set i x) (ys.set i y) := by
  rw [List.set_eq_modify y]
  exact forall₂_set_modify h fun _ _ => hxy

/-- Related lists stay related if the item put into one suits what the other has there. -/
theorem forall₂_set_left (h : List.Forall₂ F xs ys) {x : φ} {i : Nat}
    (hx : ∀ y, ys[i]? = some y → F x y) : List.Forall₂ F (xs.set i x) ys := by
  rw [← List.modify_id i ys]
  exact forall₂_set_modify h hx

/-- Every item of one list has a related item in the other. -/
theorem exists_of_mem_left (h : List.Forall₂ F xs ys) {x : φ} (hx : x ∈ xs) : ∃ y ∈ ys, F x y := by
  induction h with
  | nil => cases hx
  | cons hhead _ ih =>
      rcases List.mem_cons.mp hx with rfl | hmem
      · exact ⟨_, List.mem_cons_self, hhead⟩
      · rcases ih hmem with ⟨y, hy, hxy⟩
        exact ⟨y, List.mem_cons_of_mem _ hy, hxy⟩

/-- Relating lists item by item keeps a relation transitive. -/
theorem forall₂_trans {F : φ → φ → Prop} (hF : ∀ x y z, F x y → F y z → F x z)
    {xs ys zs : List φ} (h : List.Forall₂ F xs ys) (h' : List.Forall₂ F ys zs) :
    List.Forall₂ F xs zs := by
  induction h generalizing zs with
  | nil => exact h'
  | cons hhead _ ih =>
      rcases List.forall₂_cons_left_iff.mp h' with ⟨z, rest, hz, hrest, rfl⟩
      exact .cons (hF _ _ _ hhead hz) (ih hrest)

/-- Related lists become equal if related items are mapped to equal ones. -/
theorem map_eq_map_of_forall₂ (h : List.Forall₂ F xs ys) {γ : Type} {f : φ → γ} {g : ψ → γ}
    (hfg : ∀ x y, F x y → f x = g y) : xs.map f = ys.map g := by
  induction h with
  | nil => rfl
  | cons hhead _ ih => rw [List.map_cons, List.map_cons, hfg _ _ hhead, ih]

/-- A test that does not tell related items apart passes on both lists or on neither. -/
theorem all_eq_all_of_forall₂ (h : List.Forall₂ F xs ys) {p : φ → Bool} {q : ψ → Bool}
    (hpq : ∀ x y, F x y → p x = q y) : xs.all p = ys.all q := by
  induction h with
  | nil => rfl
  | cons hhead _ ih => rw [List.all_cons, List.all_cons, hpq _ _ hhead, ih]

end Lists

namespace Stack

variable {φ ψ α β : Type} {F : φ → ψ → Prop} {A : α → β → Prop} {s : Stack φ} {t : Stack ψ}

/-- The stacks have the same depth, and their frames are related index by index. -/
def Related (F : φ → ψ → Prop) (s : Stack φ) (t : Stack ψ) : Prop :=
  List.Forall₂ F s.toList t.toList

namespace Related

theorem refl {F : φ → φ → Prop} (hF : ∀ x, F x x) (s : Stack φ) : Related F s s :=
  List.forall₂_same.mpr fun x _ => hF x

theorem trans {F : φ → φ → Prop} (hF : ∀ x y z, F x y → F y z → F x z) {s t u : Stack φ}
    (h : Related F s t) (h' : Related F t u) : Related F s u :=
  forall₂_trans hF h h'

/-! ## Depth and single frames -/

/-- Related stacks are equally deep. -/
theorem depth (h : Related F s t) : s.depth = t.depth := by
  rw [← length_toList, ← length_toList]
  exact h.length_eq

/-- Related stacks have related frames, or none, at every index. -/
theorem frame? (h : Related F s t) (i : Nat) : Option.Rel F (s.frame? i) (t.frame? i) := by
  rw [frame?_eq_getElem?, frame?_eq_getElem?]
  exact rel_getElem? h i

/-- Two stacks are related if they have the same depth and all indexes give related frames. -/
theorem iff_frame? :
    s.Related F t ↔ s.depth = t.depth ∧ ∀ i, Option.Rel F (s.frame? i) (t.frame? i) := by
  constructor
  · intro h
    exact ⟨h.depth, h.frame?⟩
  · rintro ⟨hdepth, hframes⟩
    refine List.forall₂_iff_get.mpr ⟨by rw [length_toList, length_toList, hdepth], ?_⟩
    intro i hi hi'
    have hframe := hframes i
    rw [frame?_eq_getElem?, frame?_eq_getElem?, List.getElem?_eq_getElem hi,
      List.getElem?_eq_getElem hi'] at hframe
    cases hframe with
    | some hframe => exact hframe

/-- The current frames of related stacks are related. -/
theorem top (h : Related F s t) : F s.top t.top := by
  have hsize : s.pushed.size = t.pushed.size := Nat.succ.inj h.depth
  have htop := h.frame? s.pushed.size
  rw [frame?_top, hsize, frame?_top] at htop
  cases htop with
  | some htop => exact htop

/-- The roots of related stacks are related. -/
theorem root (h : Related F s t) : F s.root t.root := by
  cases h with
  | cons hroot _ => exact hroot

/-- Stacks that consist of related roots are related. -/
theorem ofRoot {x : φ} {y : ψ} (h : F x y) : Related F (.ofRoot x) (.ofRoot y) :=
  .cons h .nil

/-- The walks below an index visit related frames. -/
theorem below (h : Related F s t) (x : Nat) : List.Forall₂ F (s.below x) (t.below x) := by
  rw [below_eq_reverse_take, below_eq_reverse_take]
  exact List.rel_reverse (List.forall₂_take x h)

theorem fromTop (h : Related F s t) : List.Forall₂ F s.fromTop t.fromTop := by
  rw [Stack.fromTop, Stack.fromTop, h.depth]
  exact h.below t.depth

/-! ## Growing and shrinking -/

/-- Pushing related frames keeps stacks related. -/
theorem push (h : Related F s t) {x : φ} {y : ψ} (hxy : F x y) :
    Related F (s.push x) (t.push y) := by
  unfold Related
  rw [toList_push, toList_push]
  exact List.rel_append h (.cons hxy .nil)

/-- Cutting related stacks at the same depth keeps them related. -/
theorem keep (h : Related F s t) {d : Nat} (hd : 0 < d) : Related F (s.keep d) (t.keep d) := by
  unfold Related
  rw [toList_keep _ hd, toList_keep _ hd]
  exact List.forall₂_take d h

/-- Related stacks give related frames away, or both refuse, and stay related. -/
theorem pop (h : Related F s t) :
    OutcomeRel F s.pop.1 t.pop.1 ∧ Related F s.pop.2 t.pop.2 := by
  have hdepth := h.depth
  by_cases hone : 1 < s.depth
  · rw [pop_of_one_lt_depth s hone, pop_of_one_lt_depth t (by omega), ← hdepth]
    exact ⟨.ok h.top, h.keep (by omega)⟩
  · have hpos := s.depth_pos
    rw [pop_of_depth_eq_one s (by omega), pop_of_depth_eq_one t (by omega)]
    exact ⟨.error _, h⟩

/-! ## Changing single frames -/

/-- Related frames may be put at the same index. -/
theorem setFrame (h : Related F s t) {x : φ} {y : ψ} (hxy : F x y) (i : Nat) :
    Related F (s.setFrame i x) (t.setFrame i y) := by
  unfold Related
  rw [toList_setFrame, toList_setFrame]
  exact forall₂_set h hxy i

/-- Changes of the current frames that answer alike do so on the stacks. -/
theorem modifyTop (h : Related F s t) {f : φ → α × φ} {g : ψ → β × ψ}
    (hfg : ∀ x y, F x y → A (f x).1 (g y).1 ∧ F (f x).2 (g y).2) :
    A (s.modifyTop f).1 (t.modifyTop g).1 ∧ Related F (s.modifyTop f).2 (t.modifyTop g).2 := by
  rcases hfg _ _ h.top with ⟨hanswer, hframe⟩
  have hsize : s.pushed.size = t.pushed.size := Nat.succ.inj h.depth
  refine ⟨hanswer, ?_⟩
  rw [Stack.modifyTop, Stack.modifyTop, hsize]
  exact h.setFrame hframe _

/-- Changes of the frames with an index that answer alike do so on the stacks. -/
theorem modifyFrame (h : Related F s t) {f : φ → α × φ} {g : ψ → β × ψ}
    (hfg : ∀ x y, F x y → A (f x).1 (g y).1 ∧ F (f x).2 (g y).2) (i : Nat) :
    Option.Rel A (s.modifyFrame i f).1 (t.modifyFrame i g).1 ∧
      Related F (s.modifyFrame i f).2 (t.modifyFrame i g).2 := by
  unfold Stack.modifyFrame
  rcases optionRel_cases (h.frame? i) with ⟨hs, ht⟩ | ⟨x, y, hs, ht, hxy⟩
  · rw [hs, ht]
    exact ⟨.none, h⟩
  · rcases hfg x y hxy with ⟨hanswer, hframe⟩
    rw [hs, ht]
    exact ⟨.some hanswer, h.setFrame hframe i⟩

/-! ## Searches -/

/-- What is asked of the frames with the same index is answered alike. -/
theorem bind_frame? (h : Related F s t) {f : φ → Option α} {g : ψ → Option β}
    (hfg : ∀ x y, F x y → Option.Rel A (f x) (g y)) (i : Nat) :
    Option.Rel A ((s.frame? i).bind f) ((t.frame? i).bind g) := by
  rcases optionRel_cases (h.frame? i) with ⟨hs, ht⟩ | ⟨x, y, hs, ht, hxy⟩
  · rw [hs, ht]
    exact .none
  · rw [hs, ht]
    exact hfg x y hxy

/-- A test that does not tell related frames apart agrees on the frames with an index. -/
theorem any_frame? (h : Related F s t) {p : φ → Bool} {q : ψ → Bool}
    (hpq : ∀ x y, F x y → p x = q y) (i : Nat) : (s.frame? i).any p = (t.frame? i).any q := by
  rcases optionRel_cases (h.frame? i) with ⟨hs, ht⟩ | ⟨x, y, hs, ht, hxy⟩
  · rw [hs, ht]
    rfl
  · rw [hs, ht]
    exact hpq x y hxy

/-- A search through related stacks ends at the same index. -/
theorem position (h : Related F s t) {p : φ → Bool} {q : ψ → Bool}
    (hpq : ∀ x y, F x y → p x = q y) : s.position p = t.position q := by
  have hframes : (fun i => (s.frame? i).any p) = fun i => (t.frame? i).any q :=
    funext fun i => h.any_frame? hpq i
  rw [Stack.position, Stack.position, positionWith, positionWith, searchAmong_eq, searchAmong_eq,
    hframes, h.depth]

/-- A test that does not tell related frames apart agrees on whether some frame passes it. -/
theorem anyBelow (h : Related F s t) {p : φ → Bool} {q : ψ → Bool}
    (hpq : ∀ x y, F x y → p x = q y) (x : Nat) : s.anyBelow x p = t.anyBelow x q := by
  have hamong : ∀ n, s.anyAmong p n = t.anyAmong q n := by
    intro n
    induction n with
    | zero => rfl
    | succ n ih => rw [anyAmong, anyAmong, h.any_frame? hpq, ih]
  rw [Stack.anyBelow, Stack.anyBelow, h.depth, hamong]

/-- A look-up in related stacks finds related things. -/
theorem findSomeBelow? (h : Related F s t) {f : φ → Option α} {g : ψ → Option β}
    (hfg : ∀ x y, F x y → Option.Rel A (f x) (g y)) (x : Nat) :
    Option.Rel A (s.findSomeBelow? x f) (t.findSomeBelow? x g) := by
  have hamong : ∀ n, Option.Rel A (s.findSomeAmong? f n) (t.findSomeAmong? g n) := by
    intro n
    induction n with
    | zero => exact .none
    | succ n ih =>
        rw [findSomeAmong?, findSomeAmong?]
        rcases optionRel_cases (h.bind_frame? hfg n) with ⟨hs, ht⟩ | ⟨a, b, hs, ht, hab⟩
        · rw [hs, ht]
          exact ih
        · rw [hs, ht]
          exact .some hab
  rw [Stack.findSomeBelow?, Stack.findSomeBelow?, h.depth]
  exact hamong _

/-- A change of the first frame that answers happens at the same index of related stacks. -/
theorem changeFirstBelow (h : Related F s t) {f : φ → Option (α × φ)} {g : ψ → Option (β × ψ)}
    (hfg : ∀ x y, F x y → Option.Rel (fun a b => A a.1 b.1 ∧ F a.2 b.2) (f x) (g y)) (x : Nat) :
    Option.Rel A (s.changeFirstBelow x f).1 (t.changeFirstBelow x g).1 ∧
      Related F (s.changeFirstBelow x f).2 (t.changeFirstBelow x g).2 := by
  have hamong : ∀ n, Option.Rel A (s.changeFirstAmong f n).1 (t.changeFirstAmong g n).1 ∧
      Related F (s.changeFirstAmong f n).2 (t.changeFirstAmong g n).2 := by
    intro n
    induction n with
    | zero => exact ⟨.none, h⟩
    | succ n ih =>
        rw [changeFirstAmong, changeFirstAmong]
        rcases optionRel_cases (h.bind_frame? hfg n) with ⟨hs, ht⟩ | ⟨a, b, hs, ht, hab⟩
        · rw [hs, ht]
          exact ih
        · rw [hs, ht]
          exact ⟨.some hab.1, h.setFrame hab.2 n⟩
  rw [Stack.changeFirstBelow, Stack.changeFirstBelow, h.depth]
  exact hamong _

/-! ## Equality -/

/-- Equality of stacks is the same for related frames if equality of single frames is. -/
theorem beq_eq [BEq φ] [BEq ψ]
    (hframes : ∀ x x' y y', F x y → F x' y' → (x == x') = (y == y')) {s' : Stack φ} {t' : Stack ψ}
    (h : Related F s t) (h' : Related F s' t') : (s == s') = (t == t') := by
  have hlists : ∀ {xs : List φ} {ys : List ψ}, List.Forall₂ F xs ys →
      ∀ {xs' : List φ} {ys' : List ψ}, List.Forall₂ F xs' ys' → (xs == xs') = (ys == ys') := by
    intro xs ys hxy
    induction hxy with
    | nil =>
        intro xs' ys' hxy'
        cases hxy' <;> rfl
    | cons hhead _ ih =>
        intro xs' ys' hxy'
        cases hxy' with
        | nil => rfl
        | cons hhead' htail' =>
            rw [List.cons_beq_cons, List.cons_beq_cons, hframes _ _ _ _ hhead hhead', ih htail']
  cases h with
  | cons hroot hpushed =>
      cases h' with
      | cons hroot' hpushed' =>
          change (s.root == s'.root && s.pushed == s'.pushed) =
            (t.root == t'.root && t.pushed == t'.pushed)
          rw [← Array.beq_toList, ← Array.beq_toList, hframes _ _ _ _ hroot hroot',
            hlists hpushed hpushed']

/-- Two stacks are equal if and only if their frames are equal index by index. -/
theorem beq_iff_related [BEq φ] {s t : Stack φ} :
    (s == t) = true ↔ Related (fun x y => (x == y) = true) s t := by
  have hlists : ∀ xs ys : List φ,
      (xs == ys) = true ↔ List.Forall₂ (fun x y => (x == y) = true) xs ys := by
    intro xs
    induction xs with
    | nil =>
        intro ys
        cases ys with
        | nil => exact iff_of_true rfl .nil
        | cons y ys => exact iff_of_false Bool.false_ne_true nofun
    | cons x xs ih =>
        intro ys
        cases ys with
        | nil => exact iff_of_false Bool.false_ne_true nofun
        | cons y ys => rw [List.cons_beq_cons, Bool.and_eq_true, List.forall₂_cons, ih]
  change (s.root == t.root && s.pushed == t.pushed) = true ↔ _
  rw [Bool.and_eq_true, ← Array.beq_toList, hlists, Related, toList, toList, List.forall₂_cons]

/-! ## Changing one of two related stacks -/

/-- A frame may be replaced in one stack alone if the new one suits its partner. -/
theorem setFrame_left (h : Related F s t) {x : φ} {i : Nat}
    (hx : ∀ y, t.frame? i = some y → F x y) : Related F (s.setFrame i x) t := by
  unfold Related
  rw [toList_setFrame]
  exact forall₂_set_left h fun y hy => hx y (by rw [frame?_eq_getElem?, hy])

/-- The current frame of one stack may be changed if it then suits its partner. -/
theorem modifyTop_left (h : Related F s t) {f : φ → α × φ}
    (hf : ∀ x y, F x y → F (f x).2 y) : Related F (s.modifyTop f).2 t := by
  have hsize : s.pushed.size = t.pushed.size := Nat.succ.inj h.depth
  apply h.setFrame_left
  intro y hy
  rw [hsize, frame?_top, Option.some.injEq] at hy
  rw [← hy]
  exact hf _ _ h.top

/-- The frame with an index may be changed in one stack alone if it then suits its partner. -/
theorem modifyFrame_left (h : Related F s t) {f : φ → α × φ}
    (hf : ∀ x y, F x y → F (f x).2 y) (i : Nat) : Related F (s.modifyFrame i f).2 t := by
  unfold Stack.modifyFrame
  rcases optionRel_cases (h.frame? i) with ⟨hs, ht⟩ | ⟨x, y, hs, ht, hxy⟩
  · rw [hs]
    exact h
  · rw [hs]
    apply h.setFrame_left
    intro y' hy'
    rw [ht, Option.some.injEq] at hy'
    rw [← hy']
    exact hf x y hxy

/-- The first frame that answers may be changed in one stack alone if it then suits its partner. -/
theorem changeFirstBelow_left (h : Related F s t) {f : φ → Option (α × φ)}
    (hf : ∀ x y a, F x y → f x = some a → F a.2 y) (x : Nat) :
    Related F (s.changeFirstBelow x f).2 t := by
  have hamong : ∀ n, Related F (s.changeFirstAmong f n).2 t := by
    intro n
    induction n with
    | zero => exact h
    | succ n ih =>
        rw [changeFirstAmong]
        cases hanswer : (s.frame? n).bind f with
        | none => exact ih
        | some a =>
            rcases Option.bind_eq_some_iff.mp hanswer with ⟨frame, hframe, hfound⟩
            apply h.setFrame_left
            intro y hy
            have hpair := h.frame? n
            rw [hframe, hy] at hpair
            cases hpair with
            | some hpair => exact hf frame y a hpair hfound
  exact hamong _

end Related
end Stack
end LexicalScope
