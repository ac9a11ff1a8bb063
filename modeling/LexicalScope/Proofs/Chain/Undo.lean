import LexicalScope.Proofs.Chain.Effect
import LexicalScope.Proofs.Chain.Related
import LexicalScope.Proofs.Frame.Alike
import LexicalScope.Proofs.Stack.Keep

/-!
# Taking single changes back

Every change of a chain answers what is needed to take it back.  What was put in anew is
taken out again, what was replaced is put back over its replacement, and what was taken out
is put in again where it was found.  Afterwards the chain has the same depth and the same
hashers, and every frame holds under every key what it held before, up to the relation of
entries that the operations keep to: a key may have come back in another spelling.

A frame that is not the current one is reached by its index, or, to take something out of
it, by popping the frames above and pushing them back afterwards.

Main results:

- Theorems {lit}`Chain.undo_insert_new` and {lit}`Chain.undo_insert_over`: inserting into the
  current frame is taken back by erasing, or by inserting what was replaced.
- Theorems {lit}`Chain.undo_insertAt_new` and {lit}`Chain.undo_insertAt_over`: so is inserting
  by index.
- Theorems {lit}`Chain.undo_erase` and {lit}`Chain.undo_eraseLocal`: erasing is taken back by
  inserting what was erased.
-/

namespace LexicalScope

variable {ε κ : Type} [Entry ε κ] [BEq κ] {R : ε → ε → Prop}

/-! ## Frames -/

namespace Frame

variable [EquivBEq κ] (hR : ∀ e, R e e) {f g : Frame ε}
include hR

/-- Frames that hold related entries under one key and the same under all others are alike. -/
theorem alike_of_key (hlabel : f.hasher = g.hasher) {k : κ}
    (hk : Option.Rel R (f.find? k) (g.find? k))
    (hne : ∀ k', (k == k') = false → f.find? k' = g.find? k') : Alike Eq R f g := by
  refine ⟨hlabel, fun k' => ?_⟩
  cases h : k == k' with
  | true =>
      rw [← f.find?_congr h, ← g.find?_congr h]
      exact hk
  | false =>
      rw [hne k' h]
      exact optionRel_refl hR _

/-- Erasing takes an entry out that was put in under a new key. -/
theorem erase?_insert {e : ε} (h : (f.insert e).1 = none) :
    ∃ g, (f.insert e).2.erase? (Entry.key e) = some (e, g) ∧ Alike Eq R g f := by
  have hnew : f.find? (Entry.key e) = none := h
  have hheld : (f.insert e).2.find? (Entry.key e) = some e := by
    rw [find?_insert_self, hnew]
    rfl
  rw [← map_fst_erase?, Option.map_eq_some_iff] at hheld
  rcases hheld with ⟨⟨e', g⟩, herase, heq⟩
  change e' = e at heq
  subst heq
  refine ⟨g, herase, alike_of_key hR ?_ (k := Entry.key e') ?_ ?_⟩
  · have hlabel : g.hasher = (f.insert e').2.hasher := hasher_of_erase? herase
    exact hlabel
  · rw [find?_of_erase? herase, hnew]
    exact .none
  · intro k' hk'
    rw [find?_of_erase?_of_ne herase hk', find?_insert_of_ne _ _ hk']

/-- What was held comes back if it is put over what replaced it. -/
theorem alike_insert_insert {first stored : ε} (second : ε)
    (hkey : (Entry.key second == Entry.key first) = true) (h : (f.insert first).1 = some stored)
    (hback : R (Entry.replace (Entry.replace stored first) second) stored) :
    Alike Eq R ((f.insert first).2.insert second).2 f := by
  have hheld : f.find? (Entry.key first) = some stored := h
  have hfirst : (f.insert first).2.find? (Entry.key second) =
      some (Entry.replace stored first) := by
    rw [find?_congr _ hkey, find?_insert_self, hheld]
    rfl
  refine alike_of_key hR ?_ (k := Entry.key second) ?_ ?_
  · rfl
  · rw [find?_insert_self, hfirst, f.find?_congr hkey, hheld]
    exact .some hback
  · intro k' hk'
    rw [find?_insert_of_ne _ _ hk', find?_insert_of_ne _ _ (by rw [← BEq.congr_left hkey, hk'])]

/-- Putting an entry over a stored one that stays shows nowhere. -/
theorem alike_insert_self {e stored : ε} (h : (f.insert e).1 = some stored)
    (hback : R (Entry.replace stored e) stored) : Alike Eq R (f.insert e).2 f := by
  have hheld : f.find? (Entry.key e) = some stored := h
  refine alike_of_key hR ?_ (k := Entry.key e) ?_ ?_
  · rfl
  · rw [find?_insert_self, hheld]
    exact .some hback
  · exact fun k' hk' => find?_insert_of_ne _ _ hk'

/-- What was taken out comes back if it is put in again. -/
theorem alike_insert_of_erase? {k : κ} {held e : ε} (h : f.erase? k = some (held, g))
    (hkey : (Entry.key e == k) = true) (hback : R e held) : Alike Eq R (g.insert e).2 f := by
  have hheld : f.find? k = some held := by rw [← map_fst_erase?, h, Option.map_some]
  refine alike_of_key hR ?_ (k := Entry.key e) ?_ ?_
  · have hlabel : g.hasher = f.hasher := hasher_of_erase? h
    exact hlabel
  · rw [find?_insert_self, g.find?_congr hkey, find?_of_erase? h, f.find?_congr hkey, hheld]
    exact .some hback
  · intro k' hk'
    rw [find?_insert_of_ne _ _ hk', find?_of_erase?_of_ne h (by rw [← BEq.congr_left hkey, hk'])]

end Frame

/-! ## Chains -/

namespace Chain

/--
The chains have the same depth and the same hashers, and frame by frame they hold related
entries under every key.
-/
abbrev SameUpTo (R : ε → ε → Prop) (c d : Chain ε) : Prop :=
  Related Eq (Frame.Alike Eq R) c d

/-- A frame that was put in the place of the current one is the current one. -/
theorem top_setFrame (c : Chain ε) (frame : Frame ε) :
    (c.setFrame (c.depth - 1) frame).stack.top = frame := by
  have hpos := c.stack.depth_pos
  have hlt : c.depth - 1 < c.depth := Nat.sub_lt hpos Nat.one_pos
  have htop := (c.setFrame (c.depth - 1) frame).frame?_top
  rw [depth_setFrame, c.frame?_setFrame_self hlt, Option.some.injEq] at htop
  exact htop.symm

/-- A frame that holds a key as before does not change which frame is the innermost to hold it. -/
theorem innermost?_setFrame (c : Chain ε) {i : Nat} {frame changed : Frame ε} {k : κ}
    (hframe : c.stack.frame? i = some frame) (h : changed.contains k = frame.contains k) (x : Nat) :
    (c.setFrame i changed).innermost? x k = c.innermost? x k := by
  have hheld : (fun j => (c.setFrame i changed).hasAt j k) = fun j => c.hasAt j k := by
    funext j
    by_cases hij : i = j
    · subst hij
      rw [hasAt, hasAt, c.frame?_setFrame_self (Stack.lt_depth_of_frame? hframe), hframe]
      exact h
    · rw [hasAt, hasAt, c.frame?_setFrame_of_ne hij]
  rw [innermost?, innermost?, hheld, depth_setFrame]

/-! ### Pushing and popping -/

/-- A frame that was just pushed is popped again. -/
theorem pop_pushFrame (c : Chain ε) (frame : Frame ε) :
    (c.pushFrame frame).pop = (.ok frame, c) := by
  simp [pop, pushFrame]

/-- A popped frame that is pushed again gives the chain back. -/
theorem pushFrame_of_pop {c rest : Chain ε} {frame : Frame ε} (h : c.pop = (.ok frame, rest)) :
    rest.pushFrame frame = c := by
  rcases c with ⟨hasher, root, pushed⟩
  simp only [pop, Stack.pop] at h
  cases hback : pushed.back? with
  | none =>
      rw [hback] at h
      cases h
  | some last =>
      rw [hback] at h
      cases h
      have hpushed : pushed.pop.push frame = pushed := by
        rcases Array.back?_eq_some_iff.mp hback with ⟨init, rfl⟩
        rw [Array.pop_push]
      simp only [pushFrame, Stack.push, hpushed]

/-- A pop that is refused changes nothing. -/
theorem eq_of_pop_error {c rest : Chain ε} {e : Error} (h : c.pop = (.error e, rest)) :
    rest = c := by
  rcases c with ⟨hasher, root, pushed⟩
  simp only [pop, Stack.pop] at h
  cases hback : pushed.back? with
  | none =>
      rw [hback] at h
      cases h
      rfl
  | some last =>
      rw [hback] at h
      cases h

/-- A frame below the top can be replaced before or after the push. -/
theorem setFrame_pushFrame (c : Chain ε) {i : Nat} (hi : i < c.depth) (frame top : Frame ε) :
    (c.pushFrame top).setFrame i frame = (c.setFrame i frame).pushFrame top := by
  simp only [setFrame, pushFrame, c.stack.setFrame_push top hi]

/-- Pops the given number of frames, changes the chain and pushes the frames back. -/
def beneath (change : Chain ε → Chain ε) : Nat → Chain ε → Chain ε
  | 0, c => change c
  | n + 1, c =>
    match c.pop with
    | (.ok frame, rest) => (beneath change n rest).pushFrame frame
    | (.error _, rest) => rest

/-- Changes the chain while the frame with an index is the current one. -/
def withCurrent (c : Chain ε) (index : Nat) (change : Chain ε → Chain ε) : Chain ε :=
  c.beneath change (c.depth - 1 - index)

/-- A change of the current frame is one of an inner frame if it is made beneath those above. -/
theorem beneath_eq_setFrame {change : Chain ε → Chain ε} {i : Nat} {frame changed : Frame ε}
    (hchange : ∀ d : Chain ε, d.depth - 1 = i → d.stack.top = frame →
      change d = d.setFrame i changed) (n : Nat) {c : Chain ε} (hdepth : c.depth = i + 1 + n)
    (hframe : c.stack.frame? i = some frame) : c.beneath change n = c.setFrame i changed := by
  induction n generalizing c with
  | zero =>
      have hi : c.depth - 1 = i := by omega
      apply hchange c hi
      have htop := c.frame?_top
      rw [hi, hframe, Option.some.injEq] at htop
      exact htop.symm
  | succ n ih =>
      rw [beneath]
      rcases hpop : c.pop with ⟨_ | top, rest⟩
      · have hrefused := (c.stack.pop_fst_eq_error_iff _).mp (congrArg Prod.fst hpop)
        have hone : c.depth = 1 := hrefused.1
        omega
      · have hc := pushFrame_of_pop hpop
        have hrest : rest.depth = i + 1 + n := by
          have hpush := rest.depth_pushFrame top
          rw [hc] at hpush
          omega
        have hframe' : rest.stack.frame? i = some frame := by
          have hi : i < rest.depth := by omega
          rw [← hframe, ← hc]
          exact (rest.stack.frame?_push_of_lt top hi).symm
        rw [← hc, setFrame_pushFrame _ (by omega), ← ih hrest hframe']

/-- A change beneath popped frames keeps chains related. -/
theorem Related.beneath {L : Hasher → Hasher → Prop} {F : Frame ε → Frame ε → Prop}
    {change change' : Chain ε → Chain ε}
    (hchange : ∀ c d, Related L F c d → Related L F (change c) (change' d)) (n : Nat)
    {c d : Chain ε} (h : Related L F c d) :
    Related L F (c.beneath change n) (d.beneath change' n) := by
  induction n generalizing c d with
  | zero => exact hchange c d h
  | succ n ih =>
      rcases h.pop with ⟨houtcome, hrest⟩
      rw [Chain.beneath, Chain.beneath]
      rcases hc : c.pop with ⟨a, c'⟩
      rcases hd : d.pop with ⟨b, d'⟩
      rw [hc, hd] at houtcome hrest
      rcases outcomeRel_cases houtcome with ⟨f, g, rfl, rfl, hfg⟩ | ⟨e, rfl, rfl⟩
      · exact (ih hrest).pushFrame hfg
      · exact hrest

/-- A change while another frame is the current one keeps chains related. -/
theorem Related.withCurrent {L : Hasher → Hasher → Prop} {F : Frame ε → Frame ε → Prop}
    {change change' : Chain ε → Chain ε}
    (hchange : ∀ c d, Related L F c d → Related L F (change c) (change' d)) (index : Nat)
    {c d : Chain ε} (h : Related L F c d) :
    Related L F (c.withCurrent index change) (d.withCurrent index change') := by
  rw [Chain.withCurrent, Chain.withCurrent, h.depth]
  exact h.beneath hchange _

/-! ### Requests that are refused -/

/-- An entry that could not be inserted leaves the chain as it is. -/
theorem insertAt_of_error {c : Chain ε} {i : Nat} {e : ε} {error : Error}
    (h : (c.insertAt i e).1 = .error error) : (c.insertAt i e).2 = c :=
  (c.writtenAt_insertAt i e).eq_of_refused (by rw [h]; rfl)

/-- Erasing a key that is not found changes nothing. -/
theorem erase_of_error {c : Chain ε} {k : κ} {error : Error} (h : (c.erase k).1 = .error error) :
    (c.erase k).2 = c :=
  (c.writtenAt_erase k).eq_of_refused (by rw [h]; rfl)

/-- Erasing a key that the current frame does not hold changes nothing. -/
theorem eraseLocal_of_error {c : Chain ε} {k : κ} {error : Error}
    (h : (c.eraseLocal k).1 = .error error) : (c.eraseLocal k).2 = c :=
  (c.writtenAt_eraseLocal k).eq_of_refused (by rw [h]; rfl)

/-! ### Changes and their inverses -/

/-- What is erased under a key has an equal key. -/
theorem key_beq_of_erase {c : Chain ε} {k : κ} {held : ε} (h : (c.erase k).1 = .ok held) :
    (Entry.key held == k) = true := by
  rw [erase_fst, lookup_eq_ok_iff] at h
  rcases h with ⟨i, frame, -, -, hfind⟩
  exact Frame.key_beq_of_find? hfind

/-- What the current frame loses has the key that was asked for. -/
theorem key_beq_of_eraseLocal {c : Chain ε} {k : κ} {held : ε}
    (h : (c.eraseLocal k).1 = .ok held) : (Entry.key held == k) = true :=
  Frame.key_beq_of_find? ((c.eraseLocal_fst_eq_ok_iff k held).mp h)

variable (hR : ∀ e, R e e) {c : Chain ε}
include hR

theorem sameUpTo_refl (c : Chain ε) : SameUpTo R c c :=
  .refl (fun _ => rfl) (Frame.Alike.refl (fun _ => rfl) hR) c

theorem sameUpTo_of_eq {d : Chain ε} (h : d = c) : SameUpTo R d c := by
  rw [h]
  exact sameUpTo_refl hR c

omit hR in
/-- Being the same is passed on from chain to chain. -/
theorem sameUpTo_trans (htrans : ∀ a b c, R a b → R b c → R a c) {c d e : Chain ε}
    (h : SameUpTo R c d) (h' : SameUpTo R d e) : SameUpTo R c e :=
  have hlabel : ∀ h h' h'' : Hasher, h = h' → h' = h'' → h = h'' := fun _ _ _ => Eq.trans
  .trans hlabel (fun _ _ _ hfg hgh => hfg.trans hlabel htrans hgh) h h'

/-- If what ends up in a place is alike to what was there, the chain is the same again. -/
theorem sameUpTo_setFrame {i : Nat} {frame last : Frame ε} (hframe : c.stack.frame? i = some frame)
    (h : Frame.Alike Eq R last frame) (first : Frame ε) :
    SameUpTo R ((c.setFrame i first).setFrame i last) c := by
  rw [setFrame_setFrame]
  refine ⟨rfl, (sameUpTo_refl hR c).stack.setFrame_left fun y hy => ?_⟩
  rw [hframe, Option.some.injEq] at hy
  rw [← hy]
  exact h

variable [EquivBEq κ]

/-- Erasing what was inserted takes the insertion of a new key back. -/
theorem undo_insert_new {e : ε} (h : (c.insert e).1 = none) :
    SameUpTo R ((c.insert e).2.eraseLocal (Entry.key e)).2 c := by
  rw [insert_eq] at h ⊢
  rcases Frame.erase?_insert hR h with ⟨last, herase, halike⟩
  have htop := c.top_setFrame (c.stack.top.insert e).2
  rw [← htop] at herase
  rw [eraseLocal_of_erase? herase, depth_setFrame]
  exact sameUpTo_setFrame hR c.frame?_top halike _

/-- Inserting what was replaced takes the insertion of an old key back. -/
theorem undo_insert_over {first stored : ε} (second : ε)
    (hkey : (Entry.key second == Entry.key first) = true) (h : (c.insert first).1 = some stored)
    (hback : R (Entry.replace (Entry.replace stored first) second) stored) :
    SameUpTo R ((c.insert first).2.insert second).2 c := by
  rw [insert_eq c] at h ⊢
  rw [insert_eq, depth_setFrame, top_setFrame]
  exact sameUpTo_setFrame hR c.frame?_top (Frame.alike_insert_insert hR second hkey h hback) _

/-- Inserting what the current frame holds already leaves the chain the same. -/
theorem sameUpTo_insert_self {e stored : ε} (h : (c.insert e).1 = some stored)
    (hback : R (Entry.replace stored e) stored) : SameUpTo R (c.insert e).2 c := by
  rw [insert_eq] at h ⊢
  have hframe := Frame.alike_insert_self hR h hback
  rw [← setFrame_setFrame c (c.depth - 1) (c.stack.top.insert e).2]
  exact sameUpTo_setFrame hR c.frame?_top hframe _

omit [EquivBEq κ] hR in
/-- An entry that was inserted by index was inserted into the frame with that index. -/
theorem exists_frame?_of_insertAt {i : Nat} {e : ε} {replaced : Option ε}
    (h : (c.insertAt i e).1 = .ok replaced) :
    ∃ frame, c.stack.frame? i = some frame ∧ (frame.insert e).1 = replaced ∧
      (c.insertAt i e).2 = c.setFrame i (frame.insert e).2 := by
  cases hframe : c.stack.frame? i with
  | none =>
      rw [insertAt_of_depth_le ((c.stack.frame?_eq_none_iff i).mp hframe)] at h
      cases h
  | some frame =>
      rw [insertAt_of_frame? hframe] at h ⊢
      cases h
      exact ⟨frame, rfl, rfl, rfl⟩

/-- Erasing by index what was inserted there takes the insertion of a new key back. -/
theorem undo_insertAt_new {i : Nat} {e : ε} (h : (c.insertAt i e).1 = .ok none) :
    SameUpTo R ((c.insertAt i e).2.withCurrent i fun c => (c.eraseLocal (Entry.key e)).2) c := by
  rcases exists_frame?_of_insertAt h with ⟨frame, hframe, hnew, heq⟩
  rcases Frame.erase?_insert hR hnew with ⟨last, herase, halike⟩
  have hi : i < c.depth := Stack.lt_depth_of_frame? hframe
  have hchange : ∀ d : Chain ε, d.depth - 1 = i → d.stack.top = (frame.insert e).2 →
      (d.eraseLocal (Entry.key e)).2 = d.setFrame i last := by
    intro d hd htop
    rw [← htop] at herase
    rw [eraseLocal_of_erase? herase, hd]
  have habove : (c.setFrame i (frame.insert e).2).depth = i + 1 + (c.depth - 1 - i) := by
    rw [depth_setFrame]
    omega
  rw [heq, withCurrent, depth_setFrame,
    beneath_eq_setFrame hchange _ habove (c.frame?_setFrame_self hi _)]
  exact sameUpTo_setFrame hR hframe halike _

/-- Inserting by index what was replaced there takes the insertion of an old key back. -/
theorem undo_insertAt_over {i : Nat} {first stored : ε} (second : ε)
    (hkey : (Entry.key second == Entry.key first) = true)
    (h : (c.insertAt i first).1 = .ok (some stored))
    (hback : R (Entry.replace (Entry.replace stored first) second) stored) :
    SameUpTo R ((c.insertAt i first).2.insertAt i second).2 c := by
  rcases exists_frame?_of_insertAt h with ⟨frame, hframe, hstored, heq⟩
  have hi : i < c.depth := Stack.lt_depth_of_frame? hframe
  rw [heq, insertAt_of_frame? (c.frame?_setFrame_self hi _)]
  exact sameUpTo_setFrame hR hframe (Frame.alike_insert_insert hR second hkey hstored hback) _

/-- Inserting by index what that frame holds already leaves the chain the same. -/
theorem sameUpTo_insertAt_self {i : Nat} {e stored : ε}
    (h : (c.insertAt i e).1 = .ok (some stored)) (hback : R (Entry.replace stored e) stored) :
    SameUpTo R (c.insertAt i e).2 c := by
  rcases exists_frame?_of_insertAt h with ⟨frame, hframe, hstored, heq⟩
  rw [heq, ← setFrame_setFrame c i (frame.insert e).2]
  exact sameUpTo_setFrame hR hframe (Frame.alike_insert_self hR hstored hback) _

/-- What was erased is put back into the frame that its key resolved to. -/
theorem undo_erase {k : κ} {held e : ε} (h : (c.erase k).1 = .ok held)
    (hkey : (Entry.key e == k) = true) (hback : R e held) :
    ∃ i, c.resolve k = some i ∧ SameUpTo R ((c.erase k).2.insertAt i e).2 c := by
  cases hresolve : c.resolve k with
  | none =>
      rw [erase_of_none hresolve] at h
      cases h
  | some i =>
      rcases erase_of_resolve hresolve with ⟨frame, held', changed, hframe, herase, heq⟩
      rw [heq] at h ⊢
      cases h
      have hi : i < c.depth := Stack.lt_depth_of_frame? hframe
      refine ⟨i, rfl, ?_⟩
      rw [insertAt_of_frame? (c.frame?_setFrame_self hi _)]
      exact sameUpTo_setFrame hR hframe (Frame.alike_insert_of_erase? hR herase hkey hback) _

/-- Inserting what the current frame has lost takes the loss back. -/
theorem undo_eraseLocal {k : κ} {held e : ε} (h : (c.eraseLocal k).1 = .ok held)
    (hkey : (Entry.key e == k) = true) (hback : R e held) :
    SameUpTo R ((c.eraseLocal k).2.insert e).2 c := by
  cases herase : c.stack.top.erase? k with
  | none =>
      rw [eraseLocal_of_none herase] at h
      cases h
  | some taken =>
      rw [eraseLocal_of_erase? herase] at h ⊢
      cases h
      rw [insert_eq, depth_setFrame, top_setFrame]
      exact sameUpTo_setFrame hR c.frame?_top (Frame.alike_insert_of_erase? hR herase hkey hback) _

end Chain
end LexicalScope
