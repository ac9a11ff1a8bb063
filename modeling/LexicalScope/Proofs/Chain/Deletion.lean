import LexicalScope.Key.CaseFolded
import LexicalScope.Proofs.Chain.OneEntry
import LexicalScope.Proofs.Frame.Agree

/-!
# Deleting from a chain

To delete a key is to take out what the innermost frame holds under it, and so to uncover what an
outer frame holds.  Deleting the key again and again takes out all that is held under it, from the
innermost frame to the outermost, and is refused from then on.

Main results:

- Theorem {lit}`Chain.exists_erasedAt`: what is taken out, and what is found afterwards.
- Theorem {lit}`Chain.ErasedAt.held_eq`: what was held is what is taken out and what is left.
- Theorem {lit}`Chain.drained_repeatedly`: what any number of deletions answers and leaves.
- Theorem {lit}`Chain.deletion_unshadows`: all of this for chains of bindings and of names.
-/

namespace LexicalScope

variable {ε κ ν α : Type} [BEq κ]

namespace Chain

variable [Entry ε κ]

/-! ## Repetition -/

/-- Makes a change again and again, and lists what it answers. -/
def repeatedly (change : Chain ε → α × Chain ε) : Nat → Chain ε → List α × Chain ε
  | 0, c => ([], c)
  | n + 1, c =>
    let (answer, changed) := change c
    let (answers, last) := repeatedly change n changed
    (answer :: answers, last)

/-- The first change answers first, and the others are made after it. -/
theorem repeatedly_succ (change : Chain ε → α × Chain ε) (n : Nat) (c : Chain ε) :
    repeatedly change (n + 1) c =
      ((change c).1 :: (repeatedly change n (change c).2).1, (repeatedly change n (change c).2).2) :=
  rfl

/-- What all frames hold under a key, innermost first. -/
def held (c : Chain ε) (k : κ) : List ε :=
  c.heldBelow c.depth k

/-! ## Chains that differ under one key -/

/--
The second chain differs from the first one at most in what its frames hold under a key.  All
frames keep their hashers and, in their order, their entries under all other keys.
-/
structure DiffersUnder (c d : Chain ε) (k : κ) : Prop where
  hasher : d.hasher = c.hasher
  depth : d.depth = c.depth
  label : ∀ j, (d.stack.frame? j).map Frame.hasher = (c.stack.frame? j).map Frame.hasher
  entries : ∀ j, (d.stack.frame? j).map (fun frame => frame.others k) =
    (c.stack.frame? j).map fun frame => frame.others k

namespace DiffersUnder

variable {c d e : Chain ε} {k : κ}

theorem refl (c : Chain ε) (k : κ) : DiffersUnder c c k :=
  ⟨rfl, rfl, fun _ => rfl, fun _ => rfl⟩

theorem trans (h : DiffersUnder c d k) (h' : DiffersUnder d e k) : DiffersUnder c e k where
  hasher := h'.hasher.trans h.hasher
  depth := h'.depth.trans h.depth
  label j := (h'.label j).trans (h.label j)
  entries j := (h'.entries j).trans (h.entries j)

end DiffersUnder

/-- A change in one frame is a change in some frames. -/
theorem DiffersAt.differsUnder {c d : Chain ε} {i : Nat} {k : κ} (h : DiffersAt c d i k) :
    DiffersUnder c d k where
  hasher := h.hasher
  depth := h.depth
  label j := by
    by_cases hj : j = i
    · rw [hj, h.label]
    · rw [h.frame? j hj]
  entries j := by
    by_cases hj : j = i
    · rw [hj, h.entries]
    · rw [h.frame? j hj]

/-! ## One deletion -/

/--
In the second chain the frame that a key resolved to has lost what it held under the key, and this
is all that has changed.
-/
structure ErasedAt (c d : Chain ε) (r : Nat) (k : κ) : Prop extends DiffersAt c d r k where
  /-- The key was held in the frame with the index and in no frame above. -/
  resolved : c.resolve k = some r
  free : d.hasAt r k = false
  /-- In the frame, exactly the entries under other keys are left. -/
  left : (d.stack.frame? r).map Frame.entries = (c.stack.frame? r).map fun frame => frame.others k
  /-- From every index, the key is now looked up from below the frame. -/
  lookupBelow : ∀ x, d.lookupBelow x k = c.lookupBelow (min x r) k
  lookup : d.lookup k = c.lookupBelow r k
  resolve : ∀ i, d.resolve k = some i ↔ c.IsInnermost r k i
  /-- Other keys are looked up as before, from everywhere. -/
  others : ∀ k', (k == k') = false → SameLookups c d k'

section Erasing

variable {c d : Chain ε} {r : Nat} {k : κ}

/-- Once the innermost entry is gone, a look-up below any index stops below its frame. -/
theorem DiffersAt.lookupBelow_of_erased (h : DiffersAt c d r k) (hresolve : c.resolve k = some r)
    (hfree : d.entryAt? r k = none) (x : Nat) : d.lookupBelow x k = c.lookupBelow (min x r) k := by
  by_cases hx : r < x
  · have habove := c.freeBetween_of_resolve k hresolve x
    calc
      d.lookupBelow x k = d.lookupBelow (r + 1) k := h.lookupBelow_of_free hx habove
      _ = d.lookupBelow r k := d.lookupBelow_succ_of_free k hfree
      _ = c.lookupBelow r k := h.lookupBelow_of_le (Nat.le_refl r)
      _ = c.lookupBelow (min x r) k := by rw [Nat.min_eq_right (Nat.le_of_lt hx)]
  · rw [Nat.min_eq_left (Nat.not_lt.mp hx), h.lookupBelow_of_le (Nat.not_lt.mp hx)]

/--
Once the innermost entry is gone, the key resolves to the next frame further out that holds it.
-/
theorem DiffersAt.resolve_of_erased (h : DiffersAt c d r k) (hresolve : c.resolve k = some r)
    (hfree : d.hasAt r k = false) (i : Nat) : d.resolve k = some i ↔ c.IsInnermost r k i := by
  rw [resolve_eq_some_iff_greatest, isInnermost_iff_freeBetween]
  have habove := c.freeBetween_of_resolve k hresolve
  constructor
  · rintro ⟨hheld, hgreatest⟩
    have hne : i ≠ r := by
      rintro rfl
      rw [hfree] at hheld
      cases hheld
    rw [h.hasAt_of_ne hne] at hheld
    have hir : i < r := by
      by_contra hri
      rw [habove (i + 1) i (by omega) (by omega)] at hheld
      cases hheld
    refine ⟨hheld, hir, fun j hij hjr => Bool.eq_false_iff.mpr fun hj => ?_⟩
    rw [← h.hasAt_of_ne (Nat.ne_of_lt hjr)] at hj
    have hle := hgreatest j hj
    omega
  · rintro ⟨hheld, hir, hbetween⟩
    rw [h.hasAt_of_ne (Nat.ne_of_lt hir)]
    refine ⟨hheld, fun j hj => ?_⟩
    by_contra hij
    -- Neither a frame below the erased one, nor that one, nor a frame above it holds the key.
    rcases Nat.lt_trichotomy j r with hjr | rfl | hrj
    · rw [h.hasAt_of_ne (Nat.ne_of_lt hjr), hbetween j (by omega) hjr] at hj
      cases hj
    · rw [hfree] at hj
      cases hj
    · rw [h.hasAt_of_ne (Nat.ne_of_gt hrj), habove (j + 1) j hrj (by omega)] at hj
      cases hj

variable [EquivBEq κ]

/-- A key that some frame holds is taken out of the frame that it resolves to. -/
theorem exists_erasedAt (hresolve : c.resolve k = some r) :
    ∃ e, c.entryAt? r k = some e ∧ (c.erase k).1 = .ok e ∧ ErasedAt c (c.erase k).2 r k := by
  rcases erase_of_resolve hresolve with ⟨frame, e, changed, hframe, herase, heq⟩
  have hfind : frame.find? k = some e := by
    rw [← frame.map_fst_erase?, herase]
    rfl
  have hdiffers : DiffersAt c (c.setFrame r changed) r k :=
    differsAt_setFrame hframe (Frame.hasher_of_erase? herase) (Frame.others_of_erase? herase)
  have hentry : (c.setFrame r changed).entryAt? r k = none := by
    rw [entryAt?_setFrame_self hframe, Frame.find?_of_erase? herase]
  have hfree : (c.setFrame r changed).hasAt r k = false := (entryAt?_eq_none_iff _ k r).mp hentry
  have hbelow := hdiffers.lookupBelow_of_erased hresolve hentry
  rw [heq]
  refine ⟨e, by rw [entryAt?, hframe, Option.bind_some, hfind], rfl, ?_⟩
  exact {
    toDiffersAt := hdiffers
    resolved := hresolve
    free := hfree
    left := by
      rw [c.frame?_setFrame_self (Stack.lt_depth_of_frame? hframe), hframe, Option.map_some,
        Option.map_some, Frame.entries_of_erase? herase]
    lookupBelow := hbelow
    lookup := by
      have hle : r ≤ c.depth := Nat.le_of_lt (Stack.lt_depth_of_frame? hframe)
      rw [Chain.lookup, depth_setFrame, hbelow, Nat.min_eq_right hle]
    resolve := hdiffers.resolve_of_erased hresolve hfree
    others := fun k' hne => hdiffers.sameLookups hne }

end Erasing

/-! ## What is held -/

section Held

variable (c : Chain ε) (k : κ)

/-- As many entries are held as frames hold the key. -/
theorem length_held : (c.held k).length = c.stack.toList.countP fun frame => frame.contains k := by
  have hisSome : (fun frame : Frame ε => (frame.find? k).isSome) = fun frame => frame.contains k :=
    funext fun frame => (frame.contains_eq_isSome_find? k).symm
  rw [held, heldBelow, List.length_filterMap_eq_countP, hisSome]
  change c.stack.fromTop.countP _ = _
  rw [Stack.fromTop_eq_reverse, List.countP_reverse]

/-- A look-up finds the first of what the frames hold under the key. -/
theorem lookup_eq_head? : c.lookup k = (c.held k).head?.elim (.error .keyNotFound) .ok :=
  c.lookupBelow_eq_head? k c.depth

/-- The chain has a key if and only if some frame holds something under it. -/
theorem has_eq_isSome_head? : c.has k = (c.held k).head?.isSome := by
  rw [has_eq_isSome_resolve]
  cases hresolve : c.resolve k with
  | none =>
      have hlookup := c.lookup_of_resolve_none k hresolve
      rw [lookup_eq_head?] at hlookup
      cases hheld : (c.held k).head? with
      | none => rfl
      | some e => rw [hheld] at hlookup; cases hlookup
  | some i =>
      rcases c.lookup_of_resolve k hresolve with ⟨frame, e, -, -, hlookup⟩
      rw [lookup_eq_head?] at hlookup
      cases hheld : (c.held k).head? with
      | none => rw [hheld] at hlookup; cases hlookup
      | some e => rfl

end Held

/-- What was held is what is taken out, which is the first of it, and what is left. -/
theorem ErasedAt.held_eq {c d : Chain ε} {r : Nat} {k : κ} (h : ErasedAt c d r k) {e : ε}
    (he : c.entryAt? r k = some e) : c.held k = e :: d.held k := by
  have hr : r < c.depth := lt_depth_of_innermost? ((c.resolve_eq_innermost? k).symm.trans h.resolved)
  have habove := c.freeBetween_of_resolve k h.resolved c.depth
  have hnone : d.entryAt? r k = none := (d.entryAt?_eq_none_iff k r).mpr h.free
  have hbefore : c.held k = c.heldBelow (r + 1) k := c.heldBelow_of_free k hr habove
  have hafter : d.held k = d.heldBelow (r + 1) k := by
    rw [held, h.depth]
    refine d.heldBelow_of_free k hr fun j hj hjd => ?_
    rw [h.hasAt_of_ne (Nat.ne_of_gt hj)]
    exact habove j hj hjd
  rw [hbefore, heldBelow_succ, he, hafter, heldBelow_succ, hnone,
    heldBelow_congr fun j hj => h.entryAt?_of_ne (Nat.ne_of_lt hj) k]
  rfl

/-! ## Any number of deletions -/

/--
What a number of deletions of a key answer, where {lit}`shown` says what is shown of an entry that
is taken out, and what they leave.
-/
structure Drained (shown : ε → α) (c : Chain ε) (k : κ) (n : Nat)
    (outcome : List (Except Error α) × Chain ε) : Prop where
  /-- First the entries are answered, from the innermost frame to the outermost, then errors. -/
  answers : outcome.1 = (((c.held k).take n).map fun e => .ok (shown e)) ++
    List.replicate (n - (c.held k).length) (.error .keyNotFound)
  /-- The entries of the outer frames are left. -/
  remaining : outcome.2.held k = (c.held k).drop n
  has : outcome.2.has k = decide (n < (c.held k).length)
  differsUnder : DiffersUnder c outcome.2 k
  others : ∀ k', (k == k') = false → SameLookups c outcome.2 k'

/-- What is asked of an operation that deletes a key, for every chain that it is used on. -/
def Erases (shown : ε → α) (delete : Chain ε → Except Error α × Chain ε) (k : κ) : Prop :=
  ∀ c, delete c = (c.erase k).map (Except.map shown) id

variable [EquivBEq κ] {shown : ε → α} {delete : Chain ε → Except Error α × Chain ε} {k : κ}

/-- Every deletion takes the first entry out of what is held, and the last one is refused. -/
theorem drained_repeatedly (hdelete : Erases shown delete k) (n : Nat) (c : Chain ε) :
    Drained shown c k n (repeatedly delete n c) := by
  induction n generalizing c with
  | zero =>
      refine ⟨by simp [repeatedly], rfl, ?_, .refl c k, fun k' _ => .refl c k'⟩
      rw [has_eq_isSome_head?]
      change (c.held k).head?.isSome = _
      cases c.held k <;> simp
  | succ n ih =>
      rw [repeatedly_succ, hdelete]
      cases hresolve : c.resolve k with
      | none =>
          have hheld : c.held k = [] := by
            have hhas := (c.resolve_eq_none_iff k).mp hresolve
            rw [has_eq_isSome_head?] at hhas
            simpa using hhas
          have hrest := ih c
          rw [erase_of_none hresolve]
          refine ⟨?_, ?_, ?_, hrest.differsUnder, hrest.others⟩
          · have hanswers := hrest.answers
            simp only [hheld, List.take_nil, List.map_nil, List.nil_append, List.length_nil,
              Nat.sub_zero] at hanswers ⊢
            simp [Except.map, hanswers, List.replicate_succ]
          · simpa [hheld] using hrest.remaining
          · simpa [hheld] using hrest.has
      | some r =>
          rcases exists_erasedAt hresolve with ⟨e, hentry, hanswer, herased⟩
          have hheld := herased.held_eq hentry
          have hrest := ih (c.erase k).2
          refine ⟨?_, ?_, ?_, herased.toDiffersAt.differsUnder.trans hrest.differsUnder,
            fun k' hne => (herased.others k' hne).trans (hrest.others k' hne)⟩
          · have hanswers := hrest.answers
            simp [hanswer, hheld, Except.map, hanswers]
          · simpa [hheld] using hrest.remaining
          · simpa [hheld] using hrest.has

/-! ## The laws of deletion -/

/-- What deletions of a key answer and change. -/
structure DeletionLaws (shown : ε → α) (delete deleteLocal : Chain ε → Except Error α × Chain ε)
    (c : Chain ε) (k : κ) : Prop where
  succeeds : (delete c).1.isOk = c.has k
  answer : (delete c).1 = (c.lookup k).map shown
  refused : c.has k = false → delete c = (.error .keyNotFound, c)
  erased : ∀ r, c.resolve k = some r → ErasedAt c (delete c).2 r k
  /-- There is an entry to be taken out for each frame that holds the key. -/
  holders : (c.held k).length = c.stack.toList.countP fun frame => frame.contains k
  repeated : ∀ n, Drained shown c k n (repeatedly delete n c)
  succeedsLocal : (deleteLocal c).1.isOk = c.hasLocal k
  /-- In the current frame, to delete there is to delete. -/
  localAsDelete : c.hasLocal k = true → deleteLocal c = delete c
  localRefused : c.hasLocal k = false → deleteLocal c = (.error .notInCurrentScope, c)

omit [EquivBEq κ] in
/-- If the current frame holds the key, erasing it there is erasing it. -/
theorem eraseLocal_eq_erase {c : Chain ε} (h : c.hasLocal k = true) : c.eraseLocal k = c.erase k := by
  rcases erase_of_resolve ((c.hasLocal_iff_resolve k).mp h) with
    ⟨frame, e, changed, hframe, herase, heq⟩
  rw [frame?_top, Option.some.injEq] at hframe
  subst hframe
  rw [heq, eraseLocal_of_erase? herase]

omit [EquivBEq κ] in
/-- If the current frame does not hold the key, erasing it there is refused. -/
theorem eraseLocal_of_hasLocal_false {c : Chain ε} (h : c.hasLocal k = false) :
    c.eraseLocal k = (.error .notInCurrentScope, c) := by
  refine eraseLocal_of_none ?_
  have hheld := c.stack.top.erase?_isSome k
  rw [← Option.not_isSome_iff_eq_none, hheld]
  change ¬ c.hasLocal k = true
  rw [h]
  exact Bool.false_ne_true

/-- Whatever is shown of an erased entry, deletions uncover the entries one by one and then fail. -/
theorem deletionLaws {deleteLocal : Chain ε → Except Error α × Chain ε}
    (hdelete : Erases shown delete k)
    (hlocal : ∀ c, deleteLocal c = (c.eraseLocal k).map (Except.map shown) id) (c : Chain ε) :
    DeletionLaws shown delete deleteLocal c k := by
  have hanswer : (delete c).1 = (c.lookup k).map shown := by
    rw [hdelete, ← erase_fst]
    rfl
  have hrefused : c.has k = false → delete c = (.error .keyNotFound, c) := by
    intro h
    rw [hdelete, erase_of_none ((c.resolve_eq_none_iff k).mpr h)]
    rfl
  have hsucceeds : (delete c).1.isOk = c.has k := by
    rw [hanswer, lookup_eq_head?, has_eq_isSome_head?]
    cases (c.held k).head? <;> rfl
  have hlocalAsDelete : c.hasLocal k = true → deleteLocal c = delete c := by
    intro h
    rw [hlocal, hdelete, eraseLocal_eq_erase h]
  have hlocalRefused : c.hasLocal k = false → deleteLocal c = (.error .notInCurrentScope, c) := by
    intro h
    rw [hlocal, eraseLocal_of_hasLocal_false h]
    rfl
  exact {
    succeeds := hsucceeds
    answer := hanswer
    refused := hrefused
    erased := fun r hresolve => by
      rcases exists_erasedAt hresolve with ⟨e, -, -, herased⟩
      rw [hdelete]
      exact herased
    holders := c.length_held k
    repeated := fun n => drained_repeatedly hdelete n c
    succeedsLocal := by
      cases h : c.hasLocal k with
      | false => rw [hlocalRefused h]; rfl
      | true =>
          rw [hlocalAsDelete h, hsucceeds]
          exact c.has_of_resolve ((c.hasLocal_iff_resolve k).mp h)
    localAsDelete := hlocalAsDelete
    localRefused := hlocalRefused }

end Chain

/-! ## Chains of bindings and of names -/

/-- What deletions of a key from a chain of bindings answer and change. -/
structure Bindings.DeletionLaws [BEq ν] (c : Bindings κ ν) (k : κ) : Prop extends
    Chain.DeletionLaws Binding.value (fun c => Bindings.delete c k)
      (fun c => Bindings.deleteLocal c k) c k where
  answer_get : (c.delete k).1 = c.get k
  /-- The value that a further frame binds the key to is uncovered. -/
  uncovered : ∀ r, c.resolve k = some r → Bindings.get (c.delete k).2 k = c.getBelow r k

/-- What deletions of a key from a chain of names answer and change. -/
structure Names.DeletionLaws (c : Names κ) (k : κ) : Prop extends
    Chain.DeletionLaws Member.key (fun c => Names.delete c k)
      (fun c => Names.deleteLocal c k) c k where
  answer_get : (c.delete k).1 = c.get k
  /-- The spelling of the key in a further frame is uncovered. -/
  uncovered : ∀ r, c.resolve k = some r →
    Names.get (c.delete k).2 k = (c.lookupBelow r k).map Member.key

namespace Chain

variable [EquivBEq κ]

/--
In every chain, a deletion succeeds if and only if some frame holds the key, and takes out what the
look-up of the key finds.  It changes nothing else, and uncovers what the look-up finds further
out.  Repeated deletions take out everything that is held under the key, in this order.
-/
theorem deletion_unshadows [BEq ν] :
    (∀ (c : Bindings κ ν) (k : κ), Bindings.DeletionLaws c k) ∧
    (∀ (c : Names κ) (k : κ), Names.DeletionLaws c k) := by
  constructor
  · intro c k
    have hlaws : DeletionLaws Binding.value (fun c => Bindings.delete c k)
        (fun c => Bindings.deleteLocal c k) c k := deletionLaws (fun _ => rfl) (fun _ => rfl) c
    refine ⟨hlaws, hlaws.answer, fun r hresolve => ?_⟩
    exact congrArg (Except.map Binding.value) (hlaws.erased r hresolve).lookup
  · intro c k
    have hlaws : DeletionLaws Member.key (fun c => Names.delete c k)
        (fun c => Names.deleteLocal c k) c k := deletionLaws (fun _ => rfl) (fun _ => rfl) c
    refine ⟨hlaws, hlaws.answer, fun r hresolve => ?_⟩
    exact congrArg (Except.map Member.key) (hlaws.erased r hresolve).lookup

/-- A key is bound in the root and above an empty frame, in two spellings, and deleted thrice. -/
theorem deletion_unshadows_gap :
    let upper : CaseFolded := ⟨"ITEM", "item", by decide +kernel⟩
    let lower : CaseFolded := ⟨"item", "item", by decide +kernel⟩
    let c : Bindings CaseFolded Nat :=
      (ofRoot (.ofList .standard [⟨upper, 1⟩])).push.pushFrame (.ofList .standard [⟨lower, 2⟩])
    let deleted := repeatedly (fun c => Bindings.delete c lower) 3 c
    Bindings.DeletionLaws c lower ∧ c.resolve lower = some 2 ∧
      deleted.1.map Except.toOption = [some 2, some 1, none] ∧ deleted.2.has upper = false := by
  intro upper lower c deleted
  have h : Bindings.DeletionLaws c lower := deletion_unshadows.1 c lower
  exact ⟨h, by decide +kernel, by decide +kernel, by decide +kernel⟩

end Chain
end LexicalScope
