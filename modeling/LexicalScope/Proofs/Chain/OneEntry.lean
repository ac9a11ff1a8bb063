import LexicalScope.Proofs.Chain.Lookups

/-!
# Chains that differ in one entry

An operation that puts an entry in, changes it or takes it out does so in one frame and under
one key.  All other frames stay, and so do the other entries of that frame, their spelling and
their order.  Here is what can be seen of it: nothing under any other key, and under the key
itself nothing below the frame, and nothing from where a frame in between holds the key.

What can be seen from an index is the first of the entries that the frames below it hold under the
key, {lit}`Chain.heldBelow`, and these change in one place only.

Main results:

- Theorem {lit}`Frame.find?_eq_of_others`: frames with the same other entries answer the other keys
  alike.
- Theorem {lit}`Chain.DiffersAt.sameLookups`: under other keys nothing has changed.
- Theorems {lit}`Chain.DiffersAt.lookupBelow_of_le`, {lit}`Chain.DiffersAt.lookupBelow_of_covered`
  and {lit}`Chain.DiffersAt.lookupBelow_of_free`: what a look-up of the key itself finds.
-/

namespace LexicalScope

variable {ε κ : Type} [Entry ε κ] [BEq κ]

/-! ## The other entries of a frame -/

namespace Frame

/-- The entries under all keys but the given one, in their order. -/
def others (f : Frame ε) (k : κ) : List ε :=
  f.entries.filter fun e => !(Entry.key e == k)

variable [EquivBEq κ] {k : κ}

/-- Another key is found among the entries under all keys but the given one. -/
theorem find?_others (f : Frame ε) {k' : κ} (h : (k == k') = false) :
    ((f.others k).find? fun e => Entry.key e == k') = f.find? k' := by
  have hkeys : (fun e : ε => decide (!(Entry.key e == k)) && (Entry.key e == k')) =
      fun e => Entry.key e == k' := by
    funext e
    cases he : Entry.key e == k' with
    | false => exact Bool.and_false _
    | true =>
        have hne : (Entry.key e == k) = false := by rw [BEq.congr_left he, BEq.comm, h]
        simp [hne]
  rw [others, List.find?_filter, find?]
  simpa using congrArg f.entries.find? hkeys

/-- Frames with the same entries under the other keys answer these keys alike. -/
theorem find?_eq_of_others {f g : Frame ε} (h : g.others k = f.others k) {k' : κ}
    (hne : (k == k') = false) : g.find? k' = f.find? k' := by
  rw [← g.find?_others hne, h, f.find?_others hne]

/-- Putting an entry in leaves the entries under other keys. -/
theorem others_insert (f : Frame ε) {e : ε} (hkey : (Entry.key e == k) = true) :
    (f.insert e).2.others k = f.others k := by
  simp only [others, insert]
  induction f.entries with
  | nil => simp [Entry.upsert, hkey]
  | cons stored rest ih =>
      have hsame : (Entry.key stored == Entry.key e) = (Entry.key stored == k) :=
        BEq.congr_right hkey
      cases hstored : Entry.key stored == k with
      | true => simp [Entry.upsert, hsame, hstored, Entry.key_replace]
      | false => simp [Entry.upsert, hsame, hstored, ih]

/-- What is left when the entry of a key is taken out are the entries under other keys. -/
theorem entries_of_erase? {f g : Frame ε} {e : ε} (h : f.erase? k = some (e, g)) :
    g.entries = f.others k := by
  simp only [erase?, Option.map_eq_some_iff, Prod.mk.injEq] at h
  rcases h with ⟨held, -, -, rfl⟩
  have hdistinct := f.distinct
  simp only [others]
  generalize f.entries = entries at hdistinct
  induction entries with
  | nil => rfl
  | cons first rest ih =>
      rcases List.pairwise_cons.mp hdistinct with ⟨hfirst, hrest⟩
      cases hk : Entry.key first == k with
      | false => simp [hk, ih hrest]
      | true =>
          -- No other entry has the key, so that nothing else is left out.
          have hkept : ∀ other ∈ rest, (!(Entry.key other == k)) = true := by
            intro other hother
            have hne := hfirst _ (List.mem_map_of_mem hother)
            rw [← BEq.congr_right hk, BEq.comm, hne]
            rfl
          simp [hk, List.filter_eq_self.mpr hkept]

/-- Erasing a key leaves the entries under all other keys. -/
theorem others_of_erase? {f g : Frame ε} {e : ε} (h : f.erase? k = some (e, g)) :
    g.others k = f.others k := by
  rw [others, entries_of_erase? h, others, List.filter_filter]
  simp

end Frame

namespace Chain

/-! ## What frames hold under a key -/

/-- What the frame with an index holds under a key. -/
def entryAt? (c : Chain ε) (i : Nat) (k : κ) : Option ε :=
  (c.stack.frame? i).bind fun frame => frame.find? k

/-- What the frames below an index hold under a key, innermost first. -/
def heldBelow (c : Chain ε) (x : Nat) (k : κ) : List ε :=
  (c.stack.below x).filterMap fun frame => frame.find? k

/-- No frame strictly between two indexes holds the key. -/
def FreeBetween (c : Chain ε) (i x : Nat) (k : κ) : Prop :=
  ∀ j, i < j → j < x → c.hasAt j k = false

section Held

variable (c : Chain ε) (k : κ)

/-- A frame holds something under a key if and only if it holds the key. -/
theorem isSome_entryAt? (i : Nat) : (c.entryAt? i k).isSome = c.hasAt i k :=
  c.isSome_bind_find? k i

/-- A frame holds nothing under a key if and only if it does not hold the key. -/
theorem entryAt?_eq_none_iff (i : Nat) : c.entryAt? i k = none ↔ c.hasAt i k = false := by
  rw [← isSome_entryAt?, Option.isSome_eq_false_iff, Option.isNone_iff_eq_none]

theorem heldBelow_zero : c.heldBelow 0 k = [] := by
  rw [heldBelow, Stack.below_zero, List.filterMap_nil]

/-- What is held below an index begins with what the frame just below it holds. -/
theorem heldBelow_succ (n : Nat) :
    c.heldBelow (n + 1) k = (c.entryAt? n k).toList ++ c.heldBelow n k := by
  rw [heldBelow, Stack.below_succ, List.filterMap_append, heldBelow, entryAt?]
  cases c.stack.frame? n with
  | none => rfl
  | some frame =>
      rw [Option.toList_some, Option.bind_some, List.filterMap_cons, List.filterMap_nil]
      cases frame.find? k <;> rfl

/-- Frames that do not hold the key add nothing. -/
theorem heldBelow_of_free {y x : Nat} (hyx : y ≤ x)
    (hfree : ∀ j, y ≤ j → j < x → c.hasAt j k = false) : c.heldBelow x k = c.heldBelow y k := by
  induction hyx with
  | refl => rfl
  | @step n hyn ih =>
      have hnone := (c.entryAt?_eq_none_iff k n).mpr (hfree n hyn (Nat.lt_succ_self n))
      rw [heldBelow_succ, hnone, ih fun j hj hjn => hfree j hj (Nat.lt_succ_of_lt hjn)]
      rfl

/-- A look-up finds the first entry that is held. -/
theorem lookupBelow_eq_head? (x : Nat) :
    c.lookupBelow x k = (c.heldBelow x k).head?.elim (.error .keyNotFound) .ok := by
  rw [lookupBelow_eq, heldBelow, List.head?_filterMap]
  cases (c.stack.below x).findSome? fun frame => frame.find? k <;> rfl

/-- A look-up passes over frames that do not hold the key. -/
theorem lookupBelow_of_freeBetween {i x : Nat} (hx : i < x) (hfree : c.FreeBetween i x k) :
    c.lookupBelow x k = c.lookupBelow (i + 1) k := by
  rw [lookupBelow_eq_head?, lookupBelow_eq_head?, c.heldBelow_of_free k hx hfree]

/-- A look-up stops at a frame that holds the key. -/
theorem lookupBelow_succ_of_held {i : Nat} {e : ε} (h : c.entryAt? i k = some e) :
    c.lookupBelow (i + 1) k = .ok e := by
  rw [lookupBelow_eq_head?, heldBelow_succ, h]
  rfl

/-- A look-up passes over a frame that holds nothing under the key. -/
theorem lookupBelow_succ_of_free {i : Nat} (h : c.entryAt? i k = none) :
    c.lookupBelow (i + 1) k = c.lookupBelow i k := by
  rw [lookupBelow_eq_head?, heldBelow_succ, h, lookupBelow_eq_head?]
  rfl

/-- A chain has a key if and only if the key resolves to a frame. -/
theorem has_eq_isSome_resolve : c.has k = (c.resolve k).isSome := by
  have hnone := c.resolve_eq_none_iff k
  cases hresolve : c.resolve k with
  | none => exact hnone.mp hresolve
  | some i => exact c.has_of_resolve hresolve

/-- If a key resolves to no frame, none holds it. -/
theorem hasAt_of_resolve_eq_none (h : c.resolve k = none) (j : Nat) : c.hasAt j k = false := by
  have hhas := (c.resolve_eq_none_iff k).mp h
  rw [← heldFrom_zero, heldFrom_eq_false_iff] at hhas
  exact hhas j (Nat.zero_le j)

/-- The innermost frame below an index that holds a key has no other one in front of it. -/
theorem isInnermost_iff_freeBetween (x i : Nat) :
    c.IsInnermost x k i ↔ c.hasAt i k = true ∧ i < x ∧ c.FreeBetween i x k := by
  constructor
  · rintro ⟨hlt, hheld, hgreatest⟩
    refine ⟨hheld, by omega, fun j hij hj => Bool.eq_false_iff.mpr fun hjk => ?_⟩
    have hdepth := c.lt_depth_of_hasAt k hjk
    have hle := hgreatest j (by omega) hjk
    omega
  · rintro ⟨hheld, hlt, hfree⟩
    have hdepth := c.lt_depth_of_hasAt k hheld
    refine ⟨by omega, hheld, fun j hj hjk => ?_⟩
    by_contra hij
    rw [hfree j (by omega) (by omega)] at hjk
    cases hjk

/-- No frame above the one that a key resolves to holds the key. -/
theorem freeBetween_of_resolve {r : Nat} (h : c.resolve k = some r) (x : Nat) :
    c.FreeBetween r x k := by
  intro j hrj _
  have hgreatest := ((c.resolve_eq_some_iff_greatest k r).mp h).2
  refine Bool.eq_false_iff.mpr fun hjk => ?_
  have hle := hgreatest j hjk
  omega

end Held

/-! ## Chains that answer a key alike -/

/-- All look-ups of a key find the same in both chains. -/
structure SameLookups (c d : Chain ε) (k : κ) : Prop where
  lookupBelow : ∀ x, d.lookupBelow x k = c.lookupBelow x k
  lookup : d.lookup k = c.lookup k
  has : d.has k = c.has k
  hasLocal : d.hasLocal k = c.hasLocal k
  hasAt : ∀ i, d.hasAt i k = c.hasAt i k
  resolve : d.resolve k = c.resolve k

section Alike

variable {c d : Chain ε} {k : κ}

/-- Which frame a key resolves to depends on which frames hold it. -/
theorem resolve_eq_of_hasAt (h : ∀ i, d.hasAt i k = c.hasAt i k) : d.resolve k = c.resolve k := by
  apply Option.ext
  intro i
  rw [resolve_eq_some_iff_greatest, resolve_eq_some_iff_greatest]
  simp only [h]

/-- What is held below an index depends only on the frames there. -/
theorem heldBelow_congr {x : Nat} (h : ∀ j < x, d.entryAt? j k = c.entryAt? j k) :
    d.heldBelow x k = c.heldBelow x k := by
  induction x with
  | zero => rw [heldBelow_zero, heldBelow_zero]
  | succ n ih =>
      rw [heldBelow_succ, heldBelow_succ, h n (Nat.lt_succ_self n),
        ih fun j hj => h j (Nat.lt_succ_of_lt hj)]

/-- If all frames hold the same under a key, all look-ups of it find the same. -/
theorem sameLookups_of_entryAt? (hdepth : d.depth = c.depth)
    (h : ∀ i, d.entryAt? i k = c.entryAt? i k) : SameLookups c d k := by
  have hheld : ∀ i, d.hasAt i k = c.hasAt i k := by
    intro i
    rw [← isSome_entryAt?, h, isSome_entryAt?]
  have hbelow : ∀ x, d.lookupBelow x k = c.lookupBelow x k := by
    intro x
    rw [lookupBelow_eq_head?, lookupBelow_eq_head?, heldBelow_congr fun j _ => h j]
  exact {
    lookupBelow := hbelow
    lookup := by rw [Chain.lookup, Chain.lookup, hdepth, hbelow]
    has := by rw [has_eq_isSome_resolve, has_eq_isSome_resolve, resolve_eq_of_hasAt hheld]
    hasLocal := by rw [hasLocal_eq_hasAt, hasLocal_eq_hasAt, hdepth, hheld]
    hasAt := hheld
    resolve := resolve_eq_of_hasAt hheld }

theorem SameLookups.refl (c : Chain ε) (k : κ) : SameLookups c c k :=
  ⟨fun _ => rfl, rfl, rfl, rfl, fun _ => rfl, rfl⟩

theorem SameLookups.trans {e : Chain ε} (h : SameLookups c d k) (h' : SameLookups d e k) :
    SameLookups c e k where
  lookupBelow x := (h'.lookupBelow x).trans (h.lookupBelow x)
  lookup := h'.lookup.trans h.lookup
  has := h'.has.trans h.has
  hasLocal := h'.hasLocal.trans h.hasLocal
  hasAt i := (h'.hasAt i).trans (h.hasAt i)
  resolve := h'.resolve.trans h.resolve

end Alike

/-! ## One entry that differs -/

/--
The second chain differs from the first one at most in what the frame with an index holds under
a key.  That frame keeps its hasher and, in their order, its entries under all other keys.
-/
structure DiffersAt (c d : Chain ε) (i : Nat) (k : κ) : Prop where
  hasher : d.hasher = c.hasher
  depth : d.depth = c.depth
  frame? : ∀ j, j ≠ i → d.stack.frame? j = c.stack.frame? j
  label : (d.stack.frame? i).map Frame.hasher = (c.stack.frame? i).map Frame.hasher
  entries : (d.stack.frame? i).map (fun frame => frame.others k) =
    (c.stack.frame? i).map fun frame => frame.others k

/-- Replacing a frame by one with the same other entries differs in that frame and key alone. -/
theorem differsAt_setFrame {c : Chain ε} {i : Nat} {k : κ} {frame changed : Frame ε}
    (hframe : c.stack.frame? i = some frame) (hlabel : changed.hasher = frame.hasher)
    (hothers : changed.others k = frame.others k) : DiffersAt c (c.setFrame i changed) i k := by
  have hchanged := c.frame?_setFrame_self (Stack.lt_depth_of_frame? hframe) changed
  exact {
    hasher := rfl
    depth := c.depth_setFrame i changed
    frame? := fun j hj => c.frame?_setFrame_of_ne (Ne.symm hj) changed
    label := by rw [hchanged, hframe, Option.map_some, Option.map_some, hlabel]
    entries := by rw [hchanged, hframe, Option.map_some, Option.map_some, hothers] }

/-- A frame that was put at an index holds there what it holds. -/
theorem entryAt?_setFrame_self {c : Chain ε} {i : Nat} {frame : Frame ε}
    (hframe : c.stack.frame? i = some frame) (changed : Frame ε) (k : κ) :
    (c.setFrame i changed).entryAt? i k = changed.find? k := by
  rw [entryAt?, c.frame?_setFrame_self (Stack.lt_depth_of_frame? hframe)]
  rfl

namespace DiffersAt

variable {c d : Chain ε} {i : Nat} {k : κ} (h : DiffersAt c d i k)
include h

/-- The frames with other indexes hold what they held. -/
theorem entryAt?_of_ne {j : Nat} (hj : j ≠ i) (k' : κ) : d.entryAt? j k' = c.entryAt? j k' := by
  rw [entryAt?, entryAt?, h.frame? j hj]

/-- The frames with other indexes hold the keys that they held. -/
theorem hasAt_of_ne {j : Nat} (hj : j ≠ i) (k' : κ) : d.hasAt j k' = c.hasAt j k' := by
  rw [← isSome_entryAt?, h.entryAt?_of_ne hj, isSome_entryAt?]

/-- Under other keys nothing has changed. -/
theorem sameLookups [EquivBEq κ] {k' : κ} (hne : (k == k') = false) : SameLookups c d k' := by
  refine sameLookups_of_entryAt? h.depth fun j => ?_
  by_cases hj : j = i
  · subst hj
    have hothers := h.entries
    rw [entryAt?, entryAt?]
    rcases hc : c.stack.frame? j with _ | frame <;> rcases hd : d.stack.frame? j with _ | changed <;>
      simp only [hc, hd, Option.map_some, Option.map_none, Option.some.injEq, reduceCtorEq]
        at hothers
    · rfl
    · exact Frame.find?_eq_of_others hothers hne
  · exact h.entryAt?_of_ne hj k'

/-- What a frame holds does not show in the frames below it. -/
theorem lookupBelow_of_le {x : Nat} (hx : x ≤ i) : d.lookupBelow x k = c.lookupBelow x k := by
  have hheld := heldBelow_congr fun j (hj : j < x) => h.entryAt?_of_ne (by omega) k
  rw [lookupBelow_eq_head?, lookupBelow_eq_head?, hheld]

/-- What the frames above hold stands in front of what has changed. -/
theorem exists_heldBelow_append {x : Nat} (hx : i < x) :
    ∃ upper, c.heldBelow x k = upper ++ c.heldBelow (i + 1) k ∧
      d.heldBelow x k = upper ++ d.heldBelow (i + 1) k ∧
        (upper = [] → c.FreeBetween i x k) := by
  induction hx with
  | refl => exact ⟨[], rfl, rfl, fun _ j hij hj => absurd hij (by omega)⟩
  | @step n hin ih =>
      rcases ih with ⟨upper, hc, hd, hfree⟩
      refine ⟨(c.entryAt? n k).toList ++ upper, ?_, ?_, fun hnil => ?_⟩
      · rw [heldBelow_succ, hc, List.append_assoc]
      · rw [heldBelow_succ, h.entryAt?_of_ne (Nat.ne_of_gt hin), hd, List.append_assoc]
      · rcases List.append_eq_nil_iff.mp hnil with ⟨hn, hupper⟩
        intro j hij hj
        rcases Nat.lt_succ_iff_lt_or_eq.mp hj with hjn | rfl
        · exact hfree hupper j hij hjn
        · rw [Option.toList_eq_nil_iff] at hn
          exact (c.entryAt?_eq_none_iff k j).mp hn

/-- From where a frame in between holds the key, nothing has changed. -/
theorem lookupBelow_of_covered {x : Nat} (hx : i < x) (hcovered : ¬ c.FreeBetween i x k) :
    d.lookupBelow x k = c.lookupBelow x k := by
  rcases h.exists_heldBelow_append hx with ⟨upper, hc, hd, hfree⟩
  rw [lookupBelow_eq_head?, lookupBelow_eq_head?, hc, hd]
  cases upper with
  | nil => exact absurd (hfree rfl) hcovered
  | cons e rest => rfl

/-- Otherwise a look-up comes to the frame that has changed. -/
theorem lookupBelow_of_free {x : Nat} (hx : i < x) (hfree : c.FreeBetween i x k) :
    d.lookupBelow x k = d.lookupBelow (i + 1) k := by
  refine d.lookupBelow_of_freeBetween k hx fun j hij hj => ?_
  rw [h.hasAt_of_ne (Nat.ne_of_gt hij)]
  exact hfree j hij hj

/-- What the frame holds now is found wherever no other frame stands in front of it. -/
theorem lookupBelow_of_held {e : ε} (he : d.entryAt? i k = some e) (x : Nat) :
    (i < x ∧ c.FreeBetween i x k → d.lookupBelow x k = .ok e) ∧
      (¬ (i < x ∧ c.FreeBetween i x k) → d.lookupBelow x k = c.lookupBelow x k) := by
  constructor
  · rintro ⟨hx, hfree⟩
    rw [h.lookupBelow_of_free hx hfree, d.lookupBelow_succ_of_held k he]
  · intro hhidden
    by_cases hx : i < x
    · exact h.lookupBelow_of_covered hx fun hfree => hhidden ⟨hx, hfree⟩
    · exact h.lookupBelow_of_le (Nat.not_lt.mp hx)

end DiffersAt

end Chain
end LexicalScope
