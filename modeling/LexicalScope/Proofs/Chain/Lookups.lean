import LexicalScope.Proofs.Chain.Effect
import LexicalScope.Session.BindingRequest

/-!
# All ways to look a key up agree

A chain can be asked whether some frame holds a key, whether the current one does or one
with a given index, which is the innermost one that does, and what it holds; below an
index it can be asked the same, and an assignment writes to what such a question finds.
These operations walk through the frames in different ways, and all of them come to the
frame with the greatest index among those that hold the key.

Main results:

- Theorem {lit}`Chain.holdersAgree`: the questions that are answered by a truth value or an
  index agree.
- Theorem {lit}`Chain.lookups_agree`: so do those that are answered by what is held, for
  chains of bindings and for chains of names, and so do assignments.
-/

namespace LexicalScope

variable {ε κ ν : Type} [BEq κ]

/-! ## Which frame holds a key -/

namespace Chain

/-- The greatest index below `x` of a frame that holds the key. -/
structure IsInnermost [Entry ε κ] (c : Chain ε) (x : Nat) (k : κ) (i : Nat) : Prop where
  lt : i < min x c.depth
  held : c.hasAt i k = true
  greatest : ∀ j < min x c.depth, c.hasAt j k = true → j ≤ i

/-- The questions about a key that are answered by a truth value or an index agree. -/
structure HoldersAgree [Entry ε κ] (c : Chain ε) (k : κ) : Prop where
  /-- An index is said to hold the key if there is a frame with the index, which holds it. -/
  hasAt : ∀ j, c.hasAt j k = true ↔
    j < c.depth ∧ ∃ frame, c.stack.frame? j = some frame ∧ frame.contains k = true
  /-- The key resolves to the greatest index that holds it. -/
  resolve : ∀ i, c.resolve k = some i ↔ c.hasAt i k = true ∧ ∀ j, c.hasAt j k = true → j ≤ i
  resolve_none : c.resolve k = none ↔ c.has k = false
  hasLocal : c.hasLocal k = c.hasAt (c.depth - 1) k
  hasLocal_iff : c.hasLocal k = true ↔ c.resolve k = some (c.depth - 1)

section Holders

variable [Entry ε κ] (c : Chain ε) (k : κ)

/-- The innermost frame that holds a key is the one that a search finds. -/
theorem isInnermost_iff (x i : Nat) : c.IsInnermost x k i ↔ c.innermost? x k = some i := by
  rw [innermost?_eq_some_iff]
  constructor
  · rintro ⟨hlt, hheld, hgreatest⟩
    refine ⟨hlt, hheld, fun j hij hj => ?_⟩
    cases hjk : c.hasAt j k with
    | false => rfl
    | true =>
        have hle := hgreatest j hj hjk
        omega
  · rintro ⟨hlt, hheld, habove⟩
    refine ⟨hlt, hheld, fun j hj hjk => ?_⟩
    by_contra hij
    rw [habove j (by omega) hj] at hjk
    cases hjk

/-- An index at which a key is held is below the depth. -/
theorem lt_depth_of_hasAt {j : Nat} (h : c.hasAt j k = true) : j < c.depth := by
  rcases (c.hasAt_eq_true_iff j k).mp h with ⟨frame, -, hframe, -⟩
  exact Stack.lt_depth_of_frame? hframe

/-- A key resolves to the greatest index at which it is held. -/
theorem resolve_eq_some_iff_greatest (i : Nat) :
    c.resolve k = some i ↔ c.hasAt i k = true ∧ ∀ j, c.hasAt j k = true → j ≤ i := by
  rw [resolve_eq_innermost?, ← isInnermost_iff]
  constructor
  · rintro ⟨-, hheld, hgreatest⟩
    refine ⟨hheld, fun j hj => hgreatest j ?_ hj⟩
    rw [Nat.min_self]
    exact c.lt_depth_of_hasAt k hj
  · rintro ⟨hheld, hgreatest⟩
    refine ⟨?_, hheld, fun j _ hj => hgreatest j hj⟩
    rw [Nat.min_self]
    exact c.lt_depth_of_hasAt k hheld

/-- A key resolves to no frame if and only if the chain does not have it. -/
theorem resolve_eq_none_iff : c.resolve k = none ↔ c.has k = false := by
  rw [resolve_eq_innermost?, innermost?_eq_none_iff, Nat.min_self, ← heldFrom_zero,
    heldFrom_eq_false_iff]
  constructor
  · intro h j _
    cases hj : c.hasAt j k with
    | false => rfl
    | true =>
        rw [h j (c.lt_depth_of_hasAt k hj)] at hj
        cases hj
  · exact fun h j _ => h j (Nat.zero_le j)

/-- The current frame is the one with the last index. -/
theorem hasLocal_eq_hasAt : c.hasLocal k = c.hasAt (c.depth - 1) k := by
  rw [Chain.hasLocal, Chain.hasAt, frame?_top]
  rfl

/-- The current frame holds a key if and only if the key resolves to it. -/
theorem hasLocal_iff_resolve : c.hasLocal k = true ↔ c.resolve k = some (c.depth - 1) := by
  rw [hasLocal_eq_hasAt, resolve_eq_some_iff_greatest]
  constructor
  · intro h
    refine ⟨h, fun j hj => ?_⟩
    have hlt := c.lt_depth_of_hasAt k hj
    omega
  · exact fun h => h.1

/-- The questions that are answered by a truth value or an index agree. -/
theorem holdersAgree : c.HoldersAgree k where
  hasAt := by
    intro j
    rw [Chain.hasAt, Option.any_eq_true]
    constructor
    · rintro ⟨frame, hframe, hheld⟩
      exact ⟨Stack.lt_depth_of_frame? hframe, frame, hframe, hheld⟩
    · rintro ⟨-, frame, hframe, hheld⟩
      exact ⟨frame, hframe, hheld⟩
  resolve := c.resolve_eq_some_iff_greatest k
  resolve_none := c.resolve_eq_none_iff k
  hasLocal := c.hasLocal_eq_hasAt k
  hasLocal_iff := c.hasLocal_iff_resolve k

/-- The look-up of a key answers what is held in the frame that the key resolves to. -/
theorem lookup_of_resolve {i : Nat} (h : c.resolve k = some i) :
    ∃ frame e, c.stack.frame? i = some frame ∧ frame.find? k = some e ∧ c.lookup k = .ok e := by
  rw [resolve_eq_innermost?] at h
  exact lookupBelow_of_innermost? h

/-- If a key resolves to no frame, it is not found. -/
theorem lookup_of_resolve_none (h : c.resolve k = none) : c.lookup k = .error .keyNotFound := by
  rw [resolve_eq_innermost?] at h
  exact lookupBelow_of_none h

end Holders

end Chain

/-! ## Chains of bindings -/

namespace Bindings

variable [BEq ν] (c : Bindings κ ν) (k : κ)

/--
A change of the value of a key has answered the value of the binding that the frame with
an index held, and that binding is all that has changed: its value, but not its key.
-/
structure ChangedAt (i : Nat) (frame : Frame (Binding κ ν)) (b : Binding κ ν) (f : ν → ν)
    (outcome : Except Error ν × Bindings κ ν) : Prop where
  answer : outcome.1 = .ok b.value
  chain : ∃ changed : Frame (Binding κ ν), outcome.2 = c.setFrame i changed ∧
    changed.hasher = frame.hasher ∧ changed.find? k = some ⟨b.key, f b.value⟩ ∧
    ∀ k', (k == k') = false → changed.find? k' = frame.find? k'

/-- All questions about the binding of a key agree, and assignments reach that binding. -/
structure LookupsAgree [Ord κ] : Prop extends Chain.HoldersAgree c k where
  get_error : c.get k = .error .keyNotFound ↔ c.resolve k = none
  demand_error : ((BindingRequest.demand k).fulfil c).1 = .error .unbound ↔ c.resolve k = none
  /-- A key that resolves to a frame has the value that it is bound to there. -/
  found : ∀ i, c.resolve k = some i → ∃ frame b,
    c.stack.frame? i = some frame ∧ frame.find? k = some b ∧
      c.get k = .ok b.value ∧ (BindingRequest.demand k).fulfil c = (.ok (.value b.value), c) ∧
      c.getBelow c.depth k = .ok b.value ∧
      ∀ f, ChangedAt c k i frame b f (c.modify k f)
  /-- Below an index, the frame with the greatest index that binds the key is what counts. -/
  foundBelow : ∀ x i, c.IsInnermost x k i → ∃ frame b,
    c.stack.frame? i = some frame ∧ frame.find? k = some b ∧ c.getBelow x k = .ok b.value ∧
      ∀ f, ChangedAt c k i frame b f (c.modifyBelow x k f)
  /-- Below an index where no frame binds the key there is nothing to find or to change. -/
  missingBelow : ∀ x, (∀ j < min x c.depth, c.hasAt j k = false) →
    c.getBelow x k = .error .keyNotFound ∧ ∀ f, c.modifyBelow x k f = (.error .keyNotFound, c)

/-- If a key resolves to no frame, it has no value. -/
theorem get_of_resolve_none (h : c.resolve k = none) : c.get k = .error .keyNotFound := by
  rw [get, c.lookup_of_resolve_none k h]
  rfl

/-- The value of a key is the one in the frame that it resolves to. -/
theorem get_of_resolve {i : Nat} (h : c.resolve k = some i) :
    ∃ frame b, c.stack.frame? i = some frame ∧ frame.find? k = some b ∧ c.get k = .ok b.value := by
  rcases c.lookup_of_resolve k h with ⟨frame, b, hframe, hfind, hlookup⟩
  refine ⟨frame, b, hframe, hfind, ?_⟩
  rw [get, hlookup]
  rfl

/-- A change below an index reaches the binding that a look-up below the index finds. -/
theorem changedAt_modifyBelow [EquivBEq κ] {x i : Nat} (h : c.innermost? x k = some i) :
    ∃ frame b, c.stack.frame? i = some frame ∧ frame.find? k = some b ∧
      c.getBelow x k = .ok b.value ∧ ∀ f, ChangedAt c k i frame b f (c.modifyBelow x k f) := by
  rcases Chain.lookupBelow_of_innermost? h with ⟨frame, b, hframe, hfind, hlookup⟩
  have hkey : (b.key == k) = true := Frame.key_beq_of_find? hfind
  refine ⟨frame, b, hframe, hfind, ?_, fun f => ?_⟩
  · rw [getBelow, hlookup]
    rfl
  · rcases modifyBelow_of_innermost? h f with ⟨frame', b', hframe', hfind', heq⟩
    rw [hframe, Option.some.injEq] at hframe'
    subst hframe'
    rw [hfind, Option.some.injEq] at hfind'
    subst hfind'
    have hheld : frame.find? b.key = some b := by rw [frame.find?_congr hkey, hfind]
    rw [heq]
    refine ⟨rfl, (frame.insert ⟨b.key, f b.value⟩).2, rfl, rfl, ?_, fun k' hk' => ?_⟩
    · rw [← Frame.find?_congr _ hkey]
      refine (frame.find?_insert_self (⟨b.key, f b.value⟩ : Binding κ ν)).trans ?_
      change some (((frame.find? b.key).map _).getD _) = _
      rw [hheld]
      rfl
    · apply frame.find?_insert_of_ne
      change (b.key == k') = false
      rw [BEq.congr_left hkey, hk']

/-- All questions about a key agree for chains of bindings. -/
theorem lookupsAgree [EquivBEq κ] [Ord κ] : LookupsAgree c k where
  toHoldersAgree := c.holdersAgree k
  get_error := by
    refine ⟨fun h => ?_, c.get_of_resolve_none k⟩
    cases hresolve : c.resolve k with
    | none => rfl
    | some i =>
        rcases c.get_of_resolve k hresolve with ⟨frame, b, -, -, hget⟩
        rw [hget] at h
        cases h
  demand_error := by
    rw [BindingRequest.fulfil]
    constructor
    · intro h
      cases hresolve : c.resolve k with
      | none => rfl
      | some i =>
          rcases c.get_of_resolve k hresolve with ⟨frame, b, -, -, hget⟩
          rw [hget] at h
          cases h
    · intro h
      rw [c.get_of_resolve_none k h]
  found := by
    intro i hresolve
    rcases c.get_of_resolve k hresolve with ⟨frame, b, hframe, hfind, hget⟩
    rw [Chain.resolve_eq_innermost?] at hresolve
    rcases c.changedAt_modifyBelow k hresolve with ⟨frame', b', hframe', hfind', -, hchange⟩
    rw [hframe, Option.some.injEq] at hframe'
    subst hframe'
    rw [hfind, Option.some.injEq] at hfind'
    subst hfind'
    refine ⟨frame, b, hframe, hfind, hget, ?_, hget, hchange⟩
    rw [BindingRequest.fulfil, hget]
  foundBelow := by
    intro x i h
    exact c.changedAt_modifyBelow k ((c.isInnermost_iff k x i).mp h)
  missingBelow := by
    intro x h
    have hnone := (c.innermost?_eq_none_iff x k).mpr h
    refine ⟨?_, fun f => modifyBelow_of_none hnone f⟩
    rw [getBelow, Chain.lookupBelow_of_none hnone]
    rfl

end Bindings

/-! ## Chains of names -/

namespace Names

variable (c : Names κ) (k : κ)

/-- All questions about a key agree; its spelling is that of the frame it resolves to. -/
structure LookupsAgree : Prop extends Chain.HoldersAgree c k where
  get_error : c.get k = .error .keyNotFound ↔ c.resolve k = none
  found : ∀ i, c.resolve k = some i → ∃ frame m,
    c.stack.frame? i = some frame ∧ frame.find? k = some m ∧ c.get k = .ok m.key

/-- All questions about a key agree for chains of names. -/
theorem lookupsAgree : LookupsAgree c k := by
  have hfound : ∀ i, c.resolve k = some i → ∃ frame m,
      c.stack.frame? i = some frame ∧ frame.find? k = some m ∧ c.get k = .ok m.key := by
    intro i hresolve
    rcases c.lookup_of_resolve k hresolve with ⟨frame, m, hframe, hfind, hlookup⟩
    refine ⟨frame, m, hframe, hfind, ?_⟩
    rw [get, hlookup]
    rfl
  refine ⟨c.holdersAgree k, ⟨fun h => ?_, fun h => ?_⟩, hfound⟩
  · cases hresolve : c.resolve k with
    | none => rfl
    | some i =>
        rcases hfound i hresolve with ⟨frame, m, -, -, hget⟩
        rw [hget] at h
        cases h
  · rw [get, c.lookup_of_resolve_none k h]
    rfl

end Names

/-! ## Both kinds of chains -/

namespace Chain

/--
In every chain of bindings and in every chain of names, all ways to look up a key agree:
they come to the frame with the greatest index among those that hold the key, or among
those below an index, and they fail if and only if there is none.
-/
theorem lookups_agree [EquivBEq κ] [Ord κ] [BEq ν] :
    (∀ (c : Bindings κ ν) (k : κ), c.LookupsAgree k) ∧
    (∀ (c : Names κ) (k : κ), c.LookupsAgree k) :=
  ⟨fun c k => c.lookupsAgree k, fun c k => c.lookupsAgree k⟩

/-- A key that the root and the frame above it bind, but not the current one. -/
theorem lookups_agree_shadowed :
    let c : Bindings Nat Bool := ((Chain.ofRoot (.ofList .standard [⟨7, false⟩, ⟨8, true⟩])).pushFrame
      (.ofList .standard [⟨7, true⟩])).push
    c.LookupsAgree 7 ∧ c.resolve 7 = some 1 ∧ c.IsInnermost 1 7 0 ∧
      (c.getBelow 1 7).toOption = some false := by
  intro c
  have h : c.LookupsAgree 7 := lookups_agree.1 c 7
  exact ⟨h, by decide +kernel, ⟨by decide +kernel, by decide +kernel, by decide +kernel⟩,
    by decide +kernel⟩

end Chain
end LexicalScope
