import LexicalScope.Key.CaseFolded
import LexicalScope.Proofs.Chain.OneEntry

/-!
# Assigning through the chain

An assignment writes over the value of a binding that a look-up of the key finds, whichever frame
holds it.  So it succeeds when the look-up does, answers what the look-up answers, and changes
that one value.  The key stays as it was spelled, no frame gains or loses a key, and what is
found under the key from some index changes if and only if the look-up from there comes to the
same frame.

Main results:

- Theorems {lit}`Frame.overwrite_overwrite` and {lit}`Frame.overwrite_self`: of two values the
  second one stays, and the old value gives the frame back.
- Theorem {lit}`Bindings.assignedAt_setFrame`: what a new value in one frame changes.
- Theorem {lit}`Bindings.assignment_changes_one_value`: what assignments answer and change.
-/

namespace LexicalScope

variable {κ ν : Type} [BEq κ] [BEq ν]

/-! ## Frames -/

namespace Frame

/-- Frames with the same hasher and the same entries are equal. -/
theorem ext_entries {ε : Type} [Entry ε κ] {f g : Frame ε} (hhasher : f.hasher = g.hasher)
    (hentries : f.entries = g.entries) : f = g := by
  obtain ⟨_, _, _⟩ := f
  obtain ⟨_, _, _⟩ := g
  cases hhasher
  cases hentries
  rfl

/-- The frame with another value in the place of that of a binding. -/
def overwrite (frame : Frame (Binding κ ν)) (b : Binding κ ν) (v : ν) : Frame (Binding κ ν) :=
  (frame.insert ⟨b.key, v⟩).2

variable [EquivBEq κ] {frame : Frame (Binding κ ν)} {k : κ} {b : Binding κ ν}

/-- The key is then bound to the other value, and spelled as before. -/
theorem find?_overwrite (h : frame.find? k = some b) (v : ν) :
    (frame.overwrite b v).find? k = some ⟨b.key, v⟩ := by
  have hkey : (b.key == k) = true := key_beq_of_find? h
  have hheld : frame.find? b.key = some b := by rw [frame.find?_congr hkey, h]
  have hfound := frame.find?_insert_self (⟨b.key, v⟩ : Binding κ ν)
  change (frame.overwrite b v).find? b.key =
    some (((frame.find? b.key).map fun stored => Entry.replace stored ⟨b.key, v⟩).getD _) at hfound
  rw [← find?_congr _ hkey, hfound, hheld]
  rfl

/-- The bindings of all other keys stay, in their order. -/
theorem others_overwrite (h : frame.find? k = some b) (v : ν) :
    (frame.overwrite b v).others k = frame.others k := by
  have hkey : (b.key == k) = true := key_beq_of_find? h
  have hnew : (Entry.key (⟨b.key, v⟩ : Binding κ ν) == k) = true := hkey
  exact frame.others_insert hnew

omit [EquivBEq κ] in
/-- Another value does not change the keys, neither their spelling nor their order. -/
theorem map_key_overwrite [ReflBEq κ] (h : frame.find? k = some b) (v : ν) :
    (frame.overwrite b v).entries.map Binding.key = frame.entries.map Binding.key := by
  have hmem : b ∈ frame.entries := List.mem_of_find?_eq_some h
  have hheld : (frame.entries.any fun stored => Entry.key stored == b.key) = true :=
    List.any_eq_true.mpr ⟨b, hmem, BEq.rfl⟩
  have hkeys := Entry.map_key_upsert (⟨b.key, v⟩ : Binding κ ν) frame.entries
  exact hkeys.trans (if_pos hheld)

omit [EquivBEq κ] in
/-- Of two values that are put in the same place, the second one stays. -/
theorem overwrite_overwrite [ReflBEq κ] (frame : Frame (Binding κ ν)) (b : Binding κ ν) (v w : ν) :
    (frame.overwrite b v).overwrite ⟨b.key, v⟩ w = frame.overwrite b w := by
  refine ext_entries rfl ?_
  change Entry.upsert ⟨b.key, w⟩ (Entry.upsert ⟨b.key, v⟩ frame.entries) =
    Entry.upsert ⟨b.key, w⟩ frame.entries
  induction frame.entries with
  | nil => simp [Entry.upsert, Entry.key, Entry.replace]
  | cons stored rest ih =>
      cases hstored : stored.key == b.key with
      | true => simp [Entry.upsert, Entry.key, Entry.replace, hstored]
      | false => simp [Entry.upsert, Entry.key, hstored, ih]

/-- The value that is there already gives the frame back. -/
theorem overwrite_self (h : frame.find? k = some b) : frame.overwrite b b.value = frame := by
  refine ext_entries rfl ?_
  have hkey : (b.key == k) = true := key_beq_of_find? h
  unfold find? at h
  change Entry.upsert b frame.entries = frame.entries
  generalize frame.entries = entries at h
  induction entries with
  | nil => cases h
  | cons stored rest ih =>
      have hsame : (stored.key == b.key) = (stored.key == k) := BEq.congr_right hkey
      cases hstored : stored.key == k with
      | true =>
          have heq : stored = b := by simpa [Entry.key, hstored] using h
          subst heq
          simp [Entry.upsert, Entry.key, Entry.replace]
      | false =>
          have hrest : rest.find? (fun stored => Entry.key stored == k) = some b := by
            simpa [Entry.key, hstored] using h
          simp [Entry.upsert, Entry.key, hsame, hstored, ih hrest]

end Frame

/-! ## Chains -/

namespace Bindings

/--
In the second chain the binding of a key in the frame with an index has the given value, and this
is all that has changed.
-/
structure AssignedAt (c d : Bindings κ ν) (r : Nat) (k : κ) (v : ν) : Prop
    extends Chain.DiffersAt c d r k where
  /-- The binding has the value and keeps its key as it was spelled. -/
  held : ∃ b : Binding κ ν, c.entryAt? r k = some b ∧ d.entryAt? r k = some ⟨b.key, v⟩
  /-- Every frame has the keys that it had, in the same spelling and order. -/
  keys : ∀ j, (d.stack.frame? j).map (fun frame => frame.entries.map Binding.key) =
    (c.stack.frame? j).map fun frame => frame.entries.map Binding.key
  hasAt : ∀ j k', d.hasAt j k' = c.hasAt j k'
  resolve : ∀ k', d.resolve k' = c.resolve k'
  has : ∀ k', d.has k' = c.has k'
  /-- The value is what is found where a look-up comes to the frame. -/
  getBelow : ∀ x, c.IsInnermost x k r → d.getBelow x k = .ok v
  getBelow_of_not : ∀ x, ¬ c.IsInnermost x k r → d.getBelow x k = c.getBelow x k
  get : c.resolve k = some r → d.get k = .ok v
  get_of_ne : c.resolve k ≠ some r → d.get k = c.get k
  /-- Other keys are looked up as before, from everywhere. -/
  others : ∀ k', (k == k') = false → c.SameLookups d k'

/--
What an assignment to a key below an index answers, and what has changed in the chain after it: the
value of the innermost binding below the index, if there is one, and nothing otherwise.
-/
structure Assigned (c : Bindings κ ν) (x : Nat) (k : κ) (v : ν)
    (outcome : Except Error ν × Bindings κ ν) : Prop where
  /-- The answer is that of the look-up before, whether it succeeds or not. -/
  answer : outcome.1 = c.getBelow x k
  refused : ∀ e, outcome.1 = .error e → outcome.2 = c
  changed : ∀ old, outcome.1 = .ok old →
    ∃ r, c.IsInnermost x k r ∧ AssignedAt c outcome.2 r k v

variable [EquivBEq κ] {c : Bindings κ ν} {x r : Nat} {k : κ}

omit [EquivBEq κ] in
/-- A key resolves to the innermost frame below the depth that binds it. -/
theorem isInnermost_depth_iff : c.IsInnermost c.depth k r ↔ c.resolve k = some r := by
  rw [Chain.isInnermost_iff, Chain.resolve_eq_innermost?]

/-- What changes when a frame has another value under a key. -/
theorem assignedAt_setFrame {frame : Frame (Binding κ ν)} {b : Binding κ ν}
    (hframe : c.stack.frame? r = some frame) (hfind : frame.find? k = some b) (v : ν) :
    AssignedAt c (c.setFrame r (frame.overwrite b v)) r k v := by
  have hdiffers : Chain.DiffersAt c (c.setFrame r (frame.overwrite b v)) r k :=
    Chain.differsAt_setFrame hframe rfl (Frame.others_overwrite hfind v)
  have hbefore : c.entryAt? r k = some b := by rw [Chain.entryAt?, hframe, Option.bind_some, hfind]
  have hafter : (c.setFrame r (frame.overwrite b v)).entryAt? r k = some ⟨b.key, v⟩ := by
    rw [Chain.entryAt?_setFrame_self hframe, Frame.find?_overwrite hfind]
  have hchanged := c.frame?_setFrame_self (Stack.lt_depth_of_frame? hframe) (frame.overwrite b v)
  have hkeys := Frame.map_key_overwrite hfind v
  generalize c.setFrame r (frame.overwrite b v) = d at hdiffers hafter hchanged ⊢
  have hheldAt : c.hasAt r k = true := by rw [← Chain.isSome_entryAt?, hbefore]; rfl
  have hhasAt : ∀ j k', d.hasAt j k' = c.hasAt j k' := by
    intro j k'
    by_cases hj : j = r
    · subst hj
      cases hk : k == k' with
      | false => exact (hdiffers.sameLookups hk).hasAt j
      | true =>
          -- An equally spelled or not, the key is held before and after.
          have hbefore' : c.entryAt? j k' = some b := by
            rw [Chain.entryAt?, hframe, Option.bind_some, ← frame.find?_congr hk, hfind]
          have hafter' : d.entryAt? j k' = some ⟨b.key, v⟩ := by
            rw [Chain.entryAt?, hchanged, Option.bind_some, ← Frame.find?_congr _ hk,
              Frame.find?_overwrite hfind]
          rw [← Chain.isSome_entryAt?, hafter', ← Chain.isSome_entryAt?, hbefore']
          rfl
    · exact hdiffers.hasAt_of_ne hj k'
  have hresolve : ∀ k', d.resolve k' = c.resolve k' := fun k' =>
    Chain.resolve_eq_of_hasAt fun j => hhasAt j k'
  have hbelow : ∀ x, c.IsInnermost x k r → getBelow d x k = .ok v := by
    intro x hx
    have hfree := ((c.isInnermost_iff_freeBetween k x r).mp hx).2
    rw [Bindings.getBelow, (hdiffers.lookupBelow_of_held hafter x).1 hfree]
    rfl
  have hbelow' : ∀ x, ¬ c.IsInnermost x k r → getBelow d x k = getBelow c x k := by
    intro x hx
    have hhidden : ¬ (r < x ∧ c.FreeBetween r x k) := fun hfree =>
      hx ((c.isInnermost_iff_freeBetween k x r).mpr ⟨hheldAt, hfree⟩)
    rw [Bindings.getBelow, (hdiffers.lookupBelow_of_held hafter x).2 hhidden]
    rfl
  have hget : get d k = getBelow d c.depth k := by
    rw [← hdiffers.depth]
    rfl
  exact {
    toDiffersAt := hdiffers
    held := ⟨b, hbefore, hafter⟩
    keys := by
      intro j
      by_cases hj : j = r
      · rw [hj, hchanged, hframe, Option.map_some, Option.map_some, hkeys]
      · rw [hdiffers.frame? j hj]
    hasAt := hhasAt
    resolve := hresolve
    has := fun k' => by
      rw [Chain.has_eq_isSome_resolve, hresolve, Chain.has_eq_isSome_resolve]
    getBelow := hbelow
    getBelow_of_not := hbelow'
    get := fun h => hget.trans (hbelow _ (isInnermost_depth_iff.mpr h))
    get_of_ne := fun h => hget.trans (hbelow' _ fun hinner => h (isInnermost_depth_iff.mp hinner))
    others := fun k' hne => hdiffers.sameLookups hne }

/-! ## Assignments -/

omit [EquivBEq κ] in
/-- Assignments below an index, whatever their value, are made in one and the same binding. -/
theorem modifyBelow_eq_setFrame (h : c.innermost? x k = some r) :
    ∃ frame b, c.stack.frame? r = some frame ∧ frame.find? k = some b ∧
      c.getBelow x k = .ok b.value ∧
        ∀ v, (c.modifyBelow x k fun _ => v) = (.ok b.value, c.setFrame r (frame.overwrite b v)) := by
  rcases Chain.lookupBelow_of_innermost? h with ⟨frame, b, hframe, hfind, hlookup⟩
  refine ⟨frame, b, hframe, hfind, by rw [getBelow, hlookup]; rfl, fun v => ?_⟩
  rcases modifyBelow_of_innermost? h fun _ => v with ⟨frame', b', hframe', hfind', heq⟩
  rw [hframe, Option.some.injEq] at hframe'
  subst hframe'
  rw [hfind, Option.some.injEq] at hfind'
  subst hfind'
  exact heq

/-- An assignment below an index changes one value, or is refused and changes nothing. -/
theorem assigned_modifyBelow (c : Bindings κ ν) (x : Nat) (k : κ) (v : ν) :
    Assigned c x k v (c.modifyBelow x k fun _ => v) := by
  cases h : c.innermost? x k with
  | none =>
      rw [modifyBelow_of_none h]
      have hanswer : c.getBelow x k = .error .keyNotFound := by
        rw [getBelow, Chain.lookupBelow_of_none h]
        rfl
      refine ⟨hanswer.symm, fun _ _ => rfl, fun old hold => ?_⟩
      cases hold
  | some r =>
      rcases modifyBelow_eq_setFrame h with ⟨frame, b, hframe, hfind, hget, hmodify⟩
      rw [hmodify]
      refine ⟨hget.symm, fun e he => ?_, fun old _ => ?_⟩
      · cases he
      · exact ⟨r, (c.isInnermost_iff k x r).mpr h, assignedAt_setFrame hframe hfind v⟩

/-- After a value was put in, the same binding is the innermost one. -/
theorem innermost?_overwrite {frame : Frame (Binding κ ν)} {b : Binding κ ν}
    (hframe : c.stack.frame? r = some frame) (hfind : frame.find? k = some b) (v : ν) :
    (c.setFrame r (frame.overwrite b v)).innermost? x k = c.innermost? x k := by
  have hassigned := assignedAt_setFrame hframe hfind v
  have hheld : (fun j => (c.setFrame r (frame.overwrite b v)).hasAt j k) = fun j => c.hasAt j k :=
    funext fun j => hassigned.hasAt j k
  rw [Chain.innermost?, Chain.innermost?, hheld, hassigned.depth]

/-- Of two assignments to the same binding the second one stays. -/
theorem modifyBelow_modifyBelow (c : Bindings κ ν) (x : Nat) (k : κ) (v w : ν) :
    (modifyBelow (c.modifyBelow x k fun _ => v).2 x k fun _ => w).2 =
      (c.modifyBelow x k fun _ => w).2 := by
  cases h : c.innermost? x k with
  | none => rw [modifyBelow_of_none h]
  | some r =>
      rcases modifyBelow_eq_setFrame h with ⟨frame, b, hframe, hfind, -, hmodify⟩
      have hagain : (c.setFrame r (frame.overwrite b v)).innermost? x k = some r := by
        rw [innermost?_overwrite hframe hfind, h]
      rcases modifyBelow_eq_setFrame hagain with ⟨frame', b', hframe', hfind', -, hmodify'⟩
      rw [c.frame?_setFrame_self (Stack.lt_depth_of_frame? hframe), Option.some.injEq] at hframe'
      subst hframe'
      rw [Frame.find?_overwrite hfind, Option.some.injEq] at hfind'
      subst hfind'
      rw [hmodify, hmodify', hmodify, Chain.setFrame_setFrame, Frame.overwrite_overwrite]

/-- The value that is there already gives the chain back. -/
theorem modifyBelow_self {old : ν} (h : c.getBelow x k = .ok old) :
    (c.modifyBelow x k fun _ => old).2 = c := by
  cases hinner : c.innermost? x k with
  | none => rw [modifyBelow_of_none hinner]
  | some r =>
      rcases modifyBelow_eq_setFrame hinner with ⟨frame, b, hframe, hfind, hget, hmodify⟩
      rw [hget, Except.ok.injEq] at h
      subst h
      rw [hmodify, Frame.overwrite_self hfind]
      exact Chain.setFrame_of_frame? hframe

/-! ## All three ways to assign -/

/-- What assignments to a key answer and change. -/
structure AssignmentLaws (c : Bindings κ ν) (k : κ) (v : ν) : Prop where
  overwriteBelow : ∀ x, Assigned c x k v (c.modifyBelow x k fun _ => v)
  overwrite : Assigned c c.depth k v (c.modify k fun _ => v)
  assign : Assigned c c.depth k v (c.assign k v)
  /-- Below the depth, the innermost binding is the one that the key resolves to. -/
  reached : ∀ r, c.IsInnermost c.depth k r ↔ c.resolve k = some r
  get : c.get k = c.getBelow c.depth k
  /-- Of two assignments the second one stays. -/
  assign_assign : ∀ w, (Bindings.assign (c.assign k v).2 k w).2 = (c.assign k w).2
  /-- Assigning the old value gives the chain back. -/
  assign_back : ∀ old, (c.assign k v).1 = .ok old → (Bindings.assign (c.assign k v).2 k old).2 = c

/--
In every chain of bindings an assignment to a key succeeds if and only if the look-up of the key
does, and answers the value that is found.  It changes this value and nothing else, and the change
shows exactly where a look-up of the key comes to the same frame.
-/
theorem assignment_changes_one_value (c : Bindings κ ν) (k : κ) (v : ν) :
    AssignmentLaws c k v := by
  have hdepth : (c.assign k v).2.depth = c.depth := (writtenAt_modifyBelow c c.depth k _).depth_eq
  have hagain : ∀ w, (Bindings.assign (c.assign k v).2 k w).2 = (c.assign k w).2 := by
    intro w
    rw [Bindings.assign, Bindings.modify, hdepth]
    exact modifyBelow_modifyBelow c c.depth k v w
  exact {
    overwriteBelow := fun x => assigned_modifyBelow c x k v
    overwrite := assigned_modifyBelow c c.depth k v
    assign := assigned_modifyBelow c c.depth k v
    reached := fun r => isInnermost_depth_iff
    get := rfl
    assign_assign := hagain
    assign_back := fun old hold => by
      have hget : c.getBelow c.depth k = .ok old :=
        (assigned_modifyBelow c c.depth k v).answer.symm.trans hold
      rw [hagain]
      exact modifyBelow_self hget }

/-- Below the current frame, the middle one of three frames is assigned to, in another spelling. -/
theorem assignment_changes_one_value_covered :
    let upper : CaseFolded := ⟨"SUM", "sum", by decide +kernel⟩
    let lower : CaseFolded := ⟨"sum", "sum", by decide +kernel⟩
    let c : Bindings CaseFolded Nat :=
      ((Chain.ofRoot (.ofList .standard [⟨lower, 1⟩])).pushFrame
        (.ofList .standard [⟨upper, 2⟩])).pushFrame (.ofList .standard [⟨lower, 3⟩])
    let d := (c.modifyBelow 2 lower fun _ => 9).2
    AssignmentLaws c lower 9 ∧ c.IsInnermost 2 lower 1 ∧
      (c.modifyBelow 2 lower fun _ => 9).1.toOption = some 2 ∧
      (getBelow d 2 upper).toOption = some 9 ∧ (getBelow d 1 upper).toOption = some 1 ∧
      (get d upper).toOption = some 3 ∧ d.resolve upper = some 2 := by
  intro upper lower c d
  have h : AssignmentLaws c lower 9 := assignment_changes_one_value c lower 9
  exact ⟨h, ⟨by decide +kernel, by decide +kernel, by decide +kernel⟩, by decide +kernel,
    by decide +kernel, by decide +kernel, by decide +kernel, by decide +kernel⟩

end Bindings
end LexicalScope
