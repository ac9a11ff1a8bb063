import LexicalScope.Proofs.Frame.Agree
import LexicalScope.Proofs.Session.Translation
import LexicalScope.Session.BindingRequest
import LexicalScope.Session.NameRequest
import LexicalScope.Value

/-!
# Independence of keys

What a session answers about one key does not depend on what it is asked about other
keys.  Leave out of a program all requests about other keys, and their entries out of
all frames: what is left is answered as before.

The two runs are related by chains whose frames agree on the key.  A request about the
key keeps them so by acting alike on both, and a request about another key by not
disturbing the one chain that it acts on.

Main results:

- Theorem {lit}`Session.key_independence`: the run of a program and the run of what is left
  of it for one key, for chains of bindings and for chains of names.
-/

namespace LexicalScope

/-! ## Requests about one key -/

section Requests

variable {κ ν : Type} [BEq κ]

/-- The request is about the key; a request for all visible keys is about none. -/
def BindingRequest.concerns (k : κ) : BindingRequest κ ν → Bool
  | .declare key _ | .declareAt _ key _ | .get key | .getBelow _ key => key == k
  | .overwrite key _ | .overwriteBelow _ key _ | .assign key _ => key == k
  | .has key | .hasLocal key | .hasAt _ key | .resolve key => key == k
  | .delete key | .deleteLocal key | .demand key => key == k
  | .keys => false

/-- The request is about a single key, and a demand is for the given one. -/
def BindingRequest.Confined (k : κ) : BindingRequest κ ν → Prop
  | .demand key => (key == k) = true
  | .keys => False
  | _ => True

/-- The request is about the key. -/
def NameRequest.concerns (k : κ) : NameRequest κ → Bool
  | .add key | .addAt _ key | .get key => key == k
  | .has key | .hasLocal key | .hasAt _ key | .resolve key => key == k
  | .delete key | .deleteLocal key => key == k

end Requests

variable {ε ι ρ κ ν : Type} [BEq κ]

/-- What is left of a start for one key. -/
def Start.forKey [Entry ε κ] (k : κ) : Start ε → Start ε :=
  Start.translate fun entries => entries.filter fun e => Entry.key e == k

/-- What is left of a program for one key. -/
def Command.forKey [Entry ε κ] (concerns : ι → Bool) (k : κ) :
    List (Command ε ι) → List (Command ε ι) :=
  Command.translateAll (fun entries => entries.filter fun e => Entry.key e == k) fun request =>
    if concerns request then some request else none

/-! ## Chains that agree on a key -/

/--
The correspondence of a program to what is left of it for one key: hashers, answers and
requests about the key are the same, and frames agree on the key.
-/
def Correspondence.forKey [Entry ε κ] (concerns : ι → Bool) (permitted : ι → Prop) (k : κ) :
    Correspondence ε ι ρ ε ι ρ where
  label := Eq
  mark := Eq
  frame := Frame.AgreesOn k
  entries entries entries' := entries' = entries.filter fun e => Entry.key e == k
  request request request' := request' = request ∧ permitted request ∧ concerns request = true
  dropped request := permitted request ∧ concerns request = false
  answer := Eq
  comparable := False
  look _ _ := False
  sight _ _ := False

namespace Chain

/-- The chains have the same hasher and depth, and their frames agree on the key. -/
abbrev AgreesOn [Entry ε κ] (k : κ) : Chain ε → Chain ε → Prop :=
  Related Eq (Frame.AgreesOn k)

namespace AgreesOn

variable [EquivBEq κ] {k : κ}

section Entries

variable [Entry ε κ] {c d : Chain ε}

/-- Frames that agree on a key find equal entries under its spellings. -/
theorem find? {k' : κ} (hk : (k' == k) = true) (f g : Frame ε) (h : f.AgreesOn k g) :
    Option.Rel Eq (f.find? k') (g.find? k') :=
  optionRel_eq_iff.mpr (h.find? hk)

/-- Chains that agree on a key find the same below an index. -/
theorem lookupBelow (h : AgreesOn k c d) {k' : κ} (hk : (k' == k) = true) (x : Nat) :
    c.lookupBelow x k' = d.lookupBelow x k' :=
  outcomeRel_eq_iff.mp (Related.lookupBelow (find? hk) h x)

/-- Chains that agree on a key find the same. -/
theorem lookup (h : AgreesOn k c d) {k' : κ} (hk : (k' == k) = true) :
    c.lookup k' = d.lookup k' :=
  outcomeRel_eq_iff.mp (Related.lookup (find? hk) h)

/-- Inserting an entry of the key answers the same, and the chains still agree. -/
theorem insert (h : AgreesOn k c d) {e : ε} (he : (Entry.key e == k) = true) :
    (c.insert e).1 = (d.insert e).1 ∧ AgreesOn k (c.insert e).2 (d.insert e).2 := by
  obtain ⟨hanswer, hafter⟩ := Related.insert (A := Eq)
    (fun f g (hfg : f.AgreesOn k g) =>
      ⟨optionRel_eq_iff.mpr (hfg.insert he).1, (hfg.insert he).2⟩) h
  exact ⟨optionRel_eq_iff.mp hanswer, hafter⟩

/-- Inserting an entry of the key by index answers the same, and the chains still agree. -/
theorem insertAt (h : AgreesOn k c d) {e : ε} (he : (Entry.key e == k) = true) (i : Nat) :
    (c.insertAt i e).1 = (d.insertAt i e).1 ∧ AgreesOn k (c.insertAt i e).2 (d.insertAt i e).2 := by
  obtain ⟨hanswer, hafter⟩ := Related.insertAt (A := Eq)
    (fun f g (hfg : f.AgreesOn k g) =>
      ⟨optionRel_eq_iff.mpr (hfg.insert he).1, (hfg.insert he).2⟩) h i
  refine ⟨?_, hafter⟩
  rcases outcomeRel_cases hanswer with ⟨x, y, hc, hd, hxy⟩ | ⟨e, hc, hd⟩
  · rw [hc, hd, optionRel_eq_iff.mp hxy]
  · rw [hc, hd]

/-- Erasing the key answers the same, and the chains still agree. -/
theorem erase (h : AgreesOn k c d) {k' : κ} (hk : (k' == k) = true) :
    (c.erase k').1 = (d.erase k').1 ∧ AgreesOn k (c.erase k').2 (d.erase k').2 := by
  obtain ⟨hanswer, hafter⟩ := Related.erase (A := Eq)
    (fun f g (hfg : f.AgreesOn k g) => hfg.erase? hk) h
  exact ⟨outcomeRel_eq_iff.mp hanswer, hafter⟩

/-- Erasing the key from the current frames answers the same, and the chains still agree. -/
theorem eraseLocal (h : AgreesOn k c d) {k' : κ} (hk : (k' == k) = true) :
    (c.eraseLocal k').1 = (d.eraseLocal k').1 ∧
      AgreesOn k (c.eraseLocal k').2 (d.eraseLocal k').2 := by
  obtain ⟨hanswer, hafter⟩ := Related.eraseLocal (A := Eq)
    (fun f g (hfg : f.AgreesOn k g) => hfg.erase? hk) h
  exact ⟨outcomeRel_eq_iff.mp hanswer, hafter⟩

/-- Inserting an entry of another key into one chain does not matter. -/
theorem insert_left (h : AgreesOn k c d) {e : ε} (he : (Entry.key e == k) = false) :
    AgreesOn k (c.insert e).2 d :=
  Related.insert_left h fun _ _ hfg => hfg.insert_left he

/-- Inserting an entry of another key by index into one chain does not matter. -/
theorem insertAt_left (h : AgreesOn k c d) {e : ε} (he : (Entry.key e == k) = false) (i : Nat) :
    AgreesOn k (c.insertAt i e).2 d :=
  Related.insertAt_left h (fun _ _ hfg => hfg.insert_left he) i

/-- Erasing another key from one chain does not matter. -/
theorem erase_left (h : AgreesOn k c d) {k' : κ} (hk : (k' == k) = false) :
    AgreesOn k (c.erase k').2 d :=
  Related.changeBelow_left h (fun _ _ _ hfg => hfg.erase?_left hk) _

/-- Erasing another key from the current frame of one chain does not matter. -/
theorem eraseLocal_left (h : AgreesOn k c d) {k' : κ} (hk : (k' == k) = false) :
    AgreesOn k (c.eraseLocal k').2 d :=
  Related.eraseLocal_left h fun _ _ _ hfg => hfg.erase?_left hk

omit [EquivBEq κ] in
/-- Chains that agree on a key hold the same under it in every frame. -/
theorem held (h : AgreesOn k c d) (i : Nat) :
    (c.stack.frame? i).map (fun frame => frame.find? k) =
      (d.stack.frame? i).map fun frame => frame.find? k := by
  rcases optionRel_cases (h.stack.frame? i) with ⟨hs, ht⟩ | ⟨f, g, hs, ht, hfg⟩
  · rw [hs, ht]
  · rw [hs, ht]
    exact congrArg some hfg.2

end Entries

/-! ## Assigning -/

variable [BEq ν] {c d : Bindings κ ν}

/-- Assigning to the key below an index answers the same, and the chains still agree. -/
theorem modifyBelow (h : AgreesOn k c d) {k' : κ} (hk : (k' == k) = true) (x : Nat)
    (change : ν → ν) :
    (c.modifyBelow x k' change).1 = (d.modifyBelow x k' change).1 ∧
      AgreesOn k (c.modifyBelow x k' change).2 (d.modifyBelow x k' change).2 := by
  obtain ⟨hanswer, hafter⟩ := Related.changeBelow (A := Eq) h
    (fun f g (hfg : f.AgreesOn k g) => hfg.modify? hk change) x
  exact ⟨congrArg (Except.map Binding.value) (outcomeRel_eq_iff.mp hanswer), hafter⟩

/-- Assigning to another key in one chain does not matter. -/
theorem modifyBelow_left (h : AgreesOn k c d) {k' : κ} (hk : (k' == k) = false) (x : Nat)
    (change : ν → ν) : AgreesOn k (c.modifyBelow x k' change).2 d :=
  Related.changeBelow_left h (fun _ _ _ hfg => hfg.modify?_left hk) x

/-- Assigning to the key answers the same, and the chains still agree. -/
theorem modify (h : AgreesOn k c d) {k' : κ} (hk : (k' == k) = true) (change : ν → ν) :
    (c.modify k' change).1 = (d.modify k' change).1 ∧
      AgreesOn k (c.modify k' change).2 (d.modify k' change).2 := by
  rw [Bindings.modify, Bindings.modify, h.depth]
  exact h.modifyBelow hk _ change

end AgreesOn
end Chain

/-! ## Single requests -/

section Fulfilling

variable [EquivBEq κ] {k : κ}

/-- A request about the key acts alike on chains that agree on it. -/
theorem BindingRequest.fulfil_of_concerns [BEq ν] [Ord κ] {request : BindingRequest κ ν}
    (hrequest : request.concerns k = true) {c d : Bindings κ ν} (h : c.AgreesOn k d) :
    (request.fulfil c).1 = (request.fulfil d).1 ∧
      Chain.AgreesOn k (request.fulfil c).2 (request.fulfil d).2 := by
  cases request with
  | declare key value =>
      rcases h.insert (e := ⟨key, value⟩) hrequest with ⟨hanswer, hafter⟩
      exact ⟨by simp [fulfil, Bindings.declare, hanswer], hafter⟩
  | declareAt index key value =>
      rcases h.insertAt (e := ⟨key, value⟩) hrequest index with ⟨hanswer, hafter⟩
      exact ⟨by simp [fulfil, Bindings.declareAt, hanswer], hafter⟩
  | get key => exact ⟨by simp [fulfil, Bindings.get, h.lookup hrequest], h⟩
  | getBelow index key =>
      exact ⟨by simp [fulfil, Bindings.getBelow, h.lookupBelow hrequest], h⟩
  | overwrite key value =>
      rcases h.modify hrequest fun _ => value with ⟨hanswer, hafter⟩
      exact ⟨by simp [fulfil, hanswer], hafter⟩
  | overwriteBelow index key value =>
      rcases h.modifyBelow hrequest index fun _ => value with ⟨hanswer, hafter⟩
      exact ⟨by simp [fulfil, hanswer], hafter⟩
  | assign key value =>
      rcases h.modify hrequest fun _ => value with ⟨hanswer, hafter⟩
      exact ⟨by simp [fulfil, Bindings.assign, hanswer], hafter⟩
  | has key => exact ⟨by simp [fulfil, h.has (Chain.AgreesOn.find? hrequest)], h⟩
  | hasLocal key => exact ⟨by simp [fulfil, h.hasLocal (Chain.AgreesOn.find? hrequest)], h⟩
  | hasAt index key => exact ⟨by simp [fulfil, h.hasAt (Chain.AgreesOn.find? hrequest)], h⟩
  | resolve key => exact ⟨by simp [fulfil, h.resolve (Chain.AgreesOn.find? hrequest)], h⟩
  | delete key =>
      rcases h.erase hrequest with ⟨hanswer, hafter⟩
      exact ⟨by simp [fulfil, Bindings.delete, hanswer], hafter⟩
  | deleteLocal key =>
      rcases h.eraseLocal hrequest with ⟨hanswer, hafter⟩
      exact ⟨by simp [fulfil, Bindings.deleteLocal, hanswer], hafter⟩
  | demand key =>
      have hget : c.get key = d.get key := by simp [Bindings.get, h.lookup hrequest]
      simp only [fulfil, hget]
      cases d.get key <;> exact ⟨rfl, h⟩
  | keys => cases hrequest

/-- A request about another key is answered and does not disturb the agreement on the key. -/
theorem BindingRequest.fulfil_of_not_concerns [BEq ν] [Ord κ] {request : BindingRequest κ ν}
    (hconfined : request.Confined k) (hrequest : request.concerns k = false) {c d : Bindings κ ν}
    (h : c.AgreesOn k d) :
    (∃ answer, (request.fulfil c).1 = .ok answer) ∧ Chain.AgreesOn k (request.fulfil c).2 d := by
  cases request with
  | declare key value => exact ⟨⟨_, rfl⟩, h.insert_left (e := ⟨key, value⟩) hrequest⟩
  | declareAt index key value =>
      exact ⟨⟨_, rfl⟩, h.insertAt_left (e := ⟨key, value⟩) hrequest index⟩
  | overwrite key value => exact ⟨⟨_, rfl⟩, h.modifyBelow_left hrequest _ _⟩
  | overwriteBelow index key value => exact ⟨⟨_, rfl⟩, h.modifyBelow_left hrequest index _⟩
  | assign key value => exact ⟨⟨_, rfl⟩, h.modifyBelow_left hrequest _ _⟩
  | delete key => exact ⟨⟨_, rfl⟩, h.erase_left hrequest⟩
  | deleteLocal key => exact ⟨⟨_, rfl⟩, h.eraseLocal_left hrequest⟩
  | demand key =>
      simp only [Confined] at hconfined
      simp only [concerns, hconfined] at hrequest
      cases hrequest
  | keys => cases hconfined
  | get | getBelow | has | hasLocal | hasAt | resolve => exact ⟨⟨_, rfl⟩, h⟩

/-- A request about the key acts alike on chains that agree on it. -/
theorem NameRequest.fulfil_of_concerns {request : NameRequest κ}
    (hrequest : request.concerns k = true) {c d : Names κ} (h : c.AgreesOn k d) :
    (request.fulfil c).1 = (request.fulfil d).1 ∧
      Chain.AgreesOn k (request.fulfil c).2 (request.fulfil d).2 := by
  cases request with
  | add key =>
      rcases h.insert (e := ⟨key⟩) hrequest with ⟨hanswer, hafter⟩
      exact ⟨by simp [fulfil, Names.add, hanswer], hafter⟩
  | addAt index key =>
      rcases h.insertAt (e := ⟨key⟩) hrequest index with ⟨hanswer, hafter⟩
      exact ⟨by simp [fulfil, Names.addAt, hanswer], hafter⟩
  | get key => exact ⟨by simp [fulfil, Names.get, h.lookup hrequest], h⟩
  | has key => exact ⟨by simp [fulfil, h.has (Chain.AgreesOn.find? hrequest)], h⟩
  | hasLocal key => exact ⟨by simp [fulfil, h.hasLocal (Chain.AgreesOn.find? hrequest)], h⟩
  | hasAt index key => exact ⟨by simp [fulfil, h.hasAt (Chain.AgreesOn.find? hrequest)], h⟩
  | resolve key => exact ⟨by simp [fulfil, h.resolve (Chain.AgreesOn.find? hrequest)], h⟩
  | delete key =>
      rcases h.erase hrequest with ⟨hanswer, hafter⟩
      exact ⟨by simp [fulfil, Names.delete, hanswer], hafter⟩
  | deleteLocal key =>
      rcases h.eraseLocal hrequest with ⟨hanswer, hafter⟩
      exact ⟨by simp [fulfil, Names.deleteLocal, hanswer], hafter⟩

/-- A request about another key is answered and does not disturb the agreement on the key. -/
theorem NameRequest.fulfil_of_not_concerns {request : NameRequest κ}
    (hrequest : request.concerns k = false) {c d : Names κ} (h : c.AgreesOn k d) :
    (∃ answer, (request.fulfil c).1 = .ok answer) ∧ Chain.AgreesOn k (request.fulfil c).2 d := by
  cases request with
  | add key => exact ⟨⟨_, rfl⟩, h.insert_left (e := ⟨key⟩) hrequest⟩
  | addAt index key => exact ⟨⟨_, rfl⟩, h.insertAt_left (e := ⟨key⟩) hrequest index⟩
  | delete key => exact ⟨⟨_, rfl⟩, h.erase_left hrequest⟩
  | deleteLocal key => exact ⟨⟨_, rfl⟩, h.eraseLocal_left hrequest⟩
  | get | has | hasLocal | hasAt | resolve => exact ⟨⟨_, rfl⟩, h⟩

end Fulfilling

/-! ## Programs -/

namespace Correspondence

variable [Entry ε κ] [EquivBEq κ] [Ord κ] {k : κ} {concerns : ι → Bool} {permitted : ι → Prop}
  {dialect : Dialect ε ι ρ}

/-- What has to be shown of a dialect is only how it fulfils single requests. -/
theorem sound_forKey
    (hconcerned : ∀ request, concerns request = true → ∀ {c d : Chain ε}, c.AgreesOn k d →
      (dialect.fulfil request c).1 = (dialect.fulfil request d).1 ∧
        Chain.AgreesOn k (dialect.fulfil request c).2 (dialect.fulfil request d).2)
    (hother : ∀ request, permitted request → concerns request = false → ∀ {c d : Chain ε},
      c.AgreesOn k d → (∃ answer, (dialect.fulfil request c).1 = .ok answer) ∧
        Chain.AgreesOn k (dialect.fulfil request c).2 d) :
    (forKey (ε := ε) concerns permitted k).Sound dialect dialect where
  label_unchosen := by
    rintro h _ rfl
    rfl
  label_withMark := by
    rintro h _ mark _ rfl rfl
    rfl
  label_frame := fun hfg => hfg.1
  frame_empty := by
    rintro h _ rfl
    exact ⟨rfl, rfl⟩
  frame_ofList := by
    rintro h _ entries _ rfl rfl
    exact Frame.AgreesOn.ofList_filter h entries
  request := by
    rintro request _ c d ⟨rfl, -, hrequest⟩ hcd
    rcases hconcerned _ hrequest hcd with ⟨hanswer, hafter⟩
    exact ⟨outcomeRel_eq_iff.mpr hanswer, hafter⟩
  dropped := fun hrequest hcd => hother _ hrequest.1 hrequest.2 hcd
  equal := fun hfalse => hfalse.elim
  look := fun hfalse => hfalse.elim

omit [EquivBEq κ] [Ord κ] in
/-- What is left of a program for one key are its requests about that key. -/
theorem translates_forKey :
    (forKey (ρ := ρ) concerns permitted k : Correspondence ε ι ρ ε ι ρ).Translates
      (fun entries => entries.filter fun e => Entry.key e == k)
      (fun request => if concerns request then some request else none) permitted False where
  mark := fun _ => rfl
  entries := fun _ => rfl
  kept := by
    intro request request' hpermitted heq
    cases hconcerns : concerns request with
    | false =>
        rw [hconcerns] at heq
        cases heq
    | true =>
        rw [hconcerns, if_pos rfl, Option.some.injEq] at heq
        refine ⟨⟨heq.symm, hpermitted, hconcerns⟩, fun hdropped => ?_⟩
        rw [hdropped.2] at hconcerns
        cases hconcerns
  omitted := by
    intro request hpermitted heq
    cases hconcerns : concerns request with
    | false => exact ⟨hpermitted, hconcerns⟩
    | true =>
        rw [hconcerns] at heq
        cases heq
  comparable := False.elim
  look := False.elim

end Correspondence

namespace Session

/-- Two runs of which the second one is left of the first for one key. -/
structure SameForKey [Entry ε κ] (concerns : ι → Bool) (permitted : ι → Prop) (k : κ)
    (program : List (Command ε ι)) (whole part : List (Report ε ρ) × Session ε) : Prop where
  /-- Step by step, the commands that are left have the same answers, depths and events. -/
  reports : (Correspondence.forKey concerns permitted k).Reports program whole.1 part.1
  depth : whole.2.chain.depth = part.2.chain.depth
  /-- In the end, frames with the same index hold the same under the key. -/
  held : ∀ i, (whole.2.chain.stack.frame? i).map (fun frame => frame.find? k) =
    (part.2.chain.stack.frame? i).map fun frame => frame.find? k

/-- If the requests about a key do not notice others, neither do whole programs. -/
theorem sameForKey_run [Entry ε κ] [EquivBEq κ] [Ord κ] {k : κ} {concerns : ι → Bool}
    {permitted : ι → Prop} {dialect : Dialect ε ι ρ}
    (hsound : (Correspondence.forKey (ε := ε) concerns permitted k).Sound dialect dialect)
    (hasher : Hasher) (init : Start ε) (program : List (Command ε ι))
    (hprogram : Command.AllWithin permitted False program) :
    SameForKey concerns permitted k program (run dialect program (start hasher init))
      (run dialect (Command.forKey concerns k program) (start hasher (init.forKey k))) := by
  have htranslates :
      (Correspondence.forKey concerns permitted k : Correspondence ε ι ρ ε ι ρ).Translates
        (fun entries => entries.filter fun e => Entry.key e == k)
        (fun request => if concerns request then some request else none) permitted False :=
    Correspondence.translates_forKey
  have hstart : Related Eq (Frame.AgreesOn k) (start hasher init) (start hasher (init.forKey k)) :=
    ⟨rfl, hsound.related_start (Correspondence.starts_translate htranslates init) rfl, .nil, .none,
      rfl⟩
  have hmatches : (Correspondence.forKey (ρ := ρ) concerns permitted k).MatchesAll program
      (Command.forKey concerns k program) :=
    Correspondence.matchesAll_translate htranslates program hprogram
  rcases hsound.run hmatches (hstart.withLog rfl) with ⟨hreports, hlast⟩
  exact ⟨hreports, hlast.chain.depth, Chain.AgreesOn.held hlast.chain⟩

/--
Take a program of requests about single keys, of pushes, pops, scopes and rounds, and of
saving and restoring.  Without the requests about other keys, and without the entries of
other keys, it is answered as before, with the same depths and events, and in the end
every frame holds the same under the key.
-/
theorem key_independence [EquivBEq κ] [Ord κ] [Display κ] [BEq ν] [Display ν] (k : κ)
    (hasher : Hasher) :
    (∀ (init : Start (Binding κ ν)) (program : List (Command (Binding κ ν) (BindingRequest κ ν))),
      Command.AllWithin (BindingRequest.Confined k) False program →
      SameForKey (BindingRequest.concerns k) (BindingRequest.Confined k) k program
        (run BindingRequest.dialect program (start hasher init))
        (run BindingRequest.dialect (Command.forKey (BindingRequest.concerns k) k program)
          (start hasher (init.forKey k)))) ∧
    (∀ (init : Start (Member κ)) (program : List (Command (Member κ) (NameRequest κ))),
      Command.AllWithin (fun _ => True) False program →
      SameForKey (NameRequest.concerns k) (fun _ => True) k program
        (run NameRequest.dialect program (start hasher init))
        (run NameRequest.dialect (Command.forKey (NameRequest.concerns k) k program)
          (start hasher (init.forKey k)))) := by
  have hbindings : (Correspondence.forKey (BindingRequest.concerns k) (BindingRequest.Confined k)
      k).Sound (BindingRequest.dialect : Dialect (Binding κ ν) _ _) BindingRequest.dialect :=
    Correspondence.sound_forKey
      (fun _ hrequest _ _ hcd => BindingRequest.fulfil_of_concerns hrequest hcd)
      (fun _ hconfined hrequest _ _ hcd =>
        BindingRequest.fulfil_of_not_concerns hconfined hrequest hcd)
  have hnames : (Correspondence.forKey (NameRequest.concerns k) (fun _ => True) k).Sound
      (NameRequest.dialect : Dialect (Member κ) _ _) NameRequest.dialect :=
    Correspondence.sound_forKey
      (fun _ hrequest _ _ hcd => NameRequest.fulfil_of_concerns hrequest hcd)
      (fun _ _ hrequest _ _ hcd => NameRequest.fulfil_of_not_concerns hrequest hcd)
  exact ⟨sameForKey_run hbindings hasher, sameForKey_run hnames hasher⟩

/-- Of this program two requests, one root entry and one entry of a frame concern another key. -/
theorem key_independence_nested :
    let init : Start (Binding Int64 Value) := .seeded [⟨1, .null⟩, ⟨2, .nan⟩]
    let program : List (Command (Binding Int64 Value) (BindingRequest Int64 Value)) :=
      [.keyed (.delete 2), .pushFrame [⟨2, .null⟩, ⟨1, .nan⟩] none,
        .scope [.keyed (.assign 2 .nan), .keyed (.assign 1 (.bool true)), .pop, .pop],
        .pushPopped, .keyed (.demand 1)]
    let part : List (Command (Binding Int64 Value) (BindingRequest Int64 Value)) :=
      [.pushFrame [⟨1, .nan⟩] none, .scope [.keyed (.assign 1 (.bool true)), .pop, .pop],
        .pushPopped, .keyed (.demand 1)]
    Command.AllWithin (BindingRequest.Confined 1) False program ∧
      SameForKey (BindingRequest.concerns 1) (BindingRequest.Confined 1) 1 program
        (run BindingRequest.dialect program (start .standard init))
        (run BindingRequest.dialect part (start .standard (.seeded [⟨1, .null⟩]))) := by
  intro init program part
  have hprogram : Command.AllWithin (BindingRequest.Confined 1) False program := by
    simp [program, Command.AllWithin, Command.Within, BindingRequest.Confined]
  exact ⟨hprogram, (key_independence 1 .standard).1 init program hprogram⟩

end Session
end LexicalScope
