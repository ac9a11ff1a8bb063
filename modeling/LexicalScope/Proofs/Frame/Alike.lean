import Mathlib.Data.List.Perm.Subperm
import LexicalScope.Chain.Bindings
import LexicalScope.Chain.Names
import LexicalScope.Proofs.Frame.Agree

/-!
# Frames that hold alike entries

Two frames are alike if under every key both hold nothing or both hold entries that are
related, whatever relation of entries is meant; how the keys are spelled and in which
order the entries came in does not matter.  Whatever is done to both frames, they are
alike afterwards, and what is answered is related, as long as the relation goes along with
putting one entry over another.

Equality of frames is the case where the entries have equal keys and agree.

Main results:

- Theorem {lit}`Frame.Alike.matched`: frames are alike if and only if their entries are, one by
  one, in some order.
- Theorems {lit}`Frame.Alike.insert`, {lit}`Frame.Alike.erase?` and {lit}`Frame.Alike.modify?`:
  what operations do to frames that are alike.
- Theorem {lit}`Frame.beq_iff_alike`: two frames are equal if and only if they are alike.
-/

namespace LexicalScope

variable {ε κ ν : Type} [BEq κ]

/-! ## Relations of entries -/

namespace Entry

variable [Entry ε κ]

/-- The entries have equal keys and hold the same. -/
structure Equal (a b : ε) : Prop where
  key : (Entry.key a == Entry.key b) = true
  agree : Entry.agree a b = true

/-- The entries have equal keys and are related. -/
structure Matched (R : ε → ε → Prop) (a b : ε) : Prop where
  key : (Entry.key a == Entry.key b) = true
  related : R a b

/-- Putting related entries over related ones gives related ones. -/
def Replaces (R : ε → ε → Prop) : Prop :=
  ∀ stored stored' new new' : ε, R stored stored' → R new new' →
    R (Entry.replace stored new) (Entry.replace stored' new')

end Entry

namespace Frame

variable [Entry ε κ]

/-- The frames have related hashers, and under every key they hold related entries. -/
structure Alike (L : Hasher → Hasher → Prop) (R : ε → ε → Prop) (f g : Frame ε) : Prop where
  label : L f.hasher g.hasher
  find? : ∀ k, Option.Rel R (f.find? k) (g.find? k)

variable {L : Hasher → Hasher → Prop} {R : ε → ε → Prop} {f g : Frame ε}

theorem Alike.refl (hL : ∀ h, L h h) (hR : ∀ e, R e e) (f : Frame ε) : Alike L R f f :=
  ⟨hL _, fun _ => optionRel_refl hR _⟩

/-- Being alike is symmetric if the relations of hashers and entries are. -/
theorem Alike.symm (hL : ∀ h h', L h h' → L h' h) (hR : ∀ a b, R a b → R b a)
    (h : Alike L R f g) : Alike L R g f :=
  ⟨hL _ _ h.label, fun k => optionRel_symm hR (h.find? k)⟩

theorem Alike.trans (hL : ∀ h h' h'', L h h' → L h' h'' → L h h'')
    (hR : ∀ a b c, R a b → R b c → R a c) {f' : Frame ε} (h : Alike L R f g)
    (h' : Alike L R g f') : Alike L R f f' :=
  ⟨hL _ _ _ h.label h'.label, fun k => optionRel_trans hR (h.find? k) (h'.find? k)⟩

/-! ## What alike frames hold -/

/-- The entries of a frame under the keys of another one, in the order of the latter. -/
def partners (f g : Frame ε) : List ε :=
  g.entries.filterMap fun e => f.find? (Entry.key e)

/-- What is found in a frame is one of its entries. -/
theorem mem_entries_of_find? {k : κ} {e : ε} (h : f.find? k = some e) : e ∈ f.entries :=
  List.mem_of_find?_eq_some h

variable [EquivBEq κ]

/-- Under equal keys a frame finds the same entry. -/
theorem find?_of_key_beq {e : ε} {k : κ} (he : e ∈ f.entries) (hk : (Entry.key e == k) = true) :
    f.find? k = some e := by
  rw [← f.find?_congr hk, f.find?_key_of_mem he]

/-- No entry is the partner of two entries of the other frame. -/
theorem nodup_partners (f g : Frame ε) : (partners f g).Nodup := by
  have hdistinct : (partners f g).Pairwise fun a b => (Entry.key a == Entry.key b) = false := by
    apply (List.pairwise_map.mp g.distinct).filterMap
    intro a a' haa' b hb b' hb'
    have hkey : (Entry.key b == Entry.key a) = true := key_beq_of_find? hb
    have hkey' : (Entry.key b' == Entry.key a') = true := key_beq_of_find? hb'
    rw [BEq.congr_left hkey, BEq.congr_right hkey', haa']
  exact Entry.nodup_of_distinct (List.pairwise_map.mpr hdistinct)

/-- Alike frames have the same entries, one by one, in some order. -/
theorem Alike.matched (h : Alike L R f g) :
    ∃ entries, f.entries.Perm entries ∧ List.Forall₂ (Entry.Matched R) entries g.entries := by
  refine ⟨partners f g, ?_, ?_⟩
  · apply (List.perm_ext_iff_of_nodup (Entry.nodup_of_distinct f.distinct) (nodup_partners f g)).mpr
    intro e
    rw [partners, List.mem_filterMap]
    constructor
    · intro he
      have hheld := h.find? (Entry.key e)
      rw [f.find?_key_of_mem he] at hheld
      rcases optionRel_cases hheld with ⟨hnone, -⟩ | ⟨_, e', -, he', -⟩
      · cases hnone
      · have hkey : (Entry.key e' == Entry.key e) = true := key_beq_of_find? he'
        exact ⟨e', mem_entries_of_find? he', by rw [f.find?_congr hkey, f.find?_key_of_mem he]⟩
    · rintro ⟨e', -, hfind⟩
      exact mem_entries_of_find? hfind
  · rw [partners]
    have hmem : ∀ e ∈ g.entries, ∃ e', f.find? (Entry.key e) = some e' ∧ Entry.Matched R e' e := by
      intro e he
      have hheld := h.find? (Entry.key e)
      rw [g.find?_key_of_mem he] at hheld
      rcases optionRel_cases hheld with ⟨-, hnone⟩ | ⟨e', _, hfind, hsome, hrel⟩
      · cases hnone
      · rw [Option.some.injEq] at hsome
        subst hsome
        exact ⟨e', hfind, key_beq_of_find? hfind, hrel⟩
    generalize g.entries = entries at hmem
    induction entries with
    | nil => exact .nil
    | cons e entries ih =>
        rcases hmem e List.mem_cons_self with ⟨e', hfind, hmatched⟩
        rw [List.filterMap_cons, hfind]
        exact .cons hmatched (ih fun e he => hmem e (List.mem_cons_of_mem _ he))

/-- Frames with the same entries, one by one, in some order are alike. -/
theorem Alike.of_matched (hlabel : L f.hasher g.hasher) {entries : List ε}
    (hperm : f.entries.Perm entries) (h : List.Forall₂ (Entry.Matched R) entries g.entries) :
    Alike L R f g := by
  refine ⟨hlabel, fun k => ?_⟩
  cases hf : f.find? k with
  | some e =>
      have hkey : (Entry.key e == k) = true := key_beq_of_find? hf
      rcases exists_of_mem_left h (hperm.mem_iff.mp (mem_entries_of_find? hf)) with
        ⟨e', hmem, hmatched⟩
      rw [find?_of_key_beq hmem (BEq.trans (BEq.symm hmatched.key) hkey)]
      exact .some hmatched.related
  | none =>
      cases hg : g.find? k with
      | none => exact .none
      | some e' =>
          have hkey' : (Entry.key e' == k) = true := key_beq_of_find? hg
          rcases exists_of_mem_left h.flip (mem_entries_of_find? hg) with ⟨e, hmem, hmatched⟩
          rw [find?_of_key_beq (hperm.mem_iff.mpr hmem) (BEq.trans hmatched.key hkey')] at hf
          cases hf

/-- Frames that are alike have equally many entries. -/
theorem Alike.size (h : Alike L R f g) : f.size = g.size := by
  rcases h.matched with ⟨entries, hperm, hmatched⟩
  rw [Frame.size, Frame.size, hperm.length_eq, hmatched.length_eq]

/-! ## Operations on alike frames -/

omit [EquivBEq κ] in
/-- Empty frames are alike if their hashers are related. -/
theorem Alike.empty {h h' : Hasher} (hh : L h h') :
    Alike L R (.empty h : Frame ε) (.empty h') :=
  ⟨hh, fun _ => .none⟩

/-- Frames stay alike if matching entries are inserted, and answer related entries. -/
theorem Alike.insert (hR : Entry.Replaces R) (h : Alike L R f g) {e e' : ε}
    (he : Entry.Matched R e e') :
    Option.Rel R (f.insert e).1 (g.insert e').1 ∧ Alike L R (f.insert e).2 (g.insert e').2 := by
  have hheld : Option.Rel R (f.find? (Entry.key e)) (g.find? (Entry.key e')) := by
    rw [← g.find?_congr he.key]
    exact h.find? _
  refine ⟨hheld, h.label, fun k => ?_⟩
  cases hk : Entry.key e == k with
  | true =>
      have hk' : (Entry.key e' == k) = true := by rw [← BEq.congr_left he.key, hk]
      rw [← Frame.find?_congr _ hk, ← Frame.find?_congr _ hk', find?_insert_self, find?_insert_self]
      rcases optionRel_cases hheld with ⟨hf, hg⟩ | ⟨stored, stored', hf, hg, hstored⟩
      · rw [hf, hg]
        exact .some he.related
      · rw [hf, hg]
        exact .some (hR _ _ _ _ hstored he.related)
  | false =>
      have hk' : (Entry.key e' == k) = false := by rw [← BEq.congr_left he.key, hk]
      rw [find?_insert_of_ne _ _ hk, find?_insert_of_ne _ _ hk']
      exact h.find? k

/-- Frames stay alike if the same key is erased, and answer related entries. -/
theorem Alike.erase? (h : Alike L R f g) (k : κ) :
    Option.Rel (fun a b => R a.1 b.1 ∧ Alike L R a.2 b.2) (f.erase? k) (g.erase? k) := by
  have hheld := h.find? k
  rw [← map_fst_erase?, ← map_fst_erase?] at hheld
  cases hf : f.erase? k with
  | none =>
      rw [hf] at hheld
      rcases optionRel_cases hheld with ⟨-, hg⟩ | ⟨_, _, hsome, -⟩
      · rw [Option.map_eq_none_iff.mp hg]
        exact .none
      · cases hsome
  | some a =>
      rw [hf] at hheld
      rcases optionRel_cases hheld with ⟨hnone, -⟩ | ⟨x, y, hx, hy, hxy⟩
      · cases hnone
      · rw [Option.map_some, Option.some.injEq] at hx
        rcases Option.map_eq_some_iff.mp hy with ⟨b, hg, rfl⟩
        subst hx
        rw [hg]
        refine .some ⟨hxy, ?_, fun k' => ?_⟩
        · rw [hasher_of_erase? hf, hasher_of_erase? hg]
          exact h.label
        · cases hk : k == k' with
          | true =>
              rw [← Frame.find?_congr _ hk, ← Frame.find?_congr _ hk, find?_of_erase? hf,
                find?_of_erase? hg]
              exact .none
          | false =>
              rw [find?_of_erase?_of_ne hf hk, find?_of_erase?_of_ne hg hk]
              exact h.find? k'

/-- Frames that are made of matching entries in the same order are alike. -/
theorem Alike.ofList (hR : Entry.Replaces R) {h h' : Hasher} (hh : L h h') {es es' : List ε}
    (hes : List.Forall₂ (Entry.Matched R) es es') : Alike L R (ofList h es) (ofList h' es') := by
  have hinsert : ∀ f g : Frame ε, Alike L R f g → ∀ e e', Entry.Matched R e e' →
      Alike L R (f.insert e).2 (g.insert e').2 := fun _ _ hfg _ _ he => (hfg.insert hR he).2
  exact List.rel_foldl hinsert (.empty hh) hes

/-! ## Equality -/

omit [EquivBEq κ] in
/-- Equality compares the sizes, and then looks the entries of the first frame up in the second. -/
theorem beq_eq_true_iff : (f == g) = true ↔ f.size = g.size ∧
    ∀ e ∈ f.entries, (g.find? (Entry.key e)).any (Entry.agree e) = true := by
  change (f.size == g.size &&
    f.entries.all fun e => (g.find? (Entry.key e)).any (Entry.agree e)) = true ↔ _
  rw [Bool.and_eq_true, beq_iff_eq, List.all_eq_true]

/-- Equal frames have their entries in pairs. -/
theorem perm_partners_of_beq (h : (f == g) = true) : (partners g f).Perm g.entries := by
  rcases beq_eq_true_iff.mp h with ⟨hsize, hall⟩
  -- Every entry of the first frame has a partner, so there are as many as it has entries.
  have hlength : (partners g f).length = f.entries.length := by
    rw [partners]
    generalize f.entries = entries at hall
    induction entries with
    | nil => rfl
    | cons e entries ih =>
        rcases (Option.any_eq_true _ _).mp (hall e List.mem_cons_self) with ⟨e', hfind, -⟩
        rw [List.filterMap_cons, hfind, List.length_cons, List.length_cons,
          ih fun e he => hall e (List.mem_cons_of_mem _ he)]
  have hsub : partners g f ⊆ g.entries := by
    intro e he
    rcases List.mem_filterMap.mp he with ⟨e', -, hfind⟩
    exact mem_entries_of_find? hfind
  apply (List.subperm_of_subset (nodup_partners g f) hsub).perm_of_length_le
  rw [hlength]
  exact Nat.le_of_eq hsize.symm

/-- Two frames are equal if and only if under every key they hold entries that are equal. -/
theorem beq_iff_alike : (f == g) = true ↔ Alike (fun _ _ => True) Entry.Equal f g := by
  constructor
  · intro h
    have hperm := perm_partners_of_beq h
    have hall := (beq_eq_true_iff.mp h).2
    refine ⟨trivial, fun k => ?_⟩
    cases hf : f.find? k with
    | some e =>
        have hkey : (Entry.key e == k) = true := key_beq_of_find? hf
        rcases (Option.any_eq_true _ _).mp (hall e (mem_entries_of_find? hf)) with
          ⟨e', hfind, hagree⟩
        rw [← g.find?_congr hkey, hfind]
        have hkey' : (Entry.key e' == Entry.key e) = true := key_beq_of_find? hfind
        exact .some ⟨BEq.symm hkey', hagree⟩
    | none =>
        cases hg : g.find? k with
        | none => exact .none
        | some e' =>
            -- This entry is the partner of one of the first frame, which then holds the key.
            have hmem := hperm.mem_iff.mpr (mem_entries_of_find? hg)
            rcases List.mem_filterMap.mp hmem with ⟨e, he, hfind⟩
            have hkey : (Entry.key e' == Entry.key e) = true := key_beq_of_find? hfind
            have hkey' : (Entry.key e' == k) = true := key_beq_of_find? hg
            rw [find?_of_key_beq he (BEq.trans (BEq.symm hkey) hkey')] at hf
            cases hf
  · intro h
    refine beq_eq_true_iff.mpr ⟨h.size, fun e he => ?_⟩
    have hheld := h.find? (Entry.key e)
    rw [f.find?_key_of_mem he] at hheld
    rcases optionRel_cases hheld with ⟨hnone, -⟩ | ⟨_, e', hsome, hfind, hequal⟩
    · cases hnone
    · rw [Option.some.injEq] at hsome
      subst hsome
      rw [hfind]
      exact hequal.agree

/-- Equality of frames is symmetric and transitive if agreement of entries is. -/
theorem partialEquivBEq (hsymm : ∀ a b : ε, Entry.agree a b = true → Entry.agree b a = true)
    (htrans : ∀ a b c : ε, Entry.agree a b = true → Entry.agree b c = true →
      Entry.agree a c = true) : PartialEquivBEq (Frame ε) where
  symm h := by
    rw [beq_iff_alike] at h ⊢
    exact h.symm (fun _ _ _ => trivial) fun a b hab => ⟨BEq.symm hab.key, hsymm a b hab.agree⟩
  trans h h' := by
    rw [beq_iff_alike] at h h' ⊢
    exact h.trans (fun _ _ _ _ _ => trivial)
      (fun a b c hab hbc => ⟨BEq.trans hab.key hbc.key, htrans a b c hab.agree hbc.agree⟩) h'

instance [BEq ν] [PartialEquivBEq ν] : PartialEquivBEq (Frame (Binding κ ν)) :=
  partialEquivBEq (fun _ _ => BEq.symm (α := ν)) fun _ _ _ => BEq.trans (α := ν)

instance : PartialEquivBEq (Frame (Member κ)) :=
  partialEquivBEq (fun _ _ _ => rfl) fun _ _ _ _ _ => rfl

end Frame

/-! ## Bindings and names -/

/-- The bindings have related keys and related values. -/
structure Binding.Like (K : κ → κ → Prop) (A : ν → ν → Prop) (a b : Binding κ ν) : Prop where
  key : K a.key b.key
  value : A a.value b.value

/-- The members have related keys. -/
def Member.Like (K : κ → κ → Prop) (a b : Member κ) : Prop :=
  K a.key b.key

/-- Equal bindings have equal keys and equal values. -/
theorem Binding.equal_eq_like [BEq ν] : (Entry.Equal : Binding κ ν → Binding κ ν → Prop) =
    Binding.Like (fun a b => (a == b) = true) fun v w => (v == w) = true := by
  funext a b
  exact propext ⟨fun h => ⟨h.key, h.agree⟩, fun h => ⟨h.key, h.value⟩⟩

/-- Equal members have equal keys. -/
theorem Member.equal_eq_like : (Entry.Equal : Member κ → Member κ → Prop) =
    Member.Like fun a b => (a == b) = true := by
  funext a b
  exact propext ⟨fun h => h.key, fun h => ⟨h, rfl⟩⟩

variable {L : Hasher → Hasher → Prop} {K : κ → κ → Prop} {A : ν → ν → Prop}

omit [BEq κ] in
/-- Likeness of bindings survives replacing: the keys stay and the values are new. -/
theorem Binding.replaces_like [BEq ν] : Entry.Replaces (Binding.Like K A) :=
  fun _ _ _ _ hstored hnew => ⟨hstored.key, hnew.value⟩

omit [BEq κ] in
/-- Likeness of names survives replacing, which changes nothing. -/
theorem Member.replaces_like : Entry.Replaces (Member.Like K) :=
  fun _ _ _ _ hstored _ => hstored

/-- Changing a value to the same in both frames keeps them alike. -/
theorem Frame.Alike.modify? [BEq ν] [EquivBEq κ] {f g : Frame (Binding κ ν)}
    (h : Alike L (Binding.Like K A) f g) (k : κ) {v : ν} (hv : A v v) :
    Option.Rel (fun a b => Binding.Like K A a.1 b.1 ∧ Alike L (Binding.Like K A) a.2 b.2)
      (f.modify? k fun _ => v) (g.modify? k fun _ => v) := by
  unfold Frame.modify?
  rcases optionRel_cases (h.find? k) with ⟨hf, hg⟩ | ⟨old, old', hf, hg, hold⟩
  · rw [hf, hg]
    exact .none
  · have hkey : (old.key == k) = true := Frame.key_beq_of_find? hf
    have hkey' : (old'.key == k) = true := Frame.key_beq_of_find? hg
    have hnew : Entry.Matched (Binding.Like K A) ⟨old.key, v⟩ ⟨old'.key, v⟩ :=
      ⟨BEq.trans hkey (BEq.symm hkey'), hold.key, hv⟩
    rw [hf, hg]
    exact .some ⟨hold, (h.insert Binding.replaces_like hnew).2⟩

end LexicalScope
