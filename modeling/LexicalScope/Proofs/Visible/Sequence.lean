import Mathlib.Data.List.TakeWhile
import LexicalScope.Chain.Bindings
import LexicalScope.Proofs.Visible.Firsts

/-!
# The visible walk over any sequence

The visible walk does not need a chain.  It takes any finite sequence of entries, however
often its keys are repeated, and shows those whose keys do not occur earlier in the
sequence.  A call for the next entry is a loop that reads one entry in each round and ends
with the first one whose key was not seen.  So the walk reads no further than it has to,
and the keys that were seen are those of the entries that were shown.

Main results:

- Theorem {lit}`Visible.firsts_eq_unrepeated`: showing the first entry of each key is leaving out
  each entry with the key of an earlier one.
- Theorem {lit}`Visible.rounds_iff_next`: a call for the next entry is a loop that ends in one way.
- Theorem {lit}`Visible.take_reads`: how far so many calls read.
- Theorem {lit}`Visible.walk_of_sequence`: all of this for every sequence.
-/

namespace LexicalScope
namespace Visible

variable {ε κ : Type} [Entry ε κ] [BEq κ]

/-! ## Entries without those repeated -/

/-- The entries with a key that is equal to the key of no earlier entry, in order. -/
def unrepeated (entries : List ε) : List ε :=
  (entries.zipIdx.filter fun p =>
    !(entries.take p.2).any fun earlier => Entry.key earlier == Entry.key p.1).map Prod.fst

/-- Whether the key of an entry is neither seen nor that of an entry before its place. -/
def isNewAt (seen : List κ) (entries : List ε) (p : ε × Nat) : Bool :=
  !isSeen seen p.1 && !(entries.take p.2).any fun earlier => Entry.key earlier == Entry.key p.1

/-- Behind an entry, what is new is what is new without it, unless it has the key of the entry. -/
theorem isNewAt_cons (seen : List κ) (entry : ε) (rest : List ε) (p : ε × Nat) :
    isNewAt seen (entry :: rest) (p.1, p.2 + 1) = isNewAt (Entry.key entry :: seen) rest p := by
  simp only [isNewAt, isSeen, List.take_succ_cons, List.any_cons, Bool.not_or]
  ac_rfl

/-- A key that was seen may be seen once more. -/
theorem isNewAt_of_isSeen [EquivBEq κ] {seen : List κ} {entry : ε}
    (h : isSeen seen entry = true) (rest : List ε) (p : ε × Nat) :
    isNewAt (Entry.key entry :: seen) rest p = isNewAt seen rest p := by
  have hsame : isSeen (Entry.key entry :: seen) p.1 = isSeen seen p.1 := by
    rw [isSeen, List.any_cons]
    cases hkey : Entry.key entry == Entry.key p.1 with
    | false => rfl
    | true => exact (any_of_isSeen h hkey).symm
  rw [isNewAt, isNewAt, hsame]

/-- What is shown are the entries that are new at their places. -/
theorem firsts_eq_filter [EquivBEq κ] (seen : List κ) (entries : List ε) :
    firsts seen entries = (entries.zipIdx.filter (isNewAt seen entries)).map Prod.fst := by
  induction entries generalizing seen with
  | nil => rfl
  | cons entry rest ih =>
      have hhead : isNewAt seen (entry :: rest) (entry, 0) = !isSeen seen entry := by
        simp [isNewAt]
      have htail : isNewAt seen (entry :: rest) ∘ Prod.map id (· + 1) =
          isNewAt (Entry.key entry :: seen) rest :=
        funext (isNewAt_cons seen entry rest)
      rw [firsts, List.zipIdx_cons', List.filter_cons, hhead, List.filter_map, htail]
      cases hseen : isSeen seen entry with
      | true =>
          rw [funext (isNewAt_of_isSeen hseen rest), ih seen]
          simp
      | false =>
          rw [ih (Entry.key entry :: seen)]
          simp

/-- Showing the first entry of each key is leaving out the repeated ones. -/
theorem firsts_eq_unrepeated [EquivBEq κ] (entries : List ε) :
    firsts [] entries = unrepeated entries :=
  firsts_eq_filter [] entries

/-! ## The loop of one call -/

/--
The rounds of a call for the next entry, in each of which one entry is read.  An entry with a
key that was seen is skipped, and the call is over with the first other one or with the end of
the sequence.  The call leaves what it has not read.
-/
inductive Rounds (seen : List κ) :
    (entries skipped : List ε) → Option ε → (left : List ε) → Prop where
  | ended : Rounds seen [] [] none []
  | shown {entry : ε} {rest : List ε} (hnew : isSeen seen entry = false) :
      Rounds seen (entry :: rest) [] (some entry) rest
  | skipped {entry : ε} {rest skipped left : List ε} {found : Option ε}
      (hseen : isSeen seen entry = true) (later : Rounds seen rest skipped found left) :
      Rounds seen (entry :: rest) (entry :: skipped) found left

namespace Rounds

variable {seen : List κ} {entries skipped left : List ε} {found : Option ε}

/-- Seen entries before the others are read in rounds of their own. -/
theorem append {run : List ε} (hrun : ∀ e ∈ run, isSeen seen e = true)
    (later : Rounds seen entries skipped found left) :
    Rounds seen (run ++ entries) (run ++ skipped) found left := by
  induction run with
  | nil => exact later
  | cons e run ih =>
      rw [List.forall_mem_cons] at hrun
      exact .skipped hrun.1 (ih hrun.2)

/-- The rounds of a call that ends within a run. -/
theorem of_dropWhile_eq_cons {run rest : List ε} {entry : ε}
    (h : run.dropWhile (isSeen seen) = entry :: rest) (later : List ε) :
    ∃ skipped, Rounds seen (run ++ later) skipped (some entry) (rest ++ later) := by
  have hnew : isSeen seen entry = false := by
    have hhead := List.head?_dropWhile_not (isSeen seen) run
    rw [h] at hhead
    simpa using hhead
  have hrun : run ++ later = run.takeWhile (isSeen seen) ++ entry :: (rest ++ later) := by
    rw [← List.cons_append, ← h, ← List.append_assoc, List.takeWhile_append_dropWhile]
  rw [hrun]
  exact ⟨_, append (fun _ => List.mem_takeWhile_imp) (.shown hnew)⟩

/-- What is read is what is skipped and then what is shown; if nothing is shown, nothing is left. -/
theorem split (h : Rounds seen entries skipped found left) :
    entries = skipped ++ found.toList ++ left ∧ (∀ e ∈ skipped, isSeen seen e = true) ∧
      (∀ e ∈ found, isSeen seen e = false) ∧ (found = none → left = []) := by
  induction h with
  | ended => exact ⟨rfl, nofun, nofun, fun _ => rfl⟩
  | shown hnew => exact ⟨rfl, nofun, by simpa using hnew, nofun⟩
  | skipped hseen later ih =>
      rcases ih with ⟨hentries, hskipped, hfound, hleft⟩
      refine ⟨?_, ?_, hfound, hleft⟩
      · rw [hentries]
        rfl
      · rw [List.forall_mem_cons]
        exact ⟨hseen, hskipped⟩

/-- The rounds of a call go one way only. -/
theorem unique {skipped' left' : List ε} {found' : Option ε}
    (h : Rounds seen entries skipped found left) (h' : Rounds seen entries skipped' found' left') :
    skipped' = skipped ∧ found' = found ∧ left' = left := by
  induction h generalizing skipped' with
  | ended =>
      cases h'
      exact ⟨rfl, rfl, rfl⟩
  | shown hnew =>
      cases h' with
      | shown => exact ⟨rfl, rfl, rfl⟩
      | skipped hseen => exact absurd (hseen.symm.trans hnew) nofun
  | skipped hseen _ ih =>
      cases h' with
      | shown hnew => exact absurd (hseen.symm.trans hnew) nofun
      | skipped _ later =>
          rcases ih later with ⟨rfl, hrest⟩
          exact ⟨rfl, hrest⟩

end Rounds

/-- The search for an unseen entry makes the rounds of the loop. -/
theorem rounds_firstUnseen (seen : List κ) (current : List ε) (pending : List (List ε)) :
    ∃ skipped, Rounds seen (current ++ pending.flatten) skipped
      ((firstUnseen seen current pending).map Prod.fst)
      (((firstUnseen seen current pending).map fun next => next.2.toList).getD []) := by
  induction pending generalizing current with
  | nil =>
      rw [firstUnseen]
      cases hdrop : current.dropWhile (isSeen seen) with
      | nil => exact ⟨_, .append (List.dropWhile_eq_nil_iff.mp hdrop) .ended⟩
      | cons entry rest => exact Rounds.of_dropWhile_eq_cons hdrop []
  | cons run pending ih =>
      rw [firstUnseen]
      cases hdrop : current.dropWhile (isSeen seen) with
      | nil =>
          rcases ih run with ⟨skipped, hlater⟩
          exact ⟨_, .append (List.dropWhile_eq_nil_iff.mp hdrop) hlater⟩
      | cons entry rest => exact Rounds.of_dropWhile_eq_cons hdrop (run :: pending).flatten

/-- A call for the next entry is a loop that ends, and it remembers the key of what it shows. -/
theorem next_rounds (v : Visible ε) :
    (∃ skipped, Rounds v.seen v.inner.toList skipped v.next.1 v.next.2.inner.toList) ∧
      v.next.2.seen = (v.next.1.map Entry.key).toList ++ v.seen := by
  have hrounds := rounds_firstUnseen v.seen v.inner.current v.inner.pending
  rw [next]
  cases hfound : firstUnseen v.seen v.inner.current v.inner.pending with
  | none =>
      rw [hfound] at hrounds
      exact ⟨hrounds, rfl⟩
  | some found =>
      rw [hfound] at hrounds
      exact ⟨hrounds, rfl⟩

/-- What the loop comes to, and nothing else, is what the call answers and leaves. -/
theorem rounds_iff_next (v : Visible ε) (found : Option ε) (left : List ε) :
    (∃ skipped, Rounds v.seen v.inner.toList skipped found left) ↔
      found = v.next.1 ∧ left = v.next.2.inner.toList := by
  rcases v.next_rounds.1 with ⟨skipped, hrounds⟩
  constructor
  · intro ⟨_, h⟩
    exact (hrounds.unique h).2
  · intro ⟨hfound, hleft⟩
    rw [hfound, hleft]
    exact ⟨skipped, hrounds⟩

/-! ## How far so many calls read -/

/-- Entries whose keys were seen are skipped at the beginning. -/
theorem firsts_append_of_isSeen {seen : List κ} {skipped : List ε}
    (h : ∀ e ∈ skipped, isSeen seen e = true) (rest : List ε) :
    firsts seen (skipped ++ rest) = firsts seen rest := by
  induction skipped with
  | nil => rfl
  | cons e skipped ih =>
      rw [List.forall_mem_cons] at h
      rw [List.cons_append, firsts, if_pos h.1, ih h.2]

/-- If all keys were seen, nothing is shown. -/
theorem firsts_of_isSeen {seen : List κ} {skipped : List ε}
    (h : ∀ e ∈ skipped, isSeen seen e = true) : firsts seen skipped = [] := by
  have hnone := firsts_append_of_isSeen h []
  rw [List.append_nil] at hnone
  exact hnone

/--
So many calls have shown the first entries and left the rest.  They have read no further than to the
last entry that they show, or to the end if there are fewer entries to show.
-/
def Reads (shows : List ε → List ε) (entries : List ε) (calls : Nat) (shown left : List ε) :
    Prop :=
  ∃ r ≤ entries.length, left = entries.drop r ∧ shown = shows (entries.take r) ∧
    ((shown.length = calls ∧ ∀ j < r, (shows (entries.take j)).length < calls) ∨
      (shown.length < calls ∧ r = entries.length))

/-- An entry with a new key is shown, and from then on its key is seen. -/
theorem firsts_append_cons {seen : List κ} {skipped : List ε} {entry : ε}
    (hskipped : ∀ e ∈ skipped, isSeen seen e = true) (hentry : isSeen seen entry = false)
    (rest : List ε) :
    firsts seen (skipped ++ [entry] ++ rest) = entry :: firsts (Entry.key entry :: seen) rest := by
  rw [List.append_assoc, firsts_append_of_isSeen hskipped, List.singleton_append, firsts,
    if_neg (by simp [hentry])]

/-- Reading on after an entry with a new key is reading with its key as a seen one. -/
theorem Reads.cons {seen : List κ} {skipped rest shown left : List ε} {entry : ε} {n : Nat}
    (hskipped : ∀ e ∈ skipped, isSeen seen e = true) (hentry : isSeen seen entry = false)
    (h : Reads (firsts (Entry.key entry :: seen)) rest n shown left) :
    Reads (firsts seen) (skipped ++ [entry] ++ rest) (n + 1) (entry :: shown) left := by
  rcases h with ⟨r, hr, hleft, hshown, hstop⟩
  have hlength : (skipped ++ [entry] ++ rest).length = (skipped ++ [entry]).length + rest.length :=
    List.length_append
  refine ⟨(skipped ++ [entry]).length + r, by omega, ?_, ?_, ?_⟩
  · rw [List.drop_length_add_append, hleft]
  · rw [List.take_length_add_append, firsts_append_cons hskipped hentry, hshown]
  · rcases hstop with ⟨hcount, hbefore⟩ | ⟨hcount, hend⟩
    · refine Or.inl ⟨congrArg Nat.succ hcount, fun j hj => ?_⟩
      by_cases hplace : j ≤ skipped.length
      · -- Among the skipped entries nothing is shown.
        have hnone := firsts_of_isSeen fun e (he : e ∈ skipped.take j) =>
          hskipped e (List.mem_of_mem_take he)
        rw [List.append_assoc, List.take_append_of_le_length hplace, hnone]
        exact Nat.succ_pos n
      · have hafter : (skipped ++ [entry]).length ≤ j := by
          rw [List.length_append, List.length_singleton]
          omega
        rcases Nat.exists_eq_add_of_le hafter with ⟨i, rfl⟩
        rw [List.take_length_add_append, firsts_append_cons hskipped hentry]
        exact Nat.succ_lt_succ (hbefore i (by omega))
    · exact Or.inr ⟨Nat.succ_lt_succ hcount, by omega⟩

/-- Showing some entries reads as far as is needed for them. -/
theorem take_reads (n : Nat) (v : Visible ε) :
    Reads (firsts v.seen) v.inner.toList n (v.take n).1 (v.take n).2.inner.toList := by
  induction n generalizing v with
  | zero => exact ⟨0, Nat.zero_le _, rfl, rfl, Or.inl ⟨rfl, nofun⟩⟩
  | succ n ih =>
      rcases v.next_rounds with ⟨⟨skipped, hrounds⟩, hkeys⟩
      rcases hrounds.split with ⟨hentries, hskipped, hfound, hleft⟩
      rw [take]
      rcases hnext : v.next with ⟨_ | entry, rest⟩ <;> rw [hnext] at hentries hfound hleft hkeys
      · refine ⟨v.inner.toList.length, Nat.le_refl _, ?_, ?_, Or.inr ⟨Nat.succ_pos n, rfl⟩⟩
        · rw [List.drop_length]
          exact hleft rfl
        · rw [hleft rfl, Option.toList_none, List.append_nil, List.append_nil] at hentries
          rw [List.take_length, hentries, firsts_of_isSeen hskipped]
      · have hlater := ih rest
        rw [show rest.seen = Entry.key entry :: v.seen from hkeys] at hlater
        rw [hentries]
        exact hlater.cons hskipped (hfound entry rfl)

/-- The keys that were seen are those of the shown entries, the latest first. -/
theorem seen_take (n : Nat) (v : Visible ε) :
    (v.take n).2.seen = ((v.take n).1.map Entry.key).reverse ++ v.seen := by
  induction n generalizing v with
  | zero => rfl
  | succ n ih =>
      have hkeys := v.next_rounds.2
      rw [take]
      rcases hnext : v.next with ⟨_ | entry, rest⟩ <;> rw [hnext] at hkeys
      · exact hkeys
      · change (rest.take n).2.seen = ((entry :: (rest.take n).1).map Entry.key).reverse ++ v.seen
        rw [ih, show rest.seen = Entry.key entry :: v.seen from hkeys]
        simp

/-! ## Any sequence -/

variable [EquivBEq κ]

/-- What the walk does with a sequence of entries, in whatever runs it comes. -/
structure WalksOnce (runs : List (List ε)) : Prop where
  /-- The whole walk shows the entries whose key is equal to that of no earlier entry, in order. -/
  drain : (ofRuns runs).drain.1 = unrepeated runs.flatten
  distinct : Entry.Distinct (ofRuns runs).drain.1
  covers : ∀ k, (ofRuns runs).drain.1.any (fun e => Entry.key e == k) =
    runs.flatten.any fun e => Entry.key e == k
  /-- So many calls show the first entries, and read no further than to the last of them. -/
  take : ∀ n, ((ofRuns runs).take n).1 = (unrepeated runs.flatten).take n ∧
    Reads unrepeated runs.flatten n ((ofRuns runs).take n).1 ((ofRuns runs).take n).2.inner.toList
  /-- The keys that were seen are those of the entries that were shown. -/
  seen : ∀ n, ((ofRuns runs).take n).2.seen = (((ofRuns runs).take n).1.map Entry.key).reverse

/-- A walk over runs goes through the sequence of their entries once. -/
theorem walksOnce (runs : List (List ε)) : WalksOnce runs := by
  have hinner : (ofRuns runs).inner.toList = runs.flatten := rfl
  have hfirsts : firsts (ofRuns runs).seen = unrepeated (ε := ε) := funext firsts_eq_unrepeated
  constructor
  case drain => rw [drain_eq, hfirsts, hinner]
  case distinct =>
    rw [drain_eq]
    exact distinct_firsts _ _
  case covers =>
    intro k
    have hany := any_firsts [] runs.flatten k
    rw [List.any_nil, Bool.or_false, Bool.or_false] at hany
    rw [drain_eq]
    exact hany
  case take =>
    intro n
    have hreads := take_reads n (ofRuns runs)
    rw [hfirsts, hinner] at hreads
    exact ⟨by rw [take_eq, hfirsts, hinner], hreads⟩
  case seen =>
    intro n
    rw [seen_take]
    exact List.append_nil _

/--
The walk over any sequence shows the first entry of each key and reads no further than it has to.  A
call for the next entry, from any moment of any walk, is a loop that ends in one way only.
-/
theorem walk_of_sequence :
    (∀ runs : List (List ε), WalksOnce runs) ∧
      ∀ (v : Visible ε) (found : Option ε) (left : List ε),
        (∃ skipped, Rounds v.seen v.inner.toList skipped found left) ↔
          found = v.next.1 ∧ left = v.next.2.inner.toList :=
  ⟨walksOnce, rounds_iff_next⟩

/-- A sequence with neighbours of one key and an empty run, of which two entries are asked for. -/
theorem walk_of_sequence_repeating :
    let runs : List (List (Binding Nat Bool)) :=
      [[⟨1, true⟩, ⟨1, false⟩, ⟨1, true⟩], [], [⟨2, false⟩, ⟨1, false⟩, ⟨3, true⟩, ⟨2, true⟩]]
    let seen : Visible (Binding Nat Bool) := ⟨⟨[⟨2, false⟩], [[⟨1, true⟩]]⟩, [1, 2]⟩
    EquivBEq Nat ∧ WalksOnce runs ∧
      (ofRuns runs).drain.1.map (fun b => (b.key, b.value)) = [(1, true), (2, false), (3, true)] ∧
      ((ofRuns runs).take 2).2.inner.toList.map (fun b => (b.key, b.value)) =
        [(1, false), (3, true), (2, true)] ∧
      ∃ skipped, Rounds seen.seen seen.inner.toList skipped none [] := by
  intro runs seen
  exact ⟨inferInstance, walk_of_sequence.1 runs, by decide, by decide,
    (walk_of_sequence.2 seen none []).mpr ⟨rfl, rfl⟩⟩

end Visible
end LexicalScope
