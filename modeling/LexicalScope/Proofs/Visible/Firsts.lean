import Mathlib.Data.List.Forall2
import LexicalScope.Chain.Visible

/-!
# The first entry of each key

What the visible walk shows of a sequence of entries, whatever repetitions it has: the
entries whose key equals neither a key seen before nor the key of an earlier entry.
The step function of the walk skips any number of entries at once, so the description
here is by recursion on the sequence, one entry at a time.

Main results:

- Theorem {lit}`Visible.take_eq`: so many steps of the walk show the first so many of
  those entries.
- Theorem {lit}`Visible.drain_eq`: the whole walk shows all of them.
- Theorem {lit}`Visible.firsts_append`: a run without repetitions contributes its entries
  with unseen keys, and from then on all its keys are seen.
-/

namespace LexicalScope
namespace Visible

variable {ε κ : Type} [Entry ε κ] [BEq κ]

/-- The entries with a key that is neither seen nor that of an earlier entry. -/
def firsts (seen : List κ) : List ε → List ε
  | [] => []
  | entry :: rest =>
    if isSeen seen entry then firsts seen rest
    else entry :: firsts (Entry.key entry :: seen) rest

/-! ## The steps of the walk -/

/-- Skipping the seen entries of a run at once is skipping them one by one. -/
theorem firsts_dropWhile (seen : List κ) (run rest : List ε) :
    firsts seen (run ++ rest) =
      match run.dropWhile (isSeen seen) with
      | entry :: left => entry :: firsts (Entry.key entry :: seen) (left ++ rest)
      | [] => firsts seen rest := by
  induction run with
  | nil => rfl
  | cons entry run ih => cases h : isSeen seen entry <;> simp [firsts, h, ih]

/-- The first entry shown is the first unseen one, and the others follow once its key is seen. -/
theorem firsts_eq_firstUnseen (seen : List κ) (current : List ε) (pending : List (List ε)) :
    firsts seen (current ++ pending.flatten) =
      match firstUnseen seen current pending with
      | some (entry, left) => entry :: firsts (Entry.key entry :: seen) left.toList
      | none => [] := by
  induction pending generalizing current with
  | nil =>
      have hstep := firsts_dropWhile seen current []
      rw [List.flatten_nil, hstep, firstUnseen]
      cases current.dropWhile (isSeen seen) with
      | nil => rfl
      | cons entry left => simp [Runs.toList]
  | cons run pending ih =>
      rw [firsts_dropWhile, firstUnseen]
      cases current.dropWhile (isSeen seen) with
      | nil => exact ih run
      | cons entry left => rfl

/-- No more entries are shown than there are. -/
theorem length_firsts_le (seen : List κ) (entries : List ε) :
    (firsts seen entries).length ≤ entries.length := by
  induction entries generalizing seen with
  | nil => exact Nat.le_refl 0
  | cons entry rest ih =>
      rw [firsts]
      split
      · exact Nat.le_succ_of_le (ih seen)
      · exact Nat.succ_le_succ (ih _)

/-- So many steps of the walk show the first so many entries with new keys. -/
theorem take_eq (n : Nat) (v : Visible ε) :
    (v.take n).1 = (firsts v.seen v.inner.toList).take n := by
  induction n generalizing v with
  | zero => rfl
  | succ n ih =>
      have hstep := firsts_eq_firstUnseen v.seen v.inner.current v.inner.pending
      rw [take, next, Runs.toList, hstep]
      cases firstUnseen v.seen v.inner.current v.inner.pending with
      | none => rfl
      | some found => exact congrArg _ (ih _)

/-- The whole walk shows all entries with new keys. -/
theorem drain_eq (v : Visible ε) : v.drain.1 = firsts v.seen v.inner.toList := by
  rw [drain, take_eq, List.take_of_length_le]
  exact Nat.le_succ_of_le (length_firsts_le _ _)

/-! ## Which keys are shown -/

/-- No entry is shown whose key was seen before. -/
theorem isSeen_eq_false_of_mem_firsts {seen : List κ} {entries : List ε} {e : ε}
    (he : e ∈ firsts seen entries) : isSeen seen e = false := by
  induction entries generalizing seen with
  | nil => cases he
  | cons entry rest ih =>
      rw [firsts] at he
      split at he
      · exact ih he
      · rename_i hnew
        rcases List.mem_cons.mp he with rfl | hmem
        · simpa using hnew
        · have hrest := ih hmem
          simp only [isSeen, List.any_cons, Bool.or_eq_false_iff] at hrest
          exact hrest.2

/-- No two of the shown keys are equal. -/
theorem distinct_firsts (seen : List κ) (entries : List ε) :
    Entry.Distinct (firsts seen entries) := by
  induction entries generalizing seen with
  | nil => exact List.Pairwise.nil
  | cons entry rest ih =>
      rw [firsts]
      split
      · exact ih seen
      · refine List.pairwise_cons.mpr ⟨fun k hk => ?_, ih _⟩
        rcases List.mem_map.mp hk with ⟨e, he, rfl⟩
        have hnew := isSeen_eq_false_of_mem_firsts he
        simp only [isSeen, List.any_cons, Bool.or_eq_false_iff] at hnew
        exact hnew.1

/-- What is shown depends only on which keys were seen, not on their order or spelling. -/
theorem firsts_congr {seen seen' : List κ} (h : ∀ k, seen.any (· == k) = seen'.any (· == k))
    (entries : List ε) : firsts seen entries = firsts seen' entries := by
  induction entries generalizing seen seen' with
  | nil => rfl
  | cons entry rest ih =>
      have hentry : isSeen seen entry = isSeen seen' entry := h (Entry.key entry)
      have hrest : firsts (Entry.key entry :: seen) rest =
          firsts (Entry.key entry :: seen') rest :=
        ih fun k => by simp only [List.any_cons, h k]
      simp only [firsts, hentry, ih h, hrest]

variable [EquivBEq κ]

/-- What was seen under one spelling of a key was seen under every other. -/
theorem any_of_isSeen {seen : List κ} {e : ε} {k : κ} (hseen : isSeen seen e = true)
    (hk : (Entry.key e == k) = true) : seen.any (· == k) = true := by
  rcases List.any_eq_true.mp hseen with ⟨old, hold, heq⟩
  exact List.any_eq_true.mpr ⟨old, hold, BEq.trans heq hk⟩

/-- Every key of the sequence is shown, unless it was seen before. -/
theorem any_firsts (seen : List κ) (entries : List ε) (k : κ) :
    ((firsts seen entries).any (fun e => Entry.key e == k) || seen.any (· == k)) =
      (entries.any (fun e => Entry.key e == k) || seen.any (· == k)) := by
  induction entries generalizing seen with
  | nil => rfl
  | cons entry rest ih =>
      rw [firsts]
      split
      · rename_i hseen
        rw [ih seen, List.any_cons]
        cases hk : Entry.key entry == k with
        | false => rfl
        | true => simp [any_of_isSeen hseen hk]
      · have hrest := ih (Entry.key entry :: seen)
        simp only [List.any_cons] at hrest ⊢
        rw [Bool.or_comm (Entry.key entry == k), Bool.or_assoc, hrest, ← Bool.or_assoc,
          Bool.or_comm _ (Entry.key entry == k)]

/-- A run without repetitions shows its entries with unseen keys; then all its keys are seen. -/
theorem firsts_append (seen : List κ) {run : List ε} (hrun : Entry.Distinct run) (rest : List ε) :
    firsts seen (run ++ rest) =
      run.filter (fun e => !isSeen seen e) ++ firsts (run.map Entry.key ++ seen) rest := by
  induction run generalizing seen with
  | nil => rfl
  | cons entry run ih =>
      rcases List.pairwise_cons.mp hrun with ⟨hentry, hrun⟩
      rw [List.cons_append, firsts]
      split
      · rename_i hseen
        have hkeys : ∀ k, (run.map Entry.key ++ seen).any (· == k) =
            ((entry :: run).map Entry.key ++ seen).any (· == k) := by
          intro k
          cases hk : Entry.key entry == k with
          | false => simp [hk]
          | true => simp [any_of_isSeen hseen hk]
        rw [ih seen hrun, firsts_congr hkeys]
        simp [hseen]
      · rename_i hnew
        have hfilter : run.filter (fun e => !isSeen (Entry.key entry :: seen) e) =
            run.filter (fun e => !isSeen seen e) := by
          apply List.filter_congr
          intro e he
          have hne := hentry (Entry.key e) (List.mem_map_of_mem he)
          simp [isSeen, hne]
        have hkeys : ∀ k, (run.map Entry.key ++ Entry.key entry :: seen).any (· == k) =
            ((entry :: run).map Entry.key ++ seen).any (· == k) := by
          intro k
          simp only [List.any_append, List.map_cons, List.any_cons, List.cons_append]
          ac_rfl
        rw [ih _ hrun, hfilter, firsts_congr hkeys]
        simp [hnew]

end Visible
end LexicalScope
