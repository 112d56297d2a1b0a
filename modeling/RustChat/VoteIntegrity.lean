import RustChat.Protocol
import Mathlib.Data.List.Count
import Mathlib.Logic.Function.Basic

/-!
# The bots' view of the votes

`tally_votes` counts the last votes of the bots, as the board should.
-/

set_option autoImplicit false

namespace RustChat.VoteIntegrity
open Protocol

/-- One round of the loop of `tally_votes`. -/
def tallyVote (counts : Counts) : Option ℕ → Counts
  | some opt => if h : opt < nOptions then Function.update counts ⟨opt,h⟩ (counts ⟨opt,h⟩+1) else counts
  | none => counts

def tallyVotes (lastVotes : List (Option ℕ)) : Counts := lastVotes.foldl tallyVote fun _ => 0

theorem tallyVote_apply (counts : Counts) (vote : Option ℕ) (i : Fin nOptions) :
    tallyVote counts vote i = counts i+if vote = some i.val then 1 else 0 := by
  cases vote with
  | none => rfl
  | some opt =>
    by_cases h : opt < nOptions
    · simp only [tallyVote, h, dif_pos, Function.update_apply, Fin.ext_iff, Option.some.injEq]
      split_ifs <;> simp_all
    · have hne : opt ≠ i.val := fun e => h (e ▸ i.isLt)
      simp [tallyVote, h, hne]

theorem tallyVotes_apply (lastVotes : List (Option ℕ)) (i : Fin nOptions) :
    tallyVotes lastVotes i = lastVotes.count (some i.val) := by
  have hfold : ∀ counts : Counts,
      lastVotes.foldl tallyVote counts i = counts i+lastVotes.count (some i.val) := by
    induction lastVotes with
    | nil => simp
    | cons vote rest ih =>
      intro counts
      rw [List.foldl_cons, ih, tallyVote_apply, List.count_cons]
      simp only [beq_iff_eq]
      omega
  simpa [tallyVotes] using hfold fun _ => 0

theorem tallyVotes_perm (l l' : List (Option ℕ)) (h : l'.Perm l) : tallyVotes l' = tallyVotes l := by
  funext i
  rw [tallyVotes_apply, tallyVotes_apply, h.count_eq]

end RustChat.VoteIntegrity
