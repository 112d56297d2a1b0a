import Mathlib.Algebra.Order.Ring.Int
import Mathlib.Data.Fintype.Pi
import RustChat.Protocol

/-!
# The vote board

One signed counter for each option. `vote`, `unvote` and `snapshot` are not
atomic: what a handler executes in one step is a single `fetch_add` or a
single load, and those are the operations here.
-/

set_option autoImplicit false

namespace RustChat.VoteBoard
open Protocol

abbrev Board := Fin nOptions → ℤ

def new : Board := fun _ => 0

/-- `counts[option].fetch_add(d)`, behind the bounds check of its callers. -/
def fetchAdd (b : Board) (option : ℕ) (d : ℤ) : Board := fun i => if i.val = option then b i+d else b i

/-- One load of `snapshot`, with its clamp. -/
def load (b : Board) (i : Fin nOptions) : ℕ := (max (b i) 0).toNat

theorem fetchAdd_apply (b : Board) (option : ℕ) (d : ℤ) (i : Fin nOptions) :
    fetchAdd b option d i = b i+if i.val = option then d else 0 := by
  unfold fetchAdd
  split_ifs <;> omega

theorem fetchAdd_out_of_range (b : Board) (option : ℕ) (d : ℤ) (h : nOptions ≤ option) :
    fetchAdd b option d = b := by
  funext i
  have hi := i.isLt
  rw [fetchAdd, if_neg (by omega)]

/-- The clamp changes nothing where the counter is not negative. -/
theorem load_of_nonneg (b : Board) (i : Fin nOptions) (h : 0 ≤ b i) : (load b i : ℤ) = b i := by
  rw [load, max_eq_left h, Int.toNat_of_nonneg h]

end RustChat.VoteBoard
