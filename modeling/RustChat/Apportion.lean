import Mathlib.Algebra.BigOperators.Group.List.Basic
import Mathlib.Algebra.Order.BigOperators.Group.List
import Mathlib.Data.List.Sort
import Mathlib.Tactic.Ring

/-!
# Apportionment by weight

A total is split by weights: each entry gets its exact share rounded down, and
what is left goes one by one to the entries in the order of their weights, the
first of equal ones before the others.
-/

set_option autoImplicit false

namespace RustChat.Apportion

/-- The exact shares, rounded down. -/
def floors (total : ℕ) (ws : List ℕ) : List ℕ := ws.map fun w => total*w/ws.sum

def leftover (total : ℕ) (ws : List ℕ) : ℕ := total-(floors total ws).sum

theorem sum_div_mod (total d : ℕ) (ws : List ℕ) :
    d*(ws.map fun w => total*w/d).sum+(ws.map fun w => total*w%d).sum = total*ws.sum := by
  induction ws with
  | nil => simp
  | cons w ws ih =>
    have hw := Nat.div_add_mod (total*w) d
    simp only [List.map_cons, List.sum_cons, Nat.mul_add]
    omega

theorem sum_mod_lt (total d : ℕ) (ws : List ℕ) (hd : 0 < d) (hne : ws ≠ []) :
    (ws.map fun w => total*w%d).sum < ws.length*d := by
  have hlt : ∀ w, total*w%d < d := fun w => Nat.mod_lt _ hd
  induction ws with
  | nil => exact absurd rfl hne
  | cons w ws ih =>
    have hw := hlt w
    rw [List.map_cons, List.sum_cons, List.length_cons, Nat.succ_mul]
    cases ws with
    | nil => simpa using hw
    | cons v ws =>
      have hrest := ih (by simp)
      omega

theorem sum_floors_le (total : ℕ) (ws : List ℕ) (hs : 0 < ws.sum) : (floors total ws).sum ≤ total := by
  have h := sum_div_mod total ws.sum ws
  refine Nat.le_of_mul_le_mul_left ?_ hs
  rw [floors, Nat.mul_comm ws.sum total]
  omega

theorem leftover_lt (total : ℕ) (ws : List ℕ) (hs : 0 < ws.sum) : leftover total ws < ws.length := by
  have hne : ws ≠ [] := fun h => by simp [h] at hs
  have hdiv := sum_div_mod total ws.sum ws
  have hmod := sum_mod_lt total ws.sum ws hs hne
  have hle := sum_floors_le total ws hs
  refine Nat.lt_of_mul_lt_mul_left (a := ws.sum) ?_
  calc
    ws.sum*leftover total ws = ws.sum*total-ws.sum*(floors total ws).sum := Nat.mul_sub _ _ _
    _ = (ws.map fun w => total*w%ws.sum).sum := by
      rw [Nat.mul_comm ws.sum total, floors]
      omega
    _ < ws.sum*ws.length := by rwa [Nat.mul_comm]

/-! ## The order of the entries -/

/-- Position `i` comes before `j`: more weight, or as much and further left. -/
def Before (weight : ℕ → ℕ) (i j : ℕ) : Prop := weight j < weight i ∨ weight i = weight j ∧ i < j

instance (weight : ℕ → ℕ) (i j : ℕ) : Decidable (Before weight i j) :=
  inferInstanceAs (Decidable (_ ∨ _))

/-- How many of `n` positions come before `i`. -/
def rank (weight : ℕ → ℕ) (n i : ℕ) : ℕ := (List.range n).countP fun j => decide (Before weight j i)

/-- A stable sort by descending weight. -/
def order (weight : ℕ → ℕ) (l : List ℕ) : List ℕ := l.insertionSort fun i j => weight j ≤ weight i

theorem before_trans (weight : ℕ → ℕ) (i j k : ℕ) (hij : Before weight i j) (hjk : Before weight j k) :
    Before weight i k := by
  unfold Before at *
  omega

theorem orderedInsert_before (weight : ℕ → ℕ) (i : ℕ) (l : List ℕ) (hl : l.Pairwise (Before weight))
    (hi : ∀ j ∈ l, i < j) :
    (l.orderedInsert (fun i j => weight j ≤ weight i) i).Pairwise (Before weight) := by
  induction l with
  | nil => exact List.pairwise_singleton _ _
  | cons j l ih =>
    obtain ⟨hj,hl⟩ := List.pairwise_cons.mp hl
    have hij := hi j (by simp)
    rw [List.orderedInsert_cons]
    split_ifs with hw
    · have hbefore : Before weight i j := by
        unfold Before
        omega
      refine List.pairwise_cons.mpr ⟨fun k hk => ?_,List.pairwise_cons.mpr ⟨hj,hl⟩⟩
      rcases List.mem_cons.mp hk with rfl | hk
      · exact hbefore
      · exact before_trans weight i j k hbefore (hj k hk)
    · refine List.pairwise_cons.mpr ⟨fun k hk => ?_,ih hl fun k hk => hi k (by simp [hk])⟩
      rcases (List.mem_orderedInsert _).mp hk with rfl | hk
      · exact Or.inl (Nat.lt_of_not_le hw)
      · exact hj k hk

theorem order_before (weight : ℕ → ℕ) (l : List ℕ) (hl : l.Pairwise (· < ·)) :
    (order weight l).Pairwise (Before weight) := by
  induction l with
  | nil => exact List.Pairwise.nil
  | cons i l ih =>
    obtain ⟨hi,hl⟩ := List.pairwise_cons.mp hl
    refine orderedInsert_before weight i _ (ih hl) fun j hj => hi j ?_
    exact (List.perm_insertionSort _ l).mem_iff.mp hj

theorem order_perm (weight : ℕ → ℕ) (n : ℕ) : (order weight (List.range n)).Perm (List.range n) :=
  List.perm_insertionSort _ _

/-- In a list sorted by a strict order, the place of an entry is the number of
those before it. -/
theorem countP_before (weight : ℕ → ℕ) (l : List ℕ) (hl : l.Pairwise (Before weight)) (p i : ℕ)
    (hp : l[p]? = some i) : l.countP (fun j => decide (Before weight j i)) = p := by
  induction l generalizing p with
  | nil => simp at hp
  | cons j l ih =>
    obtain ⟨hj,hl⟩ := List.pairwise_cons.mp hl
    rw [List.countP_cons]
    cases p with
    | zero =>
      obtain rfl : j = i := by simpa using hp
      have hself : ¬ Before weight j j := by simp [Before]
      have hnone : l.countP (fun k => decide (Before weight k j)) = 0 := by
        refine List.countP_eq_zero.mpr fun k hk hd => ?_
        have hjk := hj k hk
        have hkj : Before weight k j := of_decide_eq_true hd
        unfold Before at hjk hkj
        omega
      simp [hnone, hself]
    | succ p =>
      have hp' : l[p]? = some i := by simpa using hp
      rw [ih hl p hp']
      simp [hj i (List.mem_of_getElem? hp')]

/-- The first `k` positions of the order are those with fewer than `k` before them. -/
theorem mem_take_order (weight : ℕ → ℕ) (n k i : ℕ) (hi : i < n) :
    i ∈ (order weight (List.range n)).take k ↔ rank weight n i < k := by
  have hperm := order_perm weight n
  have hmem : i ∈ order weight (List.range n) := hperm.mem_iff.mpr (List.mem_range.mpr hi)
  obtain ⟨p,hp⟩ := List.mem_iff_getElem?.mp hmem
  have hrank : rank weight n i = p := by
    rw [rank, ← hperm.countP_eq]
    exact countP_before weight _ (order_before weight _ List.pairwise_lt_range) p i hp
  rw [hrank, List.mem_take_iff_getElem]
  obtain ⟨hlt,hget⟩ := List.getElem?_eq_some_iff.mp hp
  have hnodup : (order weight (List.range n)).Nodup := hperm.nodup_iff.mpr List.nodup_range
  constructor
  · rintro ⟨q,hq,hqi⟩
    have hqp : q = p := (hnodup.getElem_inj_iff).mp (hqi.trans hget.symm)
    omega
  · intro hk
    exact ⟨p,by omega,hget⟩

theorem rank_mono (weight : ℕ → ℕ) (n i j : ℕ) (h : Before weight i j) :
    rank weight n i ≤ rank weight n j := by
  refine List.countP_mono_left fun k _ hk => ?_
  exact decide_eq_true (before_trans weight k i j (of_decide_eq_true hk) h)

end RustChat.Apportion
