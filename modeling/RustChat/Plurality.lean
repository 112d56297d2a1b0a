import Mathlib.Data.List.AList
import Mathlib.Data.List.Induction
import Mathlib.Order.Lattice

/-!
# Plurality

Occurrences counted into a map, and the maximum of what the map holds when its
entries come in some order that nobody chose. The comparison may fail, and it
is only ever asked about the best entry so far and the next one.
-/

set_option autoImplicit false

namespace RustChat.Plurality

abbrev Tally (κ : Type*) := AList fun _ : κ => ℕ

section Counting
variable {κ : Type*} [DecidableEq κ]

def record (t : Tally κ) (k : κ) : Tally κ := t.insert k ((t.lookup k).getD 0+1)

def tally (l : List κ) : Tally κ := l.foldl record ∅

theorem lookup_record (t : Tally κ) (k x : κ) :
    (record t k).lookup x = if x = k then some ((t.lookup k).getD 0+1) else t.lookup x := by
  split_ifs with h
  · subst h
    exact AList.lookup_insert t
  · exact AList.lookup_insert_ne h

theorem lookup_tally (l : List κ) (x : κ) :
    (tally l).lookup x = if x ∈ l then some (l.count x) else none := by
  induction l using List.reverseRecOn with
  | nil => rfl
  | append_singleton l k ih =>
    rw [tally, List.foldl_concat, ← tally, lookup_record]
    by_cases hx : x = k
    · subst hx
      rw [if_pos rfl, ih]
      by_cases hl : x ∈ l
      · simp [hl]
      · simp [hl, List.count_eq_zero_of_not_mem hl]
    · simp [hx, ih, Ne.symm hx]

theorem mem_entries_tally (l : List κ) (x : κ) (n : ℕ) :
    ⟨x,n⟩ ∈ (tally l).entries ↔ 0 < n ∧ l.count x = n := by
  rw [← AList.mem_lookup_iff, lookup_tally, Option.mem_def]
  split_ifs with h
  · have hpos := List.count_pos_iff.mpr h
    rw [Option.some.injEq]
    omega
  · have hzero := List.count_eq_zero_of_not_mem h
    simp only [false_iff]
    omega

omit [DecidableEq κ] in
theorem nodup_entries (t : Tally κ) : t.entries.Nodup := List.Nodup.of_map Sigma.fst t.keys_nodup

end Counting

/-! ## An order that nobody chose -/

structure Iteration (α : Type*) where
  order : List α → List α
  perm : ∀ l, (order l).Perm l

/-- Any arrangement of a list is one of its iterations. -/
theorem exists_iteration {α : Type*} [DecidableEq α] (l l' : List α) (h : l'.Perm l) :
    ∃ it : Iteration α, it.order l = l' := by
  refine ⟨⟨fun m => if m = l then l' else m,fun m => ?_⟩,if_pos rfl⟩
  split_ifs with hm
  · exact hm ▸ h
  · exact .refl m

/-! ## The greatest entry -/

section Greatest
variable {α β ε : Type*} [LinearOrder β]

def keepGreater (cmp : α → α → Except ε Ordering) (x y : α) : Except ε α :=
  (cmp x y).map fun o => if o = .gt then x else y

/-- The last of the greatest ones, as `Iterator::max_by`. -/
def maxBy (cmp : α → α → Except ε Ordering) : List α → Except ε (Option α)
  | [] => .ok none
  | x::l => (l.foldlM (keepGreater cmp) x).map some

/-- On the elements of the list the comparison does not fail and follows a rank. -/
def Ranks (cmp : α → α → Except ε Ordering) (f : α → β) (l : List α) : Prop :=
  ∀ x ∈ l, ∀ y ∈ l, x ≠ y → ∃ o, cmp x y = .ok o ∧ (o = .gt ↔ f y < f x)

theorem keepGreater_rank (cmp : α → α → Except ε Ordering) (f : α → β) (x y : α)
    (h : ∃ o, cmp x y = .ok o ∧ (o = .gt ↔ f y < f x)) :
    keepGreater cmp x y = .ok (if f y < f x then x else y) := by
  obtain ⟨o,ho,hgt⟩ := h
  simp only [keepGreater, ho, Except.map, hgt]

theorem maxBy_concat (cmp : α → α → Except ε Ordering) (l : List α) (m y : α)
    (h : maxBy cmp l = .ok (some m)) : maxBy cmp (l++[y]) = (keepGreater cmp m y).map some := by
  cases l with
  | nil => simp [maxBy] at h
  | cons x l =>
    simp only [maxBy] at h
    cases hfold : l.foldlM (keepGreater cmp) x with
    | error e => simp [hfold, Except.map] at h
    | ok b =>
      have hb : b = m := by simpa [hfold, Except.map] using h
      subst hb
      rw [List.cons_append, maxBy, List.foldlM_append, hfold]
      simp [bind, Except.bind, pure, Except.pure]
      cases keepGreater cmp b y <;> rfl

theorem maxBy_greatest (cmp : α → α → Except ε Ordering) (f : α → β) (l : List α) (hl : l ≠ [])
    (hn : l.Nodup) (hr : Ranks cmp f l) :
    ∃ m ∈ l, maxBy cmp l = .ok (some m) ∧ ∀ y ∈ l, f y ≤ f m := by
  induction l using List.reverseRecOn with
  | nil => exact absurd rfl hl
  | append_singleton l y ih =>
    rcases eq_or_ne l [] with rfl | hne
    · exact ⟨y,by simp,rfl,by simp⟩
    obtain ⟨hnl,_,hdisj⟩ := List.nodup_append.mp hn
    obtain ⟨m,hm,hmax,hge⟩ := ih hne hnl
      fun a ha b hb => hr a (List.mem_append_left _ ha) b (List.mem_append_left _ hb)
    have hstep := keepGreater_rank cmp f m y
      (hr m (List.mem_append_left _ hm) y (by simp) (hdisj m hm y (by simp)))
    rw [maxBy_concat cmp l m y hmax, hstep]
    by_cases hlt : f y < f m
    · refine ⟨m,List.mem_append_left _ hm,by simp [hlt, Except.map],fun z hz => ?_⟩
      rcases List.mem_append.mp hz with hz | hz
      · exact hge z hz
      · exact List.mem_singleton.mp hz ▸ le_of_lt hlt
    · refine ⟨y,by simp,by simp [hlt, Except.map],fun z hz => ?_⟩
      rcases List.mem_append.mp hz with hz | hz
      · exact le_trans (hge z hz) (not_lt.mp hlt)
      · exact List.mem_singleton.mp hz ▸ le_rfl

/-- Of equally great ones the last is taken. -/
theorem maxBy_last (cmp : α → α → Except ε Ordering) (f : α → β) (l : List α) (y : α)
    (hn : (l++[y]).Nodup) (hr : Ranks cmp f (l++[y])) (hge : ∀ x ∈ l, f x ≤ f y) :
    maxBy cmp (l++[y]) = .ok (some y) := by
  rcases eq_or_ne l [] with rfl | hne
  · rfl
  obtain ⟨hnl,_,hdisj⟩ := List.nodup_append.mp hn
  obtain ⟨m,hm,hmax,_⟩ := maxBy_greatest cmp f l hne hnl
    fun a ha b hb => hr a (List.mem_append_left _ ha) b (List.mem_append_left _ hb)
  have hstep := keepGreater_rank cmp f m y
    (hr m (List.mem_append_left _ hm) y (by simp) (hdisj m hm y (by simp)))
  rw [maxBy_concat cmp l m y hmax, hstep, if_neg (not_lt.mpr (hge m hm))]
  rfl

end Greatest

end RustChat.Plurality
