import RustChat.Plurality
import RustChat.Allocation
import RustChat.VoteIntegrity
import Mathlib.Data.Fin.VecNotation
import Mathlib.Data.Prod.Lex

/-!
# The verdict on the votes

`pick_actual_snapshot` for any iteration order of its map, and what the
verdict then says. A sum that leaves `u64` is the fault of `Allocation`.
-/

set_option autoImplicit false

namespace RustChat.SnapshotPick
open Protocol VoteIntegrity Fickle Allocation Plurality

structure VoteIntegrityResult where
  passed : Bool
  expected : Counts
  actual : Counts
  fickleCount : ℕ
  deriving DecidableEq

/-- `a.0.iter().sum::<u64>()`. -/
def sum (s : Counts) : Except Fault ℕ := checkedSum u64Bound 0 (List.ofFn s)

/-- The closure given to `max_by`. The sums are taken only on a tie. -/
def compareEntry (a b : Sigma fun _ : Counts => ℕ) : Except Fault Ordering :=
  match compare a.2 b.2 with
  | .eq => do
    let x ← sum a.1
    let y ← sum b.1
    return compare x y
  | o => .ok o

/-- One round of the loop of `pick_actual_snapshot`. -/
def tallyResult (t : Tally Counts) (r : FickleResult) : Tally Counts :=
  match r.lastSnapshot with
  | some s => record t s
  | none => t

def pickActualSnapshot (it : Iteration (Sigma fun _ : Counts => ℕ)) (results : List FickleResult) :
    Except Fault Counts :=
  (maxBy compareEntry (it.order (results.foldl tallyResult ∅).entries)).map fun best =>
    (best.map Sigma.fst).getD fun _ => 0

def checkVoteIntegrity (expected actual : Counts) (fickleCount : ℕ) : VoteIntegrityResult :=
  ⟨expected = actual,expected,actual,fickleCount⟩

/-- What a scenario with fickle bots does with their results. -/
def voteIntegrity (it : Iteration (Sigma fun _ : Counts => ℕ)) (results : List FickleResult) :
    Except Fault (Option VoteIntegrityResult) :=
  if results = [] then .ok none
  else do
    let expected := tallyVotes (results.map FickleResult.lastVote)
    let actual ← pickActualSnapshot it results
    return some (checkVoteIntegrity expected actual results.length)

/-! ## Who holds what -/

def holders (results : List FickleResult) (s : Counts) : ℕ :=
  results.countP fun r => r.lastSnapshot = some s

/-- The sum of a snapshot when nothing bounds it. -/
def total (s : Counts) : ℕ := (List.ofFn s).sum

/-- Held by somebody, by as many as any other, and with the greatest sum among
those that as many hold. -/
def Leading (results : List FickleResult) (s : Counts) : Prop :=
  0 < holders results s ∧ ∀ t, holders results t ≤ holders results s ∧
    (holders results t = holders results s → total t ≤ total s)

/-- The sums of two snapshots that equally many hold fit their type. -/
def TiesFit (results : List FickleResult) : Prop :=
  ∀ s t, s ≠ t → 0 < holders results s → holders results s = holders results t → total s < u64Bound

def SumsFit (results : List FickleResult) : Prop :=
  ∀ r ∈ results, ∀ s, r.lastSnapshot = some s → total s < u64Bound

theorem holders_count (results : List FickleResult) (s : Counts) :
    holders results s = (results.filterMap FickleResult.lastSnapshot).count s := by
  rw [List.count_filterMap, holders]
  exact List.countP_congr fun r _ => by simp

theorem holders_perm (results results' : List FickleResult) (h : results'.Perm results) (s : Counts) :
    holders results' s = holders results s := h.countP_eq _

theorem leading_perm (results results' : List FickleResult) (h : results'.Perm results) (s : Counts) :
    Leading results' s ↔ Leading results s := by
  simp only [Leading, holders_perm results results' h]

theorem tiesFit_perm (results results' : List FickleResult) (h : results'.Perm results)
    (hfit : TiesFit results) : TiesFit results' := by
  simpa only [TiesFit, holders_perm results results' h] using hfit

theorem sumsFit_ties (results : List FickleResult) (h : SumsFit results) : TiesFit results := by
  intro s t _ hpos _
  obtain ⟨r,hr,hs⟩ := List.countP_pos_iff.mp hpos
  exact h r hr s (by simpa using hs)

/-! ## The entries of the map -/

theorem tallyResult_fold (results : List FickleResult) (t : Tally Counts) :
    results.foldl tallyResult t = (results.filterMap FickleResult.lastSnapshot).foldl record t := by
  induction results generalizing t with
  | nil => rfl
  | cons r results ih =>
    rw [List.foldl_cons, ih, tallyResult, List.filterMap_cons]
    cases r.lastSnapshot <;> rfl

theorem mem_entries (results : List FickleResult) (s : Counts) (n : ℕ) :
    ⟨s,n⟩ ∈ (results.foldl tallyResult ∅).entries ↔ 0 < n ∧ holders results s = n := by
  rw [tallyResult_fold, holders_count]
  exact mem_entries_tally _ s n

theorem sum_eq (s : Counts) : sum s = if total s < u64Bound then .ok (total s) else .error .overflow := by
  have h := checkedSum_eq u64Bound 0 (List.ofFn s) (by decide)
  rwa [Nat.zero_add] at h

def rank (a : Sigma fun _ : Counts => ℕ) : ℕ ×ₗ ℕ := toLex (a.2,total a.1)

theorem compareEntry_rank (a b : Sigma fun _ : Counts => ℕ)
    (h : a.2 = b.2 → total a.1 < u64Bound ∧ total b.1 < u64Bound) :
    ∃ o, compareEntry a b = .ok o ∧ (o = .gt ↔ rank b < rank a) := by
  simp only [rank, Prod.Lex.toLex_lt_toLex, compareEntry]
  rcases lt_trichotomy a.2 b.2 with hlt | heq | hgt
  · rw [compare_lt_iff_lt.mpr hlt]
    exact ⟨.lt,rfl,by simp; omega⟩
  · obtain ⟨ha,hb⟩ := h heq
    rw [compare_eq_iff_eq.mpr heq]
    refine ⟨compare (total a.1) (total b.1),by simp [sum_eq, ha, hb, bind, Except.bind]; rfl,?_⟩
    rw [compare_gt_iff_gt]
    omega
  · rw [compare_gt_iff_gt.mpr hgt]
    exact ⟨.gt,rfl,by simp; omega⟩

theorem entries_ranked (results : List FickleResult) (hfit : TiesFit results)
    (l : List (Sigma fun _ : Counts => ℕ)) (hl : l.Perm (results.foldl tallyResult ∅).entries) :
    l.Nodup ∧ Ranks compareEntry rank l := by
  refine ⟨hl.nodup_iff.mpr (nodup_entries _),?_⟩
  rintro ⟨s,m⟩ hs ⟨t,n⟩ ht hne
  obtain ⟨hm,hs⟩ := (mem_entries results s m).mp (hl.mem_iff.mp hs)
  obtain ⟨hn,ht⟩ := (mem_entries results t n).mp (hl.mem_iff.mp ht)
  refine compareEntry_rank _ _ fun htie => ?_
  subst hs ht
  simp only at htie hm hn
  have hst : s ≠ t := fun h => hne (by rw [h])
  exact ⟨hfit s t hst hm htie,hfit t s hst.symm hn htie.symm⟩

theorem leading_of_rank (results : List FickleResult) (s : Counts) (n : ℕ) (hpos : 0 < n)
    (hn : holders results s = n)
    (hmax : ∀ e ∈ (results.foldl tallyResult ∅).entries, rank e ≤ rank ⟨s,n⟩) :
    Leading results s := by
  refine ⟨by omega,fun t => ?_⟩
  rcases Nat.eq_zero_or_pos (holders results t) with hz | ht
  · omega
  have hle := hmax ⟨t,holders results t⟩ ((mem_entries results t _).mpr ⟨ht,rfl⟩)
  simp only [rank, Prod.Lex.toLex_le_toLex] at hle
  omega

theorem rank_of_leading (results : List FickleResult) (s : Counts) (h : Leading results s)
    (e : Sigma fun _ : Counts => ℕ) (he : e ∈ (results.foldl tallyResult ∅).entries) :
    rank e ≤ rank ⟨s,holders results s⟩ := by
  obtain ⟨t,n⟩ := e
  obtain ⟨_,ht⟩ := (mem_entries results t n).mp he
  obtain ⟨hle,htie⟩ := h.2 t
  simp only [rank, Prod.Lex.toLex_le_toLex]
  omega

/-! ## The snapshot picked -/

theorem entries_none (results : List FickleResult) (h : ∀ r ∈ results, r.lastSnapshot = none) :
    (results.foldl tallyResult ∅).entries = [] := by
  rw [tallyResult_fold, List.filterMap_eq_nil_iff.mpr h]
  rfl

theorem entries_some (results : List FickleResult) (h : ∃ r ∈ results, r.lastSnapshot ≠ none) :
    (results.foldl tallyResult ∅).entries ≠ [] := by
  obtain ⟨r,hr,hs⟩ := h
  obtain ⟨s,hs⟩ := Option.ne_none_iff_exists'.mp hs
  have hpos : 0 < holders results s := List.countP_pos_iff.mpr ⟨r,hr,by simpa using hs⟩
  exact List.ne_nil_of_mem ((mem_entries results s _).mpr ⟨hpos,rfl⟩)

theorem pick_none (it : Iteration (Sigma fun _ : Counts => ℕ)) (results : List FickleResult)
    (h : ∀ r ∈ results, r.lastSnapshot = none) : pickActualSnapshot it results = .ok fun _ => 0 := by
  have hnil := (it.perm []).eq_nil
  rw [pickActualSnapshot, entries_none results h, hnil]
  rfl

theorem pick_leading (it : Iteration (Sigma fun _ : Counts => ℕ)) (results : List FickleResult)
    (hfit : TiesFit results) (h : ∃ r ∈ results, r.lastSnapshot ≠ none) :
    ∃ s, pickActualSnapshot it results = .ok s ∧ Leading results s := by
  have hperm := it.perm (results.foldl tallyResult ∅).entries
  obtain ⟨hn,hr⟩ := entries_ranked results hfit _ hperm
  have hne : it.order (results.foldl tallyResult ∅).entries ≠ [] := fun hnil =>
    entries_some results h (List.nil_perm.mp (hnil ▸ hperm))
  obtain ⟨⟨s,n⟩,hm,hmax,hge⟩ := maxBy_greatest compareEntry rank _ hne hn hr
  obtain ⟨hpos,hs⟩ := (mem_entries results s n).mp (hperm.mem_iff.mp hm)
  refine ⟨s,by rw [pickActualSnapshot, hmax]; rfl,?_⟩
  exact leading_of_rank results s n hpos hs fun e he => hge e (hperm.mem_iff.mpr he)

theorem voteIntegrity_pick (it : Iteration (Sigma fun _ : Counts => ℕ)) (results : List FickleResult)
    (s : Counts) (h : pickActualSnapshot it results = .ok s) :
    voteIntegrity it results = .ok (if results = [] then none else some
      (checkVoteIntegrity (tallyVotes (results.map FickleResult.lastVote)) s results.length)) := by
  unfold voteIntegrity
  split_ifs
  · rfl
  · rw [h]
    rfl

/-- The only snapshot that can lead is one held by more than any other is. -/
theorem leading_eq (results : List FickleResult) (s actual : Counts)
    (hmore : ∀ t, t ≠ s → holders results t < holders results s) (h : Leading results actual) :
    actual = s := by
  by_contra hne
  have hless := hmore actual hne
  have hle := (h.2 s).1
  omega

theorem verdict_of_more (it : Iteration (Sigma fun _ : Counts => ℕ)) (results : List FickleResult)
    (hfit : TiesFit results) (s : Counts)
    (hmore : ∀ t, t ≠ s → holders results t < holders results s) :
    voteIntegrity it results = .ok (some
      (checkVoteIntegrity (tallyVotes (results.map FickleResult.lastVote)) s results.length)) := by
  obtain ⟨t,ht⟩ := exists_ne s
  have hpos : 0 < holders results s := Nat.zero_lt_of_lt (hmore t ht)
  obtain ⟨r,hr,hs⟩ := List.countP_pos_iff.mp hpos
  obtain ⟨actual,hpick,hlead⟩ := pick_leading it results hfit ⟨r,hr,by simp_all⟩
  have heq := leading_eq results s actual hmore hlead
  rw [voteIntegrity_pick it results actual hpick, if_neg (List.ne_nil_of_mem hr), heq]

/-- Whatever the order of the map: the snapshot picked leads among those held,
and it is zero if none is. So a snapshot that more bots hold than any other
decides, against the tally of the last votes, what the verdict says. -/
theorem verdict_by_plurality (it : Iteration (Sigma fun _ : Counts => ℕ)) (results : List FickleResult)
    (hfit : SumsFit results) :
    (∃ actual, pickActualSnapshot it results = .ok actual ∧
      ((∀ r ∈ results, r.lastSnapshot = none) → actual = fun _ => 0) ∧
      ((∃ r ∈ results, r.lastSnapshot ≠ none) → Leading results actual)) ∧
    ((∀ t, t ≠ tallyVotes (results.map FickleResult.lastVote) →
        holders results t < holders results (tallyVotes (results.map FickleResult.lastVote))) →
      ∃ v, voteIntegrity it results = .ok (some v) ∧ v.passed = true) ∧
    ∀ s, s ≠ tallyVotes (results.map FickleResult.lastVote) →
      (∀ t, t ≠ s → holders results t < holders results s) →
      ∃ v, voteIntegrity it results = .ok (some v) ∧ v.passed = false := by
  have hties := sumsFit_ties results hfit
  refine ⟨?_,fun hmore => ?_,fun s hs hmore => ?_⟩
  · by_cases h : ∃ r ∈ results, r.lastSnapshot ≠ none
    · obtain ⟨actual,hpick,hlead⟩ := pick_leading it results hties h
      obtain ⟨r,hr,hne⟩ := h
      exact ⟨actual,hpick,fun hnone => absurd (hnone r hr) hne,fun _ => hlead⟩
    · have hnone : ∀ r ∈ results, r.lastSnapshot = none := by simpa using h
      exact ⟨_,pick_none it results hnone,fun _ => rfl,fun hsome => absurd hsome h⟩
  · exact ⟨_,verdict_of_more it results hties _ hmore,by simp [checkVoteIntegrity]⟩
  · exact ⟨_,verdict_of_more it results hties s hmore,by simpa [checkVoteIntegrity] using hs.symm⟩

/-- Two bots hold the final counts, the third one those before the last vote
and the fourth none. -/
def oneStale : List FickleResult :=
  [⟨some 1,some ![1,3,0,0]⟩,⟨some 0,some ![2,2,0,0]⟩,⟨some 1,none⟩,⟨some 1,some ![1,3,0,0]⟩]

theorem one_stale_passes :
    ∃ v, voteIntegrity ⟨List.reverse,List.reverse_perm⟩ oneStale = .ok (some v) ∧ v.passed = true := by
  have hfit : SumsFit oneStale := by
    intro r hr s hs
    simp only [oneStale, List.mem_cons, List.not_mem_nil, or_false] at hr
    rcases hr with rfl | rfl | rfl | rfl <;> cases hs <;> decide
  refine (verdict_by_plurality ⟨List.reverse,List.reverse_perm⟩ oneStale hfit).2.1 fun t ht => ?_
  have hexpected : tallyVotes (oneStale.map FickleResult.lastVote) = ![1,3,0,0] := by decide
  rw [hexpected] at ht ⊢
  have htwo : holders oneStale ![1,3,0,0] = 2 := by decide
  have hone : holders oneStale t ≤ 1 := by
    simp only [holders, oneStale, List.countP_cons, List.countP_nil, Option.some.injEq, ht.symm,
      reduceCtorEq, decide_false]
    split_ifs <;> simp_all
  omega

/-! ## Whether the order matters -/

theorem pick_of_last (it : Iteration (Sigma fun _ : Counts => ℕ)) (results : List FickleResult)
    (hfit : TiesFit results) (s : Counts) (hs : Leading results s)
    (hit : it.order (results.foldl tallyResult ∅).entries =
      (results.foldl tallyResult ∅).entries.erase ⟨s,holders results s⟩++[⟨s,holders results s⟩]) :
    pickActualSnapshot it results = .ok s := by
  have hperm := it.perm (results.foldl tallyResult ∅).entries
  rw [hit] at hperm
  obtain ⟨hn,hr⟩ := entries_ranked results hfit _ hperm
  have hlast := maxBy_last compareEntry rank _ _ hn hr fun e he =>
    rank_of_leading results s hs e (List.mem_of_mem_erase he)
  rw [pickActualSnapshot, hit, hlast]
  rfl

theorem leading_picked (results : List FickleResult) (hfit : TiesFit results) (s : Counts)
    (hs : Leading results s) : ∃ it, pickActualSnapshot it results = .ok s := by
  have hmem : ⟨s,holders results s⟩ ∈ (results.foldl tallyResult ∅).entries :=
    (mem_entries results s _).mpr ⟨hs.1,rfl⟩
  have hperm := (List.perm_append_singleton _ _).trans (List.perm_cons_erase hmem).symm
  obtain ⟨it,hit⟩ := exists_iteration _ _ hperm
  exact ⟨it,pick_of_last it results hfit s hs hit⟩

theorem unfit_overflows (results : List FickleResult) (s t : Counts) (hne : s ≠ t)
    (hpos : 0 < holders results s) (htie : holders results s = holders results t)
    (hs : ¬ total s < u64Bound) : ∃ it, pickActualSnapshot it results = .error .overflow := by
  have hsm : ⟨s,holders results s⟩ ∈ (results.foldl tallyResult ∅).entries :=
    (mem_entries results s _).mpr ⟨hpos,rfl⟩
  have htm : ⟨t,holders results t⟩ ∈ (results.foldl tallyResult ∅).entries :=
    (mem_entries results t _).mpr ⟨htie ▸ hpos,rfl⟩
  have hdiff : (⟨t,holders results t⟩ : Sigma fun _ : Counts => ℕ) ≠ ⟨s,holders results s⟩ :=
    fun h => hne (congrArg Sigma.fst h).symm
  have htm := (List.mem_erase_of_ne hdiff).mpr htm
  have hperm := ((List.perm_cons_erase htm).cons ⟨s,holders results s⟩).symm.trans
    (List.perm_cons_erase hsm).symm
  obtain ⟨it,hit⟩ := exists_iteration _ _ hperm
  refine ⟨it,?_⟩
  rw [pickActualSnapshot, hit, maxBy, List.foldlM_cons]
  simp [keepGreater, compareEntry, htie, sum_eq, hs, bind, Except.bind, Except.map]

theorem picks_agree (it₁ it₂ : Iteration (Sigma fun _ : Counts => ℕ)) (results results' : List FickleResult)
    (hperm : results'.Perm results) (hfit : TiesFit results)
    (hone : ∀ s t, Leading results s → Leading results t → s = t) :
    ∃ s, pickActualSnapshot it₁ results = .ok s ∧ pickActualSnapshot it₂ results' = .ok s := by
  by_cases hsome : ∃ r ∈ results, r.lastSnapshot ≠ none
  · obtain ⟨s,hs,hlead⟩ := pick_leading it₁ results hfit hsome
    obtain ⟨t,ht,hlead'⟩ := pick_leading it₂ results' (tiesFit_perm results results' hperm hfit)
      (by simpa [hperm.mem_iff] using hsome)
    refine ⟨s,hs,?_⟩
    rw [ht, hone s t hlead ((leading_perm results results' hperm t).mp hlead')]
  · have hnone : ∀ r ∈ results, r.lastSnapshot = none := by simpa using hsome
    exact ⟨_,pick_none it₁ results hnone,pick_none it₂ results' fun r hr => hnone r (hperm.mem_iff.mp hr)⟩

/-- The same snapshot whatever order the map has and the results come in, and
with it the same verdict, if and only if the sums that are compared fit and no
two snapshots lead. -/
theorem pick_deterministic_iff (results : List FickleResult) :
    (∀ (it₁ it₂ : Iteration (Sigma fun _ : Counts => ℕ)) (results' : List FickleResult),
      results'.Perm results → ∃ s v, pickActualSnapshot it₁ results = .ok s ∧
        pickActualSnapshot it₂ results' = .ok s ∧ voteIntegrity it₁ results = .ok v ∧
        voteIntegrity it₂ results' = .ok v) ↔
      TiesFit results ∧ ∀ s t, Leading results s → Leading results t → s = t := by
  constructor
  · intro hsame
    have hfit : TiesFit results := by
      intro s t hne hpos htie
      by_contra hs
      obtain ⟨it,hfault⟩ := unfit_overflows results s t hne hpos htie hs
      obtain ⟨_,_,hok,_⟩ := hsame it it results (.refl _)
      rw [hfault] at hok
      cases hok
    refine ⟨hfit,fun s t hs ht => ?_⟩
    obtain ⟨it₁,h₁⟩ := leading_picked results hfit s hs
    obtain ⟨it₂,h₂⟩ := leading_picked results hfit t ht
    obtain ⟨u,_,hu₁,hu₂,_⟩ := hsame it₁ it₂ results (.refl _)
    rw [h₁] at hu₁
    rw [h₂] at hu₂
    cases hu₁
    cases hu₂
    rfl
  · rintro ⟨hfit,hone⟩ it₁ it₂ results' hperm
    obtain ⟨s,h₁,h₂⟩ := picks_agree it₁ it₂ results results' hperm hfit hone
    refine ⟨s,_,h₁,h₂,voteIntegrity_pick it₁ results s h₁,?_⟩
    have hnil : results' = [] ↔ results = [] := by
      rw [← List.length_eq_zero_iff, ← List.length_eq_zero_iff, hperm.length_eq]
    rw [voteIntegrity_pick it₂ results' s h₂, tallyVotes_perm _ _ (hperm.map _), hperm.length_eq]
    simp only [hnil]

/-- A stale snapshot and the final one, each with one holder: bots that change
their votes leave the sum as it is. -/
def staleTie : List FickleResult := [⟨some 0,some ![2,0,0,0]⟩,⟨some 1,some ![1,1,0,0]⟩]

theorem stale_tie_by_order :
    (¬ ∀ (it₁ it₂ : Iteration (Sigma fun _ : Counts => ℕ)) (results results' : List FickleResult),
      SumsFit results → results'.Perm results →
      ∃ s, pickActualSnapshot it₁ results = .ok s ∧ pickActualSnapshot it₂ results' = .ok s) ∧
    (voteIntegrity ⟨id,.refl⟩ staleTie).map (Option.map VoteIntegrityResult.passed) = .ok (some false) ∧
    (voteIntegrity ⟨List.reverse,List.reverse_perm⟩ staleTie).map
      (Option.map VoteIntegrityResult.passed) = .ok (some true) := by
  refine ⟨fun hsame => ?_,by decide +kernel,by decide +kernel⟩
  have hfit : SumsFit staleTie := by
    intro r hr s hs
    simp only [staleTie, List.mem_cons, List.not_mem_nil, or_false] at hr
    rcases hr with rfl | rfl <;> cases hs <;> decide
  obtain ⟨s,h₁,h₂⟩ :=
    hsame ⟨id,.refl⟩ ⟨List.reverse,List.reverse_perm⟩ staleTie staleTie hfit (.refl _)
  have hdiffer : pickActualSnapshot ⟨id,.refl⟩ staleTie ≠
      pickActualSnapshot ⟨List.reverse,List.reverse_perm⟩ staleTie := by decide +kernel
  exact hdiffer (h₁.trans h₂.symm)

end RustChat.SnapshotPick
