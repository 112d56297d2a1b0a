import Mathlib.Data.List.Induction

/-!
# Runs of a partial step function

A machine is a function `step : σ → α → Option σ`. The action fixes every
choice of the scheduler and of the environment, so a run is the list of its
actions and the state it ends in is computed. Nothing here depends on what
the states or the actions are.
-/

set_option autoImplicit false

namespace RustChat.Runs

variable {σ α τ β : Type*} {step : σ → α → Option σ}

def run (step : σ → α → Option σ) : List α → σ → Option σ
  | [], s => some s
  | a::as, s => (step s a).bind (run step as)

/-- Every step of the run meets `C`, a condition on the state before the step
and on the action taken in it. -/
def Guarded (step : σ → α → Option σ) (C : σ → α → Prop) : List α → σ → Prop
  | [], _ => True
  | a::as, s => C s a ∧ ∀ t, step s a = some t → Guarded step C as t

@[simp] theorem run_nil (s : σ) : run step [] s = some s := rfl

theorem run_cons (a : α) (as : List α) (s t : σ) :
    run step (a::as) s = some t ↔ ∃ m, step s a = some m ∧ run step as m = some t :=
  Option.bind_eq_some_iff

theorem run_append (as bs : List α) (s : σ) :
    run step (as++bs) s = (run step as s).bind (run step bs) := by
  induction as generalizing s with
  | nil => rfl
  | cons a as ih =>
    simp only [List.cons_append, run, Option.bind_assoc]
    congr 1
    funext m
    exact ih m

theorem run_append_some (as bs : List α) (s t : σ) :
    run step (as++bs) s = some t ↔ ∃ m, run step as s = some m ∧ run step bs m = some t := by
  rw [run_append, Option.bind_eq_some_iff]

theorem run_rest (as bs : List α) (s m t : σ) (h : run step (as++bs) s = some t)
    (hm : run step as s = some m) : run step bs m = some t := by
  rwa [run_append, hm, Option.bind_some] at h

theorem run_snoc (as : List α) (a : α) (s t : σ) :
    run step (as++[a]) s = some t ↔ ∃ m, run step as s = some m ∧ step m a = some t := by
  rw [run_append_some]
  simp only [run_cons, run_nil, Option.some.injEq, exists_eq_right]

/-- The induction of every run lemma: what holds before the first action and
survives each step from a state the run reaches holds of the actions done so
far and the state they lead to. -/
theorem run_history (I : List α → σ → Prop) (s : σ) (h0 : I [] s)
    (hstep : ∀ as m a t, run step as s = some m → I as m → step m a = some t → I (as++[a]) t)
    (as : List α) (t : σ) (h : run step as s = some t) : I as t := by
  induction as using List.reverseRecOn generalizing t with
  | nil =>
    obtain rfl : s = t := by simpa using h
    exact h0
  | append_singleton as a ih =>
    obtain ⟨m,hm,ht⟩ := (run_snoc as a s t).mp h
    exact hstep as m a t hm (ih m hm) ht

theorem run_invariant (I : σ → Prop) (hstep : ∀ s a t, I s → step s a = some t → I t)
    (as : List α) (s t : σ) (h0 : I s) (h : run step as s = some t) : I t :=
  run_history (fun _ => I) s h0 (fun _ m a t _ hm => hstep m a t hm) as t h

theorem guarded_append (C : σ → α → Prop) (as bs : List α) (s : σ) :
    Guarded step C (as++bs) s ↔
      Guarded step C as s ∧ ∀ m, run step as s = some m → Guarded step C bs m := by
  induction as generalizing s with
  | nil => simp [Guarded]
  | cons a as ih =>
    simp only [List.cons_append, Guarded, ih, run_cons]
    constructor
    · rintro ⟨hC,h⟩
      exact ⟨⟨hC,fun t ht => (h t ht).1⟩,fun m ⟨t,ht,hm⟩ => (h t ht).2 m hm⟩
    · rintro ⟨⟨hC,h⟩,hb⟩
      exact ⟨hC,fun t ht => ⟨h t ht,fun m hm => hb m ⟨t,ht,hm⟩⟩⟩

theorem guarded_snoc (C : σ → α → Prop) (as : List α) (a : α) (s m : σ) (h : run step as s = some m) :
    Guarded step C (as++[a]) s ↔ Guarded step C as s ∧ C m a := by
  rw [guarded_append]
  simp [h, Guarded]

theorem guarded_and (C D : σ → α → Prop) (as : List α) (s : σ) :
    Guarded step (fun s a => C s a ∧ D s a) as s ↔ Guarded step C as s ∧ Guarded step D as s := by
  induction as generalizing s with
  | nil => simp [Guarded]
  | cons a as ih =>
    simp only [Guarded, ih]
    constructor
    · rintro ⟨⟨hC,hD⟩,h⟩
      exact ⟨⟨hC,fun t ht => (h t ht).1⟩,hD,fun t ht => (h t ht).2⟩
    · rintro ⟨⟨hC,h1⟩,hD,h2⟩
      exact ⟨⟨hC,hD⟩,fun t ht => ⟨h1 t ht,h2 t ht⟩⟩

theorem guarded_forall (P : α → Prop) (as : List α) (s t : σ) (h : run step as s = some t) :
    Guarded step (fun _ => P) as s ↔ ∀ a ∈ as, P a := by
  induction as generalizing s with
  | nil => simp [Guarded]
  | cons a as ih =>
    obtain ⟨m,hm,h⟩ := (run_cons a as s t).mp h
    rw [List.forall_mem_cons, ← ih m h]
    refine and_congr_right fun _ => ⟨fun hall => hall m hm,fun hg u hu => ?_⟩
    rwa [← Option.some.inj (hm.symm.trans hu)]

/-- The same induction for the runs whose steps all meet a condition. -/
theorem guarded_history (C : σ → α → Prop) (I : List α → σ → Prop) (s : σ) (h0 : I [] s)
    (hstep : ∀ as m a t, run step as s = some m → I as m → C m a → step m a = some t → I (as++[a]) t)
    (as : List α) (t : σ) (hg : Guarded step C as s) (h : run step as s = some t) :
    I as t := by
  induction as using List.reverseRecOn generalizing t with
  | nil =>
    obtain rfl : s = t := by simpa using h
    exact h0
  | append_singleton as a ih =>
    obtain ⟨m,hm,ht⟩ := (run_snoc as a s t).mp h
    obtain ⟨hg1,hg2⟩ := (guarded_append C as [a] s).mp hg
    exact hstep as m a t hm (ih m hg1 hm) (hg2 m hm).1 ht

theorem guarded_invariant (C : σ → α → Prop) (I : σ → Prop)
    (hstep : ∀ s a t, I s → C s a → step s a = some t → I t)
    (as : List α) (s t : σ) (h0 : I s) (hg : Guarded step C as s)
    (h : run step as s = some t) : I t :=
  guarded_history C (fun _ => I) s h0 (fun _ m a t _ hm => hstep m a t hm) as t hg h

instance decidableGuarded (step : σ → α → Option σ) (C : σ → α → Prop) [∀ s a, Decidable (C s a)] :
    (as : List α) → (s : σ) → Decidable (Guarded step C as s)
  | [], _ => isTrue trivial
  | a::as, s =>
    match h : step s a with
    | none => decidable_of_iff (C s a) (by simp [Guarded, h])
    | some t =>
      have := decidableGuarded step C as t
      decidable_of_iff (C s a ∧ Guarded step C as t) (by simp [Guarded, h])

/-- A machine whose every step is matched by some steps of another one: each
of its runs is matched by a run of the other. -/
theorem run_simulates (step' : τ → β → Option τ) (π : σ → τ)
    (hstep : ∀ s a t, step s a = some t → ∃ bs, run step' bs (π s) = some (π t))
    (as : List α) (s t : σ) (h : run step as s = some t) :
    ∃ bs, run step' bs (π s) = some (π t) := by
  refine run_history (fun _ m => ∃ bs, run step' bs (π s) = some (π m)) s ⟨[],rfl⟩ ?_ as t h
  rintro _ m a t' _ ⟨bs,hb⟩ ht
  obtain ⟨cs,hc⟩ := hstep m a t' ht
  exact ⟨bs++cs,(run_append_some bs cs _ _).mpr ⟨π m,hb,hc⟩⟩

theorem guarded_simulates (step' : τ → β → Option τ) (π : σ → τ) (C : σ → α → Prop) (D : τ → β → Prop)
    (I : σ → Prop) (hkeep : ∀ s a t, I s → C s a → step s a = some t → I t)
    (hstep : ∀ s a t, I s → C s a → step s a = some t →
      ∃ bs, run step' bs (π s) = some (π t) ∧ Guarded step' D bs (π s))
    (as : List α) (s t : σ) (h0 : I s) (hg : Guarded step C as s) (h : run step as s = some t) :
    ∃ bs, run step' bs (π s) = some (π t) ∧ Guarded step' D bs (π s) := by
  refine (guarded_history C (fun _ t => I t ∧ ∃ bs, run step' bs (π s) = some (π t) ∧ Guarded step' D bs (π s))
    s ⟨h0,[],rfl,trivial⟩ ?_ as t hg h).2
  rintro _ m a u _ ⟨hI,bs,hb,hbg⟩ hC hu
  obtain ⟨cs,hc,hcg⟩ := hstep m a u hI hC hu
  refine ⟨hkeep m a u hI hC hu,bs++cs,(run_append_some bs cs _ _).mpr ⟨_,hb,hc⟩,?_⟩
  refine (guarded_append D bs cs _).mpr ⟨hbg,fun n hn => ?_⟩
  obtain rfl : π m = n := Option.some.inj (hb.symm.trans hn)
  exact hcg

/-! ## Runs that must end -/

/-- No step that `C` allows is possible. -/
def Stuck (step : σ → α → Option σ) (C : σ → α → Prop) (s : σ) : Prop := ∀ a, C s a → step s a = none

/-- Where `C` allows a step it keeps `I` and lowers `μ`. -/
structure Descends (step : σ → α → Option σ) (C : σ → α → Prop) (I : σ → Prop) (μ : σ → ℕ) : Prop where
  kept : ∀ s a t, I s → C s a → step s a = some t → I t
  lower : ∀ s a t, I s → C s a → step s a = some t → μ t < μ s

theorem descends_length (C : σ → α → Prop) (I : σ → Prop) (μ : σ → ℕ) (hd : Descends step C I μ)
    (as : List α) (s t : σ) (h0 : I s) (hg : Guarded step C as s) (h : run step as s = some t) :
    as.length+μ t ≤ μ s := by
  induction as generalizing s with
  | nil =>
    obtain rfl : s = t := by simpa using h
    simp
  | cons a as ih =>
    obtain ⟨m,hm,h⟩ := (run_cons a as s t).mp h
    have hlow := hd.lower s a m h0 hg.1 hm
    have hle := ih m (hd.kept s a m h0 hg.1 hm) (hg.2 m hm) h
    rw [List.length_cons]
    omega

/-- Some allowed run leads to where no allowed step is left. -/
theorem descends_stuck (C : σ → α → Prop) (I : σ → Prop) (μ : σ → ℕ) (hd : Descends step C I μ)
    (s : σ) (h0 : I s) : ∃ as t, Guarded step C as s ∧ run step as s = some t ∧ Stuck step C t := by
  induction hn : μ s using Nat.strongRecOn generalizing s with
  | ind n ih =>
    by_cases hs : Stuck step C s
    · exact ⟨[],s,trivial,rfl,hs⟩
    · obtain ⟨a,hC,hne⟩ : ∃ a, C s a ∧ step s a ≠ none := by simpa [Stuck] using hs
      obtain ⟨m,hm⟩ := Option.ne_none_iff_exists'.mp hne
      have hlow := hd.lower s a m h0 hC hm
      obtain ⟨as,t,hg,hrun,hstuck⟩ := ih (μ m) (by omega) m (hd.kept s a m h0 hC hm) rfl
      refine ⟨a::as,t,⟨hC,fun u hu => ?_⟩,(run_cons a as s t).mpr ⟨m,hm,hrun⟩,hstuck⟩
      rwa [← Option.some.inj (hm.symm.trans hu)]

/-- A count that every allowed step raises and that stays within a bound. -/
theorem rising_descends (C : σ → α → Prop) (I : σ → Prop) (ρ : σ → ℕ) (bound : ℕ)
    (hkept : ∀ s a t, I s → C s a → step s a = some t → I t)
    (hrise : ∀ s a t, I s → C s a → step s a = some t → ρ s < ρ t) (hle : ∀ s, I s → ρ s ≤ bound) :
    Descends step C I fun s => bound-ρ s where
  kept := hkept
  lower := fun s a t hI hC h => by
    have hup := hrise s a t hI hC h
    have hmax := hle t (hkept s a t hI hC h)
    omega

/-! ## Counting steps -/

/-- How many steps of the run `C` holds of. -/
def tally (step : σ → α → Option σ) (C : σ → α → Prop) [∀ s a, Decidable (C s a)] : List α → σ → ℕ
  | [], _ => 0
  | a::as, s => (if C s a then 1 else 0)+((step s a).map (tally step C as)).getD 0

/-- Steps that lower a measure no other step of the run raises are few. -/
theorem tally_le (C D : σ → α → Prop) [∀ s a, Decidable (C s a)] (I : σ → Prop) (μ : σ → ℕ)
    (hstep : ∀ s a t, I s → D s a → step s a = some t → I t ∧ μ t+(if C s a then 1 else 0) ≤ μ s)
    (as : List α) (s t : σ) (h0 : I s) (hg : Guarded step D as s) (h : run step as s = some t) :
    tally step C as s+μ t ≤ μ s := by
  induction as generalizing s with
  | nil =>
    obtain rfl : s = t := by simpa using h
    simp [tally]
  | cons a as ih =>
    obtain ⟨m,hm,h⟩ := (run_cons a as s t).mp h
    obtain ⟨hI,hle⟩ := hstep s a m h0 hg.1 hm
    have hrest := ih m hI (hg.2 m hm) h
    simp only [tally, hm, Option.map_some, Option.getD_some]
    omega

end RustChat.Runs
