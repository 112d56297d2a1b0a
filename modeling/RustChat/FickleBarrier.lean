import RustChat.Fickle

/-!
# When a scenario ends

The barrier is as large as the number of fickle bots planned, and a bot that
fails before it reaches the barrier never calls `wait`. So the barrier opens
only if no bot fails early, and a bot hangs at it as soon as one fails and
another one does not.
-/

set_option autoImplicit false

namespace RustChat.FickleBarrier
open Runs TaskPool Fickle

/-- The connect of bot `k` fails, or one of its sends before the barrier. -/
def Early (plan : ℕ → ℕ → Bool) (voteCount k : ℕ) : Prop := ∃ i ≤ voteCount, plan k i = true

/-! ## Who has called `wait` -/

def waitedCount (bots : List Bot) : ℕ := (bots.map fun b => if b.waited then 1 else 0).sum

theorem waitedCount_le (bots : List Bot) (hw : ∀ b ∈ bots, b.waited = true → b.botType = .fickle) :
    waitedCount bots ≤ (bots.map Bot.botType).count .fickle ∧
      (waitedCount bots = (bots.map Bot.botType).count .fickle ↔
        ∀ b ∈ bots, b.botType = .fickle → b.waited = true) := by
  induction bots with
  | nil => simp [waitedCount]
  | cons b bots ih =>
    obtain ⟨hle,heq⟩ := ih fun c hc => hw c (List.mem_cons_of_mem _ hc)
    have hb := hw b List.mem_cons_self
    unfold waitedCount at hle heq ⊢
    rw [List.map_cons, List.sum_cons, List.map_cons, List.count_cons, List.forall_mem_cons, ← heq]
    by_cases ht : b.botType = .fickle
    · cases hwt : b.waited with
      | true => simp [ht]; omega
      | false => simp [ht]; omega
    · have hwt : b.waited = false := by simpa using fun h => ht (hb h)
      simp [ht, hwt]
      omega

/-! ## One bot -/

/-- What is known of a bot in each phase: whether it has called `wait`, that no
operation before has failed, and that the barrier has opened if it is past it. -/
def FickleSound (plan : ℕ → ℕ → Bool) (voteCount generation k : ℕ) (b : Bot) : Prop :=
  match b.phase with
  | .connecting => b.waited = false
  | .voting sent | .pausing sent => b.waited = false ∧ ∀ i ≤ sent, plan k i = false
  | .waiting g => b.waited = true ∧ ¬ Early plan voteCount k ∧ g = 0
  | .returned _ => (b.waited = true → ¬ Early plan voteCount k ∧ 1 ≤ generation) ∧
    (b.waited = false → Early plan voteCount k)
  | _ => b.waited = true ∧ ¬ Early plan voteCount k ∧ 1 ≤ generation

def Sound (plan : ℕ → ℕ → Bool) (voteCount generation k : ℕ) (b : Bot) : Prop :=
  (b.botType = .fickle → FickleSound plan voteCount generation k b) ∧
    (b.botType ≠ .fickle → b.waited = false ∧ (b.phase = .connecting ∨ ∃ ok, b.phase = .returned ok))

theorem sound_mono (plan : ℕ → ℕ → Bool) (voteCount g g' k : ℕ) (b : Bot) (hg : g ≤ g')
    (h : Sound plan voteCount g k b) : Sound plan voteCount g' k b := by
  refine ⟨fun ht => ?_,h.2⟩
  have hs := h.1 ht
  unfold FickleSound at hs ⊢
  split at hs <;> first
    | exact hs
    | exact ⟨fun hw => ⟨(hs.1 hw).1,Nat.le_trans (hs.1 hw).2 hg⟩,hs.2⟩
    | exact ⟨hs.1,hs.2.1,Nat.le_trans hs.2.2 hg⟩

theorem past_sound (plan : ℕ → ℕ → Bool) (voteCount generation k : ℕ) (b : Bot) (hp : Past b.phase) :
    FickleSound plan voteCount generation k b ↔
      b.waited = true ∧ ¬ Early plan voteCount k ∧ 1 ≤ generation := by
  unfold FickleSound
  cases hph : b.phase <;> simp_all [Past]

theorem step_barrier (voteCount : ℕ) (sh : Shared) (b : Bot) (fails : ℕ → Bool) (sh' : Shared) (b' : Bot)
    (h : BotStep voteCount sh b fails sh' b') :
    b'.botType = b.botType ∧ sh'.joined = sh.joined ∧
      ((sh'.barrier = sh.barrier ∧ b'.waited = b.waited) ∨
        (sh'.barrier = (arrive sh.barrier).1 ∧ b'.waited = true ∧ ∃ sent, b.phase = .voting sent)) := by
  cases h with
  | wait sent h hs hb | lead sent h hs hb => exact ⟨rfl,rfl,Or.inr ⟨rfl,rfl,sent,h⟩⟩
  | proceed sh' p h hp hb hj => exact ⟨rfl,hj,Or.inl ⟨hb,rfl⟩⟩
  | _ => exact ⟨rfl,rfl,Or.inl ⟨rfl,rfl⟩⟩

theorem arrive_counts (b : Barrier) (h : b.arrived < b.size) :
    (arrive b).1.size = b.size ∧ (arrive b).1.arrived < b.size ∧ b.generation ≤ (arrive b).1.generation ∧
      (arrive b).1.arrived+b.size*(arrive b).1.generation = b.arrived+b.size*b.generation+1 := by
  unfold arrive
  split_ifs with hb
  · exact ⟨rfl,hb,Nat.le_refl _,by simp only; omega⟩
  · refine ⟨rfl,by simp only; omega,Nat.le_succ _,?_⟩
    simp only [Nat.mul_succ]
    omega

theorem bot_sound (plan : ℕ → ℕ → Bool) (voteCount k : ℕ) (sh : Shared) (b : Bot) (sh' : Shared)
    (b' : Bot) (h : BotStep voteCount sh b (plan k) sh' b')
    (hfirst : b.botType = .fickle → b.waited = false → sh.barrier.generation = 0)
    (hb : Sound plan voteCount sh.barrier.generation k b) :
    Sound plan voteCount sh'.barrier.generation k b' := by
  obtain ⟨hs,ho⟩ := hb
  have hnever : b.botType ≠ .fickle → ∀ p, b.phase = p → p = .connecting ∨ ∃ ok, p = .returned ok :=
    fun ht p hp => hp ▸ (ho ht).2
  cases h with
  | other ok h ht => exact ⟨fun hf => absurd hf ht,fun _ => ⟨(ho ht).1,Or.inr ⟨ok,rfl⟩⟩⟩
  | refused h hf ht =>
    have hw := hs ht
    simp only [FickleSound, h] at hw
    exact ⟨fun _ => ⟨by simp [hw],fun _ => ⟨0,Nat.zero_le _,hf⟩⟩,fun hne => absurd ht hne⟩
  | connected h hf ht =>
    have hw := hs ht
    simp only [FickleSound, h] at hw
    refine ⟨fun _ => ⟨hw,fun i hi => ?_⟩,fun hne => absurd ht hne⟩
    rwa [Nat.le_zero.mp hi]
  | unsent sent h hlt hf =>
    refine ⟨fun ht => ?_,fun hne => ⟨(ho hne).1,Or.inr ⟨_,rfl⟩⟩⟩
    have hw := hs ht
    simp only [FickleSound, h] at hw
    exact ⟨by simp [hw.1],fun _ => ⟨sent+1,hlt,hf⟩⟩
  | vote sent option h hlt hf =>
    refine ⟨fun ht => ?_,fun hne => by simpa [h] using hnever hne _ h⟩
    have hw := hs ht
    simp only [FickleSound, h] at hw
    refine ⟨hw.1,fun i hi => ?_⟩
    rcases Nat.lt_or_ge i (sent+1) with hi' | hi'
    · exact hw.2 i (Nat.le_of_lt_succ hi')
    · rwa [Nat.le_antisymm hi hi']
  | pause sent h =>
    refine ⟨fun ht => ?_,fun hne => by simpa [h] using hnever hne _ h⟩
    have hw := hs ht
    simpa only [FickleSound, h] using hw
  | wait sent h hle hb =>
    refine ⟨fun ht => ?_,fun hne => by simpa [h] using hnever hne _ h⟩
    have hw := hs ht
    simp only [FickleSound, h] at hw
    refine ⟨rfl,fun ⟨i,hi,hf⟩ => ?_,hfirst ht hw.1⟩
    simp [hw.2 i (Nat.le_trans hi hle)] at hf
  | lead sent h hle hb =>
    refine ⟨fun ht => ?_,fun hne => by simpa [h] using hnever hne _ h⟩
    have hw := hs ht
    simp only [FickleSound, h] at hw
    refine ⟨rfl,fun ⟨i,hi,hf⟩ => ?_,?_⟩
    · simp [hw.2 i (Nat.le_trans hi hle)] at hf
    · simp only [arrive, if_neg (Nat.not_lt.mpr hb)]
      omega
  | release generation h hg =>
    refine ⟨fun ht => ?_,fun hne => by simpa [h] using hnever hne _ h⟩
    have hw := hs ht
    simp only [FickleSound, h] at hw
    refine ⟨hw.1,hw.2.1,?_⟩
    have h0 := hw.2.2
    omega
  | proceed sh' p h hp hbar hj =>
    rw [hbar]
    refine ⟨fun ht => ?_,fun hne => ?_⟩
    · have hw := (past_sound plan voteCount _ k b h).mp (hs ht)
      rcases hp with hp | ⟨ok,rfl⟩
      · exact (past_sound plan voteCount _ k _ hp).mpr hw
      · exact ⟨fun _ => hw.2,by simp [hw.1]⟩
    · rcases (ho hne).2 with hc | ⟨ok,hc⟩ <;> simp [hc, Past] at h

/-! ## All bots -/

structure Inv (plan : ℕ → ℕ → Bool) (voteCount size : ℕ) (types : List BotType) (s : State) : Prop where
  planned : s.tasks.map Bot.botType = types
  sized : s.shared.barrier.size = size
  room : s.shared.barrier.arrived < size
  counted : waitedCount s.tasks = s.shared.barrier.arrived+size*s.shared.barrier.generation
  sound : ∀ (k : ℕ) b, s.tasks[k]? = some b → Sound plan voteCount s.shared.barrier.generation k b
  joined : ∀ (k : ℕ) ok, s.shared.joined[k]? = some ok → ∃ b, s.tasks[k]? = some b ∧
    b.phase = .returned ok

theorem start_inv (plan : ℕ → ℕ → Bool) (voteCount size : ℕ) (types : List BotType) (h : 0 < size) :
    Inv plan voteCount size types (start size types) := by
  refine ⟨?_,rfl,h,?_,fun k b hb => ?_,by simp [start]⟩
  · rw [start, List.map_map]
    exact List.map_id' types
  · rw [waitedCount, start, List.map_map]
    exact List.sum_eq_zero fun x hx => by
      obtain ⟨t,_,rfl⟩ := List.mem_map.mp hx
      rfl
  · rw [start, List.getElem?_map] at hb
    obtain ⟨t,_,rfl⟩ := Option.map_eq_some_iff.mp hb
    exact ⟨fun _ => rfl,fun _ => ⟨rfl,Or.inl rfl⟩⟩

theorem sound_waited (plan : ℕ → ℕ → Bool) (voteCount generation k : ℕ) (b : Bot)
    (h : Sound plan voteCount generation k b) (hw : b.waited = true) : b.botType = .fickle := by
  by_contra ht
  simp [(h.2 ht).1] at hw

theorem inv_waited (plan : ℕ → ℕ → Bool) (voteCount size : ℕ) (types : List BotType) (s : State)
    (hs : Inv plan voteCount size types s) :
    waitedCount s.tasks ≤ types.count .fickle ∧ (waitedCount s.tasks = types.count .fickle ↔
      ∀ (k : ℕ) b, s.tasks[k]? = some b → b.botType = .fickle → b.waited = true) := by
  have hall := waitedCount_le s.tasks fun b hb hw => by
    obtain ⟨k,hk⟩ := List.mem_iff_getElem?.mp hb
    exact sound_waited plan voteCount _ k b (hs.sound k b hk) hw
  rw [hs.planned] at hall
  refine ⟨hall.1,hall.2.trans ⟨fun h k b hk => h b (List.mem_of_getElem? hk),fun h b hb => ?_⟩⟩
  obtain ⟨k,hk⟩ := List.mem_iff_getElem?.mp hb
  exact h k b hk

/-- The barrier is shut as long as a fickle bot has not called `wait`. -/
theorem barrier_shut (plan : ℕ → ℕ → Bool) (voteCount size : ℕ) (types : List BotType) (s : State)
    (hle : types.count .fickle ≤ size) (hs : Inv plan voteCount size types s) (k : ℕ) (b : Fickle.Bot)
    (hb : s.tasks[k]? = some b) (ht : b.botType = .fickle) (hw : b.waited = false) :
    s.shared.barrier.generation = 0 := by
  obtain ⟨hle',heq⟩ := inv_waited plan voteCount size types s hs
  have hcount := hs.counted
  have hne : waitedCount s.tasks ≠ types.count .fickle := fun he => by
    simpa [hw] using heq.mp he k b hb ht
  by_contra hg
  have hmul : size ≤ size*s.shared.barrier.generation := Nat.le_mul_of_pos_right _ (by omega)
  omega

theorem voting_unwaited (plan : ℕ → ℕ → Bool) (voteCount generation k sent : ℕ) (b : Fickle.Bot)
    (h : Sound plan voteCount generation k b) (hp : b.phase = .voting sent) : b.waited = false := by
  by_contra hw
  have hf := h.1 (sound_waited plan voteCount generation k b h (by simpa using hw))
  simp only [FickleSound, hp] at hf
  exact hw hf.1

theorem move_inv (plan : ℕ → ℕ → Bool) (voteCount size : ℕ) (types : List BotType) (s t : State)
    (k : ℕ) (option : Fin Protocol.nOptions) (snapshot : Option Protocol.Counts)
    (hle : types.count .fickle ≤ size) (hs : Inv plan voteCount size types s)
    (h : move (next voteCount) s k ⟨plan k,option,snapshot⟩ = some t) :
    Inv plan voteCount size types t := by
  obtain ⟨b,sh,b',fs,hb,hn,rfl⟩ := move_cases (next voteCount) s t k _ h
  obtain ⟨rfl,hstep⟩ := next_step voteCount s.shared b _ sh b' fs hn
  rw [List.append_nil]
  obtain ⟨htype,hjoined,hbar⟩ := step_barrier voteCount s.shared b (plan k) sh b' hstep
  have hsum := sum_map_set (fun b : Bot => if b.waited then 1 else 0) s.tasks k b b' hb
  have hcount := hs.counted
  have hroom := hs.room
  have hsound := bot_sound plan voteCount k s.shared b sh b' hstep
    (barrier_shut plan voteCount size types s hle hs k b hb) (hs.sound k b hb)
  have harr := arrive_counts s.shared.barrier (by rw [hs.sized]; exact hroom)
  have hgen : s.shared.barrier.generation ≤ sh.barrier.generation := by
    rcases hbar with ⟨he,_⟩ | ⟨he,_⟩ <;> rw [he]
    exact harr.2.2.1
  refine ⟨?_,?_,?_,?_,fun j c hc => ?_,fun j ok hj => ?_⟩
  · exact (map_set_same Bot.botType s.tasks k b b' hb htype).trans hs.planned
  · rcases hbar with ⟨he,_⟩ | ⟨he,_⟩ <;> dsimp only <;> rw [he]
    · exact hs.sized
    · exact harr.1.trans hs.sized
  · rcases hbar with ⟨he,_⟩ | ⟨he,_⟩ <;> dsimp only <;> rw [he]
    · exact hroom
    · exact Nat.lt_of_lt_of_eq harr.2.1 hs.sized
  · dsimp only
    unfold waitedCount at hcount ⊢
    rcases hbar with ⟨he,hw⟩ | ⟨he,hw,sent,hp⟩
    · rw [he]
      rw [hw] at hsum
      omega
    · have hnw := voting_unwaited plan voteCount _ k sent b (hs.sound k b hb) hp
      have hcnt := harr.2.2.2
      rw [hs.sized] at hcnt
      simp only [hw, hnw, if_true, Bool.false_eq_true, if_false] at hsum
      rw [he]
      omega
  · rcases getElem?_set_cases s.tasks k j b' c hc with ⟨rfl,rfl⟩ | ⟨_,hc⟩
    · exact hsound
    · exact sound_mono plan voteCount _ _ j c hgen (hs.sound j c hc)
  · rw [hjoined] at hj
    obtain ⟨c,hc,hp⟩ := hs.joined j ok hj
    have hjk : k ≠ j := by
      rintro rfl
      obtain rfl : b = c := Option.some.inj (hb.symm.trans hc)
      simp [next, hp] at hn
    exact ⟨c,by rwa [List.getElem?_set_ne hjk],hp⟩

theorem step_inv (plan : ℕ → ℕ → Bool) (voteCount size : ℕ) (types : List BotType) (s t : State)
    (a : Action) (hle : types.count .fickle ≤ size) (hs : Inv plan voteCount size types s)
    (h : step plan voteCount s a = some t) : Inv plan voteCount size types t := by
  cases a with
  | bot k option snapshot => exact move_inv plan voteCount size types s t k option snapshot hle hs h
  | join =>
    obtain ⟨ok,hok,rfl⟩ := Option.map_eq_some_iff.mp h
    obtain ⟨b,hb,hp⟩ := Option.bind_eq_some_iff.mp hok
    refine ⟨hs.planned,hs.sized,hs.room,hs.counted,hs.sound,fun k ok' hk => ?_⟩
    rcases Nat.lt_or_ge k s.shared.joined.length with hlt | hge
    · exact hs.joined k ok' (by rwa [List.getElem?_append_left hlt] at hk)
    · rw [List.getElem?_append_right hge, List.getElem?_singleton] at hk
      split_ifs at hk with h0
      cases hk
      obtain rfl : k = s.shared.joined.length := by omega
      refine ⟨b,hb,?_⟩
      cases hph : b.phase <;> simp_all [outcome]

/-! ## The end of a scenario -/

inductive Scenario : State → Prop where
  | single (count : ℕ) : Scenario (runSingleScenario count)
  | mixed (allocation : List (BotType × ℕ)) : Scenario (runMixedScenario allocation)

/-- No bot can take another step. -/
def Stuck (plan : ℕ → ℕ → Bool) (voteCount : ℕ) (s : State) : Prop :=
  ∀ k option snapshot, step plan voteCount s (.bot k option snapshot) = none

def AllReturned (s : State) : Prop :=
  ∀ (k : ℕ) b, s.tasks[k]? = some b → b.botType = .fickle → ∃ ok, b.phase = .returned ok

/-- No fickle bot fails before it reaches the barrier, or all do. -/
def Uniform (plan : ℕ → ℕ → Bool) (voteCount : ℕ) (types : List BotType) : Prop :=
  (∀ k, types[k]? = some .fickle → ¬ Early plan voteCount k) ∨
    ∀ k, types[k]? = some .fickle → Early plan voteCount k

theorem scenario_start (s : State) (h : Scenario s) :
    ∃ types : List BotType, s = start (max (types.count .fickle) 1) types := by
  cases h with
  | single count =>
    refine ⟨List.replicate count .fickle,?_⟩
    rw [List.count_replicate_self, runSingleScenario]
  | mixed allocation =>
    refine ⟨allocation.flatMap fun x => List.replicate x.2 x.1,?_⟩
    rw [count_fickle, runMixedScenario]

theorem stuck_bot (plan : ℕ → ℕ → Bool) (voteCount : ℕ) (s : State) (h : Stuck plan voteCount s)
    (k : ℕ) (b : Fickle.Bot) (hb : s.tasks[k]? = some b) :
    (∃ ok, b.phase = .returned ok) ∨ b.phase = .waiting s.shared.barrier.generation := by
  have hk := h k 0 none
  simp only [step, move, hb, Option.bind_some, Option.map_eq_none_iff] at hk
  exact next_blocked voteCount s.shared b _ hk

theorem planned_type (plan : ℕ → ℕ → Bool) (voteCount size : ℕ) (types : List BotType) (s : State)
    (hs : Inv plan voteCount size types s) (k : ℕ) :
    types[k]? = some .fickle ↔ ∃ b, s.tasks[k]? = some b ∧ b.botType = .fickle := by
  rw [← hs.planned, List.getElem?_map, Option.map_eq_some_iff]

theorem returned_uniform (plan : ℕ → ℕ → Bool) (voteCount : ℕ) (types : List BotType) (s : State)
    (hs : Inv plan voteCount (max (types.count .fickle) 1) types s) (hr : AllReturned s) :
    Uniform plan voteCount types := by
  have hret : ∀ k, types[k]? = some .fickle → ∃ b, s.tasks[k]? = some b ∧ b.botType = .fickle ∧
      (b.waited = true → ¬ Early plan voteCount k ∧ 1 ≤ s.shared.barrier.generation) ∧
      (b.waited = false → Early plan voteCount k) := fun k hk => by
    obtain ⟨b,hb,ht⟩ := (planned_type plan voteCount _ types s hs k).mp hk
    obtain ⟨ok,hp⟩ := hr k b hb ht
    have hsound := (hs.sound k b hb).1 ht
    simp only [FickleSound, hp] at hsound
    exact ⟨b,hb,ht,hsound⟩
  obtain ⟨hle,heq⟩ := inv_waited plan voteCount _ types s hs
  have hcount := hs.counted
  rcases Nat.eq_zero_or_pos s.shared.barrier.generation with hg | hg
  · refine Or.inr fun k hk => ?_
    obtain ⟨b,_,_,hyes,hno⟩ := hret k hk
    refine hno (by_contra fun hw => ?_)
    have hpos := (hyes (by simpa using hw)).2
    omega
  · -- the barrier has opened, so every fickle bot has called `wait`
    refine Or.inl fun k hk => ?_
    obtain ⟨b,hb,ht,hyes,_⟩ := hret k hk
    have hmul := Nat.le_mul_of_pos_right (max (types.count .fickle) 1) hg
    exact (hyes (heq.mp (by omega) k b hb ht)).1

theorem uniform_returned (plan : ℕ → ℕ → Bool) (voteCount : ℕ) (types : List BotType) (s : State)
    (hs : Inv plan voteCount (max (types.count .fickle) 1) types s) (hstuck : Stuck plan voteCount s)
    (hu : Uniform plan voteCount types) : AllReturned s := by
  intro k b hb ht
  refine (stuck_bot plan voteCount s hstuck k b hb).resolve_right fun hp => ?_
  have hsound := (hs.sound k b hb).1 ht
  simp only [FickleSound, hp] at hsound
  have hk := (planned_type plan voteCount _ types s hs k).mpr ⟨b,hb,ht⟩
  rcases hu with hok | hbad
  · -- all have called `wait`, and the barrier is still shut
    obtain ⟨_,heq⟩ := inv_waited plan voteCount _ types s hs
    have hall : waitedCount s.tasks = types.count .fickle := heq.mpr fun j c hc htc => by
      have hj := hok j ((planned_type plan voteCount _ types s hs j).mpr ⟨c,hc,htc⟩)
      have hsc := (hs.sound j c hc).1 htc
      rcases stuck_bot plan voteCount s hstuck j c hc with ⟨ok,hpc⟩ | hpc <;>
        simp only [FickleSound, hpc] at hsc
      · by_contra hw
        exact hj (hsc.2 (by simpa using hw))
      · exact hsc.1
    have hcount := hs.counted
    have hroom := hs.room
    rw [hsound.2.2, Nat.mul_zero] at hcount
    have hpos : 0 < types.count .fickle := List.count_pos_iff.mpr (List.mem_of_getElem? hk)
    omega
  · exact hsound.2.1 (hbad k hk)

theorem joined_all (plan : ℕ → ℕ → Bool) (voteCount size : ℕ) (types : List BotType) (s : State)
    (hs : Inv plan voteCount size types s) (hstuck : Stuck plan voteCount s)
    (hj : step plan voteCount s .join = none) :
    s.shared.joined.length = s.tasks.length ↔ AllReturned s := by
  constructor
  · intro hlen k b hb ht
    have hlt : k < s.shared.joined.length := by
      rw [hlen]
      exact (List.getElem?_eq_some_iff.mp hb).1
    obtain ⟨c,hc,hp⟩ := hs.joined k _ (List.getElem?_eq_getElem hlt)
    obtain rfl : b = c := Option.some.inj (hb.symm.trans hc)
    exact ⟨_,hp⟩
  · intro hr
    have hle : s.shared.joined.length ≤ s.tasks.length := by
      by_contra hlt
      obtain ⟨c,hc,_⟩ := hs.joined s.tasks.length _ (List.getElem?_eq_getElem (Nat.lt_of_not_le hlt))
      exact absurd (List.getElem?_eq_some_iff.mp hc).1 (Nat.lt_irrefl _)
    refine Nat.le_antisymm hle (Nat.le_of_not_lt fun hlt => ?_)
    have hb := List.getElem?_eq_getElem hlt
    have hret : ∃ ok, s.tasks[s.shared.joined.length].phase = .returned ok := by
      by_cases ht : s.tasks[s.shared.joined.length].botType = .fickle
      · exact hr _ _ hb ht
      · refine (stuck_bot plan voteCount s hstuck _ _ hb).resolve_right fun hp => ?_
        rcases ((hs.sound _ _ hb).2 ht).2 with hc | ⟨ok,hc⟩ <;> simp [hc] at hp
    obtain ⟨ok,hp⟩ := hret
    simp [step, hb, hp, outcome] at hj

/-- In every run of a scenario and every state in which no bot can move: all
fickle bots have returned, and the loop over the handles gets all its results,
exactly if no fickle bot fails before the barrier or all of them do. -/
theorem scenario_ends_iff (plan : ℕ → ℕ → Bool) (voteCount : ℕ) (first s : State) (as : List Action)
    (hfirst : Scenario first) (h : run (step plan voteCount) as first = some s)
    (hstuck : Stuck plan voteCount s) :
    (AllReturned s ↔ Uniform plan voteCount (first.tasks.map Bot.botType)) ∧
      (step plan voteCount s .join = none →
        (s.shared.joined.length = s.tasks.length ↔
          Uniform plan voteCount (first.tasks.map Bot.botType))) := by
  obtain ⟨types,rfl⟩ := scenario_start first hfirst
  have h0 := start_inv plan voteCount (max (types.count .fickle) 1) types (by omega)
  have hs : Inv plan voteCount (max (types.count .fickle) 1) types s :=
    run_invariant _ (fun s a t hs => step_inv plan voteCount _ types s t a (by omega) hs) as _ s h0 h
  rw [h0.planned]
  have hall : AllReturned s ↔ Uniform plan voteCount types :=
    ⟨returned_uniform plan voteCount types s hs,uniform_returned plan voteCount types s hs hstuck⟩
  exact ⟨hall,fun hj => (joined_all plan voteCount _ types s hs hstuck hj).trans hall⟩

/-- Two bots and one vote each; nothing fails. The second one to arrive leads. -/
def bothArrive : List Action :=
  List.replicate 4 (.bot 0 1 none)++List.replicate 14 (.bot 1 2 none)++
  List.replicate 5 (.bot 0 1 none)++[.join,.join]

def bothArriveEnd : State :=
  ⟨⟨⟨2,0,1⟩,[⟨some 2,none⟩,⟨some 1,none⟩],[true,true]⟩,
    [⟨.fickle,.returned true,some 1,true⟩,⟨.fickle,.returned true,some 2,true⟩]⟩

theorem both_arrive_return : AllReturned bothArriveEnd := by
  have hrun : run (step (fun _ _ => false) 1) bothArrive (runSingleScenario 2) = some bothArriveEnd := by
    decide +kernel
  have hstuck : Stuck (fun _ _ => false) 1 bothArriveEnd := by
    intro k option snapshot
    rcases k with _ | _ | k <;> rfl
  refine (scenario_ends_iff _ 1 _ bothArriveEnd bothArrive (.single 2) hrun hstuck).1.mpr (Or.inl ?_)
  rintro k _ ⟨i,_,hi⟩
  cases hi

/-- Two bots, and the connect of the second one fails: the first one votes and
waits for it. -/
def oneRefused (k i : ℕ) : Bool := k = 1 && i = 0

def refusedRun : List Action := .bot 1 0 none::List.replicate 4 (.bot 0 1 none)

def refusedEnd : State :=
  ⟨⟨⟨2,1,0⟩,[],[]⟩,[⟨.fickle,.waiting 0,some 1,true⟩,⟨.fickle,.returned false,none,false⟩]⟩

theorem refused_bot_hangs :
    ¬ ∀ plan voteCount first s as, Scenario first → run (step plan voteCount) as first = some s →
      Stuck plan voteCount s → AllReturned s := by
  intro hreturns
  have hrun : run (step oneRefused 1) refusedRun (runSingleScenario 2) = some refusedEnd := by
    decide +kernel
  have hstuck : Stuck oneRefused 1 refusedEnd := by
    intro k option snapshot
    rcases k with _ | _ | k <;> rfl
  obtain ⟨ok,hp⟩ := hreturns oneRefused 1 _ refusedEnd refusedRun (.single 2) hrun hstuck 0 _ rfl rfl
  cases hp

end RustChat.FickleBarrier
