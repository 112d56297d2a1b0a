import RustChat.ThrottleClock

/-!
# How far apart two snapshots are sent

The fast path measures the interval from the last timestamp, and a flush task
trusts the delay computed from it. Both are right as long as the timestamp
stays what it was when they relied on it.
-/

set_option autoImplicit false

namespace RustChat.ThrottleRate
open Runs TaskPool ThrottleClock
open Throttle hiding step init

variable {α : Type*}

/-- From the clock reading of a delay until the flush sets its own timestamp. -/
def flushing : Thread α → Bool
  | .delaying _ | .spawning _ _ | .sleeping _ _ | .taking | .reading _ | .stamping _ _ => true
  | _ => false

def moves (g : Gate α) : Thread α → Bool
  | .comparing _ now last => voteBroadcastThrottleMs ≤ now-last ∧ g.lastVoteBroadcastMs = last
  | .stamping _ _ => true
  | _ => false

/-- Whoever sends does it while the clock still shows the timestamp, and the
timestamp is moved only when no other thread is about to send, and no delay
computed from it is running or has run out without its flush. -/
def Prompt (s : Timed α) : Action α → Prop
  | .thread k clock => ∀ t ∈ s.room.tasks[k]?,
    ((emits t).isSome = true → clock = s.room.shared.lastVoteBroadcastMs) ∧
      (moves s.room.shared t = true → ∀ u ∈ s.room.tasks.eraseIdx k, emits u = none ∧ flushing u = false)
  | _ => True

def reading : Thread α → Option ℕ
  | .clocked _ now | .comparing _ now _ | .stamping _ now => some now
  | _ => none

/-- What the delay of a flush makes sure of, relative to the timestamp it was
computed from. -/
def Late (last clock : ℕ) : Thread α → Prop
  | .delaying now => last ≤ now
  | .spawning since delay | .sleeping since delay => last+voteBroadcastThrottleMs ≤ since+delay
  | .taking | .reading _ => last+voteBroadcastThrottleMs ≤ clock
  | .stamping _ now => last+voteBroadcastThrottleMs ≤ now
  | _ => True

theorem late_idle (last clock : ℕ) (t : Thread α) (h : flushing t = false) : Late last clock t := by
  cases t <;> simp_all [flushing, Late]

theorem late_mono (last c d : ℕ) (t : Thread α) (hle : c ≤ d) (h : Late last c t) : Late last d t := by
  cases t with
  | taking | reading => exact Nat.le_trans h hle
  | _ => exact h

theorem next_reading (g g' : Gate α) (t t' : Thread α) (fs : List (Thread α)) (clock : ℕ)
    (h : next g t clock = some (g',t',fs)) :
    (∀ n, reading t' = some n → n = clock ∨ reading t = some n) ∧
      ∀ f ∈ fs, reading f = none ∧ emits f = none := by
  cases next_step g g' t t' fs clock h <;> simp [reading, emits, eq_comm]

/-- The check and the delay: the timestamp stays, or it is set an interval
later to a reading of this thread; and a delay leads to a flush that is late
enough for the timestamp it was computed from. -/
theorem next_late (g g' : Gate α) (t t' : Thread α) (fs : List (Thread α)) (now clock : ℕ)
    (h : next g t clock = some (g',t',fs)) (hlast : g.lastVoteBroadcastMs ≤ clock) (hle : now ≤ clock)
    (hdue : due clock t = true) (hl : Late g.lastVoteBroadcastMs now t) :
    Late g'.lastVoteBroadcastMs clock t' ∧ (∀ f ∈ fs, Late g'.lastVoteBroadcastMs clock f) ∧
      (moves g t = false ∧ g'.lastVoteBroadcastMs = g.lastVoteBroadcastMs ∧ emits t' = none ∨
        moves g t = true ∧ emits t = none ∧ reading t = some g'.lastVoteBroadcastMs ∧
          g.lastVoteBroadcastMs+voteBroadcastThrottleMs ≤ g'.lastVoteBroadcastMs) := by
  cases next_step g g' t t' fs clock h with
  | win m n last hc =>
    obtain ⟨hfar,rfl⟩ := hc
    refine ⟨trivial,by simp,Or.inr ⟨by simp [moves, hfar],rfl,rfl,?_⟩⟩
    simp only [voteBroadcastThrottleMs] at hfar ⊢
    omega
  | stamp m n => exact ⟨trivial,by simp,Or.inr ⟨rfl,rfl,rfl,hl⟩⟩
  | lose m n last =>
    refine ⟨trivial,by simp,Or.inl ⟨?_,rfl,rfl⟩⟩
    by_contra hmoves
    simp only [moves, Bool.not_eq_false, decide_eq_true_eq] at hmoves
    simp [next, hmoves] at h
  | schedule => exact ⟨hlast,by simp,Or.inl ⟨rfl,rfl,rfl⟩⟩
  | delay n =>
    refine ⟨?_,by simp,Or.inl ⟨rfl,rfl,rfl⟩⟩
    simp only [Late, scheduleDelay, voteBroadcastThrottleMs] at hl ⊢
    omega
  | spawn since delay => exact ⟨trivial,by simpa [Late] using hl,Or.inl ⟨rfl,rfl,rfl⟩⟩
  | wake since delay =>
    refine ⟨Nat.le_trans hl ?_,by simp,Or.inl ⟨rfl,rfl,rfl⟩⟩
    simpa [due] using hdue
  | take m hp => exact ⟨Nat.le_trans hl hle,by simp,Or.inl ⟨rfl,rfl,rfl⟩⟩
  | read m => exact ⟨Nat.le_trans hl hle,by simp,Or.inl ⟨rfl,rfl,rfl⟩⟩
  | _ => exact ⟨trivial,by simp,Or.inl ⟨rfl,rfl,rfl⟩⟩

/-! ## The whole run -/

/-- Readings lie in the past, delays end late enough, no send is later than
the timestamp, and the one thread that is about to send has set it. -/
structure Paced (s : Timed α) : Prop where
  readings : ∀ t ∈ s.room.tasks, ∀ n, reading t = some n → n ≤ s.now
  last : s.room.shared.lastVoteBroadcastMs ≤ s.now
  late : ∀ t ∈ s.room.tasks, Late s.room.shared.lastVoteBroadcastMs s.now t
  spaced : s.sentAt.Pairwise fun a b => a+voteBroadcastThrottleMs ≤ b
  stamped : ∀ x ∈ s.sentAt, x ≤ s.room.shared.lastVoteBroadcastMs
  single : ∀ (k : ℕ) t, s.room.tasks[k]? = some t → emits t ≠ none →
    (∀ x ∈ s.sentAt, x+voteBroadcastThrottleMs ≤ s.room.shared.lastVoteBroadcastMs) ∧
      ∀ (j : ℕ) u, s.room.tasks[j]? = some u → j ≠ k → emits u = none

theorem call_paced (s : Timed α) (m : α) (hs : Paced s) :
    Paced { s with room := enter s.room m } := by
  have hnew : ∀ (j : ℕ) u, (enter s.room m).tasks[j]? = some u → emits u ≠ none →
      s.room.tasks[j]? = some u := by
    intro j u hu he
    rcases Nat.lt_or_ge j s.room.tasks.length with hj | hj
    · rwa [enter, List.getElem?_append_left hj] at hu
    · rw [enter, List.getElem?_append_right hj, List.getElem?_singleton] at hu
      split_ifs at hu
      cases hu
      exact absurd rfl he
  refine ⟨fun t ht n hn => ?_,hs.last,fun t ht => ?_,hs.spaced,hs.stamped,fun k t ht he => ?_⟩
  · rcases List.mem_append.mp ht with ht | ht
    · exact hs.readings t ht n hn
    · simp [List.mem_singleton.mp ht, reading] at hn
  · rcases List.mem_append.mp ht with ht | ht
    · exact hs.late t ht
    · rw [List.mem_singleton.mp ht]
      trivial
  · obtain ⟨hx,hother⟩ := hs.single k t (hnew k t ht he) he
    refine ⟨hx,fun j u hu hjk => ?_⟩
    by_contra hne
    exact hne (hother j u (hnew j u hu hne) hjk)

section Thread
variable {s : Timed α} {k clock : ℕ} {t t' : Thread α} {g : Gate α} {fs : List (Thread α)}

theorem thread_readings (hs : Paced s) (ht : s.room.tasks[k]? = some t) (hle : s.now ≤ clock)
    (hn : next s.room.shared t clock = some (g,t',fs)) :
    ∀ u ∈ s.room.tasks.set k t'++fs, ∀ n, reading u = some n → n ≤ clock := by
  obtain ⟨hread,hfork⟩ := next_reading s.room.shared g t t' fs clock hn
  intro u hu n hun
  rcases List.mem_append.mp hu with hu | hu
  · rcases List.mem_or_eq_of_mem_set hu with hu | rfl
    · exact (hs.readings u hu n hun).trans hle
    · rcases hread n hun with rfl | hold
      · exact Nat.le_refl n
      · exact (hs.readings t (List.mem_of_getElem? ht) n hold).trans hle
  · rw [(hfork u hu).1] at hun
    cases hun

/-- Whoever is about to send after a step that commits nobody was before it. -/
theorem quiet_emitter (hn : next s.room.shared t clock = some (g,t',fs)) (hquiet : emits t' = none) (j : ℕ)
    (u : Thread α) (hu : (s.room.tasks.set k t'++fs)[j]? = some u) (he : emits u ≠ none) :
    s.room.tasks[j]? = some u ∧ j ≠ k := by
  have hfork := (next_reading s.room.shared g t t' fs clock hn).2
  rcases getElem?_grown_cases s.room.tasks fs k j t' u hu with ⟨rfl,rfl⟩ | ⟨hjk,hu⟩ | ⟨_,hu⟩
  · exact absurd hquiet he
  · exact ⟨hu,hjk⟩
  · exact absurd (hfork u (List.mem_of_getElem? hu)).2 he

/-- A step that leaves the timestamp alone, and may send. -/
theorem stay_paced (hs : Paced s) (ht : s.room.tasks[k]? = some t) (hle : s.now ≤ clock)
    (hn : next s.room.shared t clock = some (g,t',fs))
    (hsame : g.lastVoteBroadcastMs = s.room.shared.lastVoteBroadcastMs) (hquiet : emits t' = none)
    (hlate : Late g.lastVoteBroadcastMs clock t') (hlates : ∀ f ∈ fs, Late g.lastVoteBroadcastMs clock f)
    (hclock : (emits t).isSome = true → clock = s.room.shared.lastVoteBroadcastMs) (b : Bool) :
    Paced ⟨⟨g,s.room.tasks.set k t'++fs⟩,clock,s.sentAt++(emits t).toList.map fun _ => clock,b⟩ := by
  have hall : ∀ u ∈ s.room.tasks.set k t'++fs, Late g.lastVoteBroadcastMs clock u := by
    intro u hu
    rcases List.mem_append.mp hu with hu | hu
    · rcases List.mem_or_eq_of_mem_set hu with hu | rfl
      · rw [hsame]
        exact late_mono _ s.now clock u hle (hs.late u hu)
      · exact hlate
    · exact hlates u hu
  have hnow : g.lastVoteBroadcastMs ≤ clock := hsame ▸ hs.last.trans hle
  cases he : emits t with
  | none =>
    refine ⟨thread_readings hs ht hle hn,hnow,hall,by simpa using hs.spaced,
      by simpa [hsame] using hs.stamped,fun j u hu hne => ?_⟩
    obtain ⟨hx,hother⟩ := hs.single j u (quiet_emitter hn hquiet j u hu hne).1 hne
    refine ⟨by simpa [hsame] using hx,fun i v hv hij => ?_⟩
    by_contra hv'
    exact hv' (hother i v (quiet_emitter hn hquiet i v hv hv').1 hij)
  | some x =>
    obtain rfl := hclock (by simp [he])
    obtain ⟨hx,hother⟩ := hs.single k t ht (by simp [he])
    refine ⟨thread_readings hs ht hle hn,hnow,hall,?_,fun a ha => ?_,fun j u hu hne => ?_⟩
    · refine List.pairwise_append.mpr ⟨hs.spaced,List.pairwise_singleton _ _,fun a ha b hb => ?_⟩
      obtain rfl : b = _ := by simpa using hb
      exact hx a ha
    · rw [hsame]
      rcases List.mem_append.mp ha with ha | ha
      · exact hs.stamped a ha
      · obtain rfl : a = _ := by simpa using ha
        exact Nat.le_refl _
    · obtain ⟨hu,hjk⟩ := quiet_emitter hn hquiet j u hu hne
      exact absurd (hother j u hu hjk) hne

/-- A step that sets the timestamp, while no other thread is about to send or
relies on the old one. -/
theorem move_paced (hs : Paced s) (ht : s.room.tasks[k]? = some t) (hle : s.now ≤ clock)
    (hn : next s.room.shared t clock = some (g,t',fs)) (hnone : emits t = none)
    (hset : reading t = some g.lastVoteBroadcastMs)
    (hfar : s.room.shared.lastVoteBroadcastMs+voteBroadcastThrottleMs ≤ g.lastVoteBroadcastMs)
    (hlate : Late g.lastVoteBroadcastMs clock t') (hlates : ∀ f ∈ fs, Late g.lastVoteBroadcastMs clock f)
    (halone : ∀ u ∈ s.room.tasks.eraseIdx k, emits u = none ∧ flushing u = false) (b : Bool) :
    Paced ⟨⟨g,s.room.tasks.set k t'++fs⟩,clock,s.sentAt++(emits t).toList.map fun _ => clock,b⟩ := by
  have hidle : ∀ (j : ℕ) u, (s.room.tasks.set k t'++fs)[j]? = some u →
      (j = k ∧ u = t') ∨ (j ≠ k ∧ emits u = none ∧ Late g.lastVoteBroadcastMs clock u) := by
    intro j u hu
    have hk := (List.getElem?_eq_some_iff.mp ht).1
    rcases getElem?_grown_cases s.room.tasks fs k j t' u hu with hself | ⟨hjk,hu⟩ | ⟨hlen,hu⟩
    · exact Or.inl hself
    · obtain ⟨he,hf⟩ := halone u (List.mem_eraseIdx_iff_getElem?.mpr ⟨j,hjk,hu⟩)
      exact Or.inr ⟨hjk,he,late_idle _ _ u hf⟩
    · have hu := List.mem_of_getElem? hu
      exact Or.inr ⟨by omega,((next_reading s.room.shared g t t' fs clock hn).2 u hu).2,hlates u hu⟩
  have hstamped : ∀ x ∈ s.sentAt, x+voteBroadcastThrottleMs ≤ g.lastVoteBroadcastMs := fun x hx =>
    (Nat.add_le_add_right (hs.stamped x hx) _).trans hfar
  rw [hnone, Option.toList_none, List.map_nil, List.append_nil]
  refine ⟨thread_readings hs ht hle hn,(hs.readings t (List.mem_of_getElem? ht) _ hset).trans hle,
    fun u hu => ?_,hs.spaced,fun x hx => (Nat.le_add_right x _).trans (hstamped x hx),fun j u hu hne => ?_⟩
  · obtain ⟨j,hj⟩ := List.mem_iff_getElem?.mp hu
    rcases hidle j u hj with ⟨_,rfl⟩ | ⟨_,_,hl⟩
    · exact hlate
    · exact hl
  · rcases hidle j u hu with ⟨rfl,rfl⟩ | ⟨_,he,_⟩
    · refine ⟨hstamped,fun i v hv hij => ?_⟩
      rcases hidle i v hv with ⟨h0,_⟩ | ⟨_,hv,_⟩
      · exact absurd h0 hij
      · exact hv
    · exact absurd he hne

end Thread

theorem thread_paced (s s' : Timed α) (k clock : ℕ) (hs : Paced s) (hc : Prompt s (.thread k clock))
    (h : step s (.thread k clock) = some s') : Paced s' := by
  obtain ⟨t,g,t',fs,ht,hle,hdue,hn,rfl⟩ := step_thread s s' k clock h
  obtain ⟨hclock,halone⟩ := hc t ht
  obtain ⟨hlate,hlates,⟨_,hsame,hquiet⟩ | ⟨hmoves,hnone,hset,hfar⟩⟩ := next_late s.room.shared g t t' fs
    s.now clock hn (hs.last.trans hle) hle hdue (hs.late t (List.mem_of_getElem? ht))
  · exact stay_paced hs ht hle hn hsame hquiet hlate hlates hclock _
  · exact move_paced hs ht hle hn hnone hset hfar hlate hlates (halone hmoves) _

theorem run_sentAt (as : List (Action α)) (s : Timed α) (h : run step as init = some s) :
    s.sentAt.length = s.room.shared.sent.length := by
  refine run_invariant (fun s => s.sentAt.length = s.room.shared.sent.length) ?_ as init s rfl h
  intro s a s' hs ha
  cases a with
  | call m =>
    cases ha
    exact hs
  | thread k clock =>
    obtain ⟨t,g,t',fs,_,_,_,hn,rfl⟩ := step_thread s s' k clock ha
    simp [next_sent s.room.shared g t t' fs clock hn, hs]

/-- For any number of callers and flush tasks and any interleaving in time. If
no thread is delayed between its timestamp and its send, and the timestamp is
not moved between the computation of a delay and its flush, then any two
snapshots are sent at least an interval apart. -/
theorem sends_apart (as : List (Action α)) (s : Timed α) (h : run step as init = some s)
    (hg : Guarded step Prompt as init) :
    s.sentAt.length = s.room.shared.sent.length ∧
      s.sentAt.Pairwise fun a b => a+voteBroadcastThrottleMs ≤ b := by
  refine ⟨run_sentAt as s h,?_⟩
  have hpaced : Paced s := by
    refine guarded_invariant Prompt Paced ?_ as init s ?_ hg h
    · intro s a s' hs hc ha
      cases a with
      | call m =>
        cases ha
        exact call_paced s m hs
      | thread k clock => exact thread_paced s s' k clock hs hc ha
    · exact ⟨by simp [init, Throttle.init],Nat.le_refl _,by simp [init, Throttle.init],List.Pairwise.nil,
        by simp [init],by simp [init, Throttle.init]⟩
  exact hpaced.spaced

instance (s : Timed α) : (a : Action α) → Decidable (Prompt s a)
  | .call _ => instDecidableTrue
  | .thread k clock =>
    have (u : Thread α) : Decidable (emits u = none) := decidable_of_iff _ Option.isNone_iff_eq_none
    have : Decidable (∀ t ∈ s.room.tasks[k]?,
      ((emits t).isSome = true → clock = s.room.shared.lastVoteBroadcastMs) ∧
        (moves s.room.shared t = true →
          ∀ u ∈ s.room.tasks.eraseIdx k, emits u = none ∧ flushing u = false)) := inferInstance
    this

def onTime : List (Action ℕ) :=
  .call 1::List.replicate 4 (.thread 0 1000)++.call 2::List.replicate 8 (.thread 1 1010)++
  List.replicate 5 (.thread 2 1050)

def onTimeEnd : Timed ℕ := (run step onTime init).get (by decide +kernel)

theorem on_time_apart :
    onTimeEnd.sentAt = [1000,1050] ∧
      onTimeEnd.sentAt.Pairwise fun a b => a+voteBroadcastThrottleMs ≤ b := by
  have hrun : run step onTime init = some onTimeEnd := (Option.some_get _).symm
  exact ⟨by decide +kernel,(sends_apart onTime onTimeEnd hrun (by decide +kernel)).2⟩

/-! ## A flush right after the fast path -/

/-- The flush is due at 1050, as a third call is sent, and runs at 1051. -/
def flushedAfterFastPath : List (Action ℕ) :=
  .call 1::List.replicate 4 (.thread 0 1000)++.call 2::List.replicate 8 (.thread 1 1010)++
  .call 3::List.replicate 4 (.thread 3 1050)++List.replicate 5 (.thread 2 1051)

def flushedAfterFastPathEnd : Timed ℕ := (run step flushedAfterFastPath init).get (by decide +kernel)

theorem flush_after_fast_path_too_close :
    ¬ ∀ (as : List (Action ℕ)) (s : Timed ℕ), run step as init = some s →
      s.sentAt.Pairwise fun a b => a+voteBroadcastThrottleMs ≤ b := by
  intro hspaced
  have hrun : run step flushedAfterFastPath init = some flushedAfterFastPathEnd :=
    (Option.some_get _).symm
  have hsent : flushedAfterFastPathEnd.sentAt = [1000,1050,1051] := by decide +kernel
  have hpair := hspaced _ _ hrun
  rw [hsent] at hpair
  exact absurd hpair (by decide)

end RustChat.ThrottleRate
