import Mathlib.Algebra.Order.BigOperators.Group.List
import Mathlib.Data.Multiset.OrderedMonoid
import Mathlib.Tactic.Abel
import RustChat.Throttle

/-!
# The throttle loses no last word

The flag is cleared before the slot is taken and set after it is filled, with
no lock over both. The invariant names, for a full slot, the thread that will
empty it, and says where the argument of every call is: sent, overwritten in
the slot, in the slot, or in the hands of one thread.
-/

set_option autoImplicit false

namespace RustChat.ThrottleInvariant
open Runs TaskPool Throttle

variable {α : Type*}

/-- A flush task that has still to execute its `take()`. -/
def BeforeTake : Thread α → Prop
  | .sleeping _ _ | .taking => True
  | _ => False

/-- A caller that found the flag clear in its swap and has still to spawn. -/
def BeforeSpawn : Thread α → Prop
  | .scheduling | .delaying _ | .spawning _ _ => True
  | _ => False

/-- A thread that will clear the flag, or spawn the task that does. -/
def WillClear : Thread α → Prop
  | .sleeping _ _ | .scheduling | .delaying _ | .spawning _ _ => True
  | _ => False

structure Wired (s : State α) : Prop where
  flag : s.shared.voteFlushScheduled = true → ∃ t ∈ s.tasks, WillClear t
  slot : s.shared.pendingVoteBroadcast.isSome = true →
    (∃ t ∈ s.tasks, BeforeTake t) ∨
    (s.shared.voteFlushScheduled = false ∧ ∃ t ∈ s.tasks, t = .swapping) ∨
    ∃ t ∈ s.tasks, BeforeSpawn t

theorem next_flag (g g' : Gate α) (t t' : Thread α) (fs : List (Thread α)) (clock : ℕ)
    (h : next g t clock = some (g',t',fs)) (hf : g'.voteFlushScheduled = true) :
    WillClear t' ∨ g.voteFlushScheduled = true ∧ (WillClear t → ∃ f ∈ fs, WillClear f) := by
  cases next_step g g' t t' fs clock h with
  | raise | schedule | delay => exact Or.inl trivial
  | spawn now delay => exact Or.inr ⟨hf,fun _ => ⟨_,List.mem_singleton_self _,trivial⟩⟩
  | wake => simp at hf
  | _ => exact Or.inr ⟨hf,False.elim⟩

theorem willClear_cases (t : Thread α) (h : WillClear t) : BeforeTake t ∨ BeforeSpawn t := by
  cases t <;> simp_all [WillClear, BeforeTake, BeforeSpawn]

theorem next_slot (g g' : Gate α) (t t' : Thread α) (fs : List (Thread α)) (clock : ℕ)
    (h : next g t clock = some (g',t',fs)) (hs : g'.pendingVoteBroadcast.isSome = true) :
    t' = .swapping ∨ BeforeSpawn t' ∨
    (g.pendingVoteBroadcast.isSome = true ∧
      (g'.voteFlushScheduled = true → g.voteFlushScheduled = true) ∧
      (t = .swapping → g.voteFlushScheduled = true) ∧
      (BeforeTake t → BeforeTake t') ∧ (BeforeSpawn t → ∃ f ∈ fs, BeforeTake f)) := by
  cases next_step g g' t t' fs clock h with
  | park => exact Or.inl rfl
  | raise | schedule | delay => exact Or.inr (Or.inl trivial)
  | rely hf => exact Or.inr (Or.inr ⟨hs,id,fun _ => hf,False.elim,False.elim⟩)
  | spawn => exact Or.inr (Or.inr ⟨hs,id,by simp,False.elim,fun _ => ⟨_,List.mem_singleton_self _,trivial⟩⟩)
  | wake => exact Or.inr (Or.inr ⟨hs,by simp,by simp,id,False.elim⟩)
  | take => simp at hs
  | miss hp => simp [hp] at hs
  | _ => exact Or.inr (Or.inr ⟨hs,id,by simp,False.elim,False.elim⟩)

theorem move_wired (p q : State α) (k clock : ℕ) (hw : Wired p) (h : move next p k clock = some q) :
    Wired q := by
  obtain ⟨t,g',t',fs,ht,hn,rfl⟩ := move_cases next p q k clock h
  have ht' : t' ∈ p.tasks.set k t'++fs := List.mem_append_left _ (mem_set_self p.tasks k t t' ht)
  have hflag : g'.voteFlushScheduled = true → ∃ u ∈ p.tasks.set k t'++fs, WillClear u := by
    intro hf
    rcases next_flag p.shared g' t t' fs clock hn hf with hc | ⟨hf,hk⟩
    · exact ⟨t',ht',hc⟩
    · exact exists_grown _ _ p.tasks fs k t t' ht (fun hc => Or.inr (hk hc)) (fun _ => id) (hw.flag hf)
  refine ⟨hflag,fun hs => ?_⟩
  rcases next_slot p.shared g' t t' fs clock hn hs with hsw | hbs | ⟨hp,hf,hsf,hbt,hbs⟩
  · by_cases hf : g'.voteFlushScheduled = true
    · obtain ⟨u,hu,hc⟩ := hflag hf
      rcases willClear_cases u hc with hb | hb
      · exact Or.inl ⟨u,hu,hb⟩
      · exact Or.inr (Or.inr ⟨u,hu,hb⟩)
    · exact Or.inr (Or.inl ⟨by simpa using hf,t',ht',hsw⟩)
  · exact Or.inr (Or.inr ⟨t',ht',hbs⟩)
  · rcases hw.slot hp with hb | ⟨hfalse,hb⟩ | hb
    · exact Or.inl (exists_grown _ _ p.tasks fs k t t' ht (fun h => Or.inl (hbt h)) (fun _ => id) hb)
    · refine Or.inr (Or.inl ⟨?_,exists_grown _ _ p.tasks fs k t t' ht (fun h => ?_) (fun _ => id) hb⟩)
      · by_contra hg
        simp [hf (by simpa using hg)] at hfalse
      · simp [hsf h] at hfalse
    · have hu : ∃ u ∈ p.tasks.set k t'++fs, BeforeTake u ∨ BeforeSpawn u :=
        exists_grown _ _ p.tasks fs k t t' ht
          (fun h => Or.inr ((hbs h).imp fun f hf => ⟨hf.1,Or.inl hf.2⟩)) (fun _ => Or.inr) hb
      obtain ⟨u,hu,hb | hb⟩ := hu
      · exact Or.inl ⟨u,hu,hb⟩
      · exact Or.inr (Or.inr ⟨u,hu,hb⟩)

theorem next_settled (g g' : Gate α) (t t' : Thread α) (fs : List (Thread α)) (clock : ℕ)
    (h : next g t clock = some (g',t',fs)) :
    settled g'+(carried t'+(fs.map carried).sum) = settled g+carried t := by
  cases next_step g g' t t' fs clock h with
  | park m =>
    cases hp : g.pendingVoteBroadcast with
    | none => simp [settled, carried, held, hp]
    | some x =>
      simp [settled, carried, held, hp, ← Multiset.coe_add]
      abel
  | take m hp => simp [settled, carried, held, hp]
  | send m | flush m =>
    simp [settled, carried, held, ← Multiset.coe_add]
    abel
  | _ => simp [settled, carried, held]

theorem next_passed (g g' : Gate α) (t t' : Thread α) (fs : List (Thread α)) (clock : ℕ)
    (h : next g t clock = some (g',t',fs)) : g'.passed = g.passed := by
  cases next_step g g' t t' fs clock h <;> rfl

theorem mem_tickets (passed : List α) (x : Ticket α) :
    x ∈ tickets passed ↔ passed[x.call]? = some x.msg := by
  simp only [tickets, List.mem_map, Prod.exists]
  constructor
  · rintro ⟨m,n,hm,rfl⟩
    exact List.mem_zipIdx_iff_getElem?.mp hm
  · intro h
    exact ⟨x.msg,x.call,List.mem_zipIdx_iff_getElem?.mpr h,rfl⟩

theorem tickets_calls (passed : List α) :
    (tickets passed).map Ticket.call = List.range passed.length := by
  rw [tickets, List.map_map, List.range_eq_range', ← List.zipIdx_map_snd 0 passed]
  rfl

theorem tickets_snoc (passed : List α) (m : α) :
    tickets (passed++[m]) = tickets passed++[⟨passed.length,m⟩] := by
  simp [tickets, List.zipIdx_append]

/-- Every argument passed in so far is in exactly one place. -/
def Accounted (s : State α) : Prop :=
  settled s.shared+(s.tasks.map carried).sum = tickets s.shared.passed

structure Inv (s : State α) : Prop where
  accounted : Accounted s
  wired : Wired s

theorem init_inv : Inv (init : State α) :=
  ⟨by simp [Accounted, settled, init, tickets],⟨by simp [init],by simp [init]⟩⟩

theorem enter_inv (s : State α) (m : α) (hs : Inv s) : Inv (enter s m) := by
  refine ⟨?_,⟨fun hf => ?_,fun hp => ?_⟩⟩
  · have ha := hs.accounted
    simp only [Accounted, enter, settled, tickets_snoc, List.map_append, List.sum_append] at ha ⊢
    rw [← add_assoc, ha, ← Multiset.coe_add]
    simp [carried, held]
  · obtain ⟨u,hu,hc⟩ := hs.wired.flag hf
    exact ⟨u,List.mem_append_left _ hu,hc⟩
  · rcases hs.wired.slot hp with ⟨u,hu,hc⟩ | ⟨hf,u,hu,hc⟩ | ⟨u,hu,hc⟩
    · exact Or.inl ⟨u,List.mem_append_left _ hu,hc⟩
    · exact Or.inr (Or.inl ⟨hf,u,List.mem_append_left _ hu,hc⟩)
    · exact Or.inr (Or.inr ⟨u,List.mem_append_left _ hu,hc⟩)

theorem move_inv (p q : State α) (k clock : ℕ) (hp : Inv p) (h : move next p k clock = some q) :
    Inv q := by
  refine ⟨?_,move_wired p q k clock hp.wired h⟩
  have hc := move_conserved settled carried next p q k clock
    (fun t s t' fs _ hn => next_settled p.shared s t t' fs clock hn) h
  obtain ⟨t,g',t',fs,ht,hn,rfl⟩ := move_cases next p q k clock h
  have hpass := next_passed p.shared g' t t' fs clock hn
  rw [Accounted, hc, hp.accounted, hpass]

theorem step_inv (s : State α) (a : Action α) (t : State α) (hs : Inv s) (h : step s a = some t) :
    Inv t := by
  cases a with
  | call m =>
    obtain rfl : enter s m = t := Option.some.inj h
    exact enter_inv s m hs
  | thread k clock => exact move_inv s t k clock hs h

theorem run_inv (as : List (Action α)) (s : State α) (h : run step as init = some s) : Inv s :=
  run_invariant Inv step_inv as init s init_inv h


/-! ## Nothing is sent twice, nothing is invented -/

theorem all_calls_nodup (s : State α) (hs : Inv s) :
    ((settled s.shared+(s.tasks.map carried).sum).map Ticket.call).Nodup := by
  rw [hs.accounted, Multiset.map_coe, Multiset.coe_nodup, tickets_calls]
  exact List.nodup_range

theorem settled_passed (s : State α) (hs : Inv s) (x : Ticket α) (hx : x ∈ settled s.shared) :
    s.shared.passed[x.call]? = some x.msg := by
  have hm : x ∈ (tickets s.shared.passed : Multiset (Ticket α)) := by
    rw [← hs.accounted]
    exact Multiset.mem_add.mpr (Or.inl hx)
  exact (mem_tickets _ x).mp (Multiset.mem_coe.mp hm)

theorem settled_nodup (s : State α) (hs : Inv s) : ((settled s.shared).map Ticket.call).Nodup := by
  have hn := all_calls_nodup s hs
  rw [Multiset.map_add] at hn
  exact (Multiset.nodup_add.mp hn).1

theorem sent_nodup (s : State α) (hs : Inv s) : (s.shared.sent.map Ticket.call).Nodup := by
  have hn := settled_nodup s hs
  rw [settled, add_assoc, Multiset.map_add] at hn
  exact Multiset.coe_nodup.mp (Multiset.nodup_add.mp hn).1

theorem sent_not_overwritten (s : State α) (hs : Inv s) (x w : Ticket α) (hx : x ∈ s.shared.sent) :
    (x,w) ∉ s.shared.overwritten := by
  intro hw
  have hn := settled_nodup s hs
  rw [settled, add_assoc, Multiset.map_add] at hn
  have hd := (Multiset.nodup_add.mp hn).2.2
  have h1 : x.call ∈ Multiset.map Ticket.call (s.shared.sent : Multiset (Ticket α)) :=
    Multiset.mem_map_of_mem _ (Multiset.mem_coe.mpr hx)
  refine Multiset.disjoint_left.mp hd h1 (Multiset.mem_map_of_mem _ (Multiset.mem_add.mpr (Or.inl ?_)))
  exact Multiset.mem_coe.mpr (List.mem_map.mpr ⟨(x,w),hw,rfl⟩)

/-- No caller is inside the function and no flush task is outstanding. -/
def Quiescent (s : State α) : Prop := ∀ t ∈ s.tasks, t = .returned ∨ t = .flushed

theorem quiescent_slot (s : State α) (hs : Inv s) (hq : Quiescent s) :
    s.shared.pendingVoteBroadcast = none := by
  by_contra hp
  rcases hs.wired.slot (by simpa [Option.isSome_iff_ne_none] using hp) with
    ⟨t,ht,hb⟩ | ⟨_,t,ht,hb⟩ | ⟨t,ht,hb⟩ <;> rcases hq t ht with rfl | rfl <;> cases hb

theorem quiescent_flag (s : State α) (hs : Inv s) (hq : Quiescent s) :
    s.shared.voteFlushScheduled = false := by
  by_contra hf
  obtain ⟨t,ht,hb⟩ := hs.wired.flag (by simpa using hf)
  rcases hq t ht with rfl | rfl <;> cases hb

theorem quiescent_settled (s : State α) (hs : Inv s) (hq : Quiescent s) :
    settled s.shared = tickets s.shared.passed := by
  have hz : (s.tasks.map carried).sum = 0 := by
    apply List.sum_eq_zero
    intro x hx
    obtain ⟨t,ht,rfl⟩ := List.mem_map.mp hx
    rcases hq t ht with rfl | rfl <;> rfl
  rw [← hs.accounted, hz, add_zero]

theorem quiescent_fate (s : State α) (hs : Inv s) (hq : Quiescent s) (x : Ticket α)
    (hx : s.shared.passed[x.call]? = some x.msg) :
    x ∈ s.shared.sent ∨ ∃ w, (x,w) ∈ s.shared.overwritten := by
  have hm : x ∈ settled s.shared := by
    rw [quiescent_settled s hs hq]
    exact Multiset.mem_coe.mpr ((mem_tickets _ x).mpr hx)
  simpa [settled, quiescent_slot s hs hq] using hm


/-! ## The last call -/

def InCall : Thread α → Prop
  | .entered _ | .clocked _ _ | .comparing _ _ _ | .sending _ | .parking _ => True
  | .swapping | .scheduling | .delaying _ | .spawning _ _ => True
  | _ => False

theorem next_call (g g' : Gate α) (t t' : Thread α) (fs : List (Thread α)) (clock : ℕ)
    (h : next g t clock = some (g',t',fs)) :
    (InCall t' → InCall t ∧ ∀ x, held t' = some x → held t = some x) ∧ ∀ f ∈ fs, ¬ InCall f := by
  cases next_step g g' t t' fs clock h <;> simp [InCall, held]

theorem next_overwritten (g g' : Gate α) (t t' : Thread α) (fs : List (Thread α)) (clock : ℕ)
    (h : next g t clock = some (g',t',fs)) (x w : Ticket α) (hx : (x,w) ∈ g'.overwritten) :
    (x,w) ∈ g.overwritten ∨ t = .parking w ∧ g.pendingVoteBroadcast = some x := by
  cases next_step g g' t t' fs clock h with
  | park m =>
    rcases List.mem_append.mp hx with hx | hx
    · exact Or.inl hx
    · simp only [List.mem_map, Option.mem_toList, Prod.mk.injEq] at hx
      obtain ⟨y,hy,rfl,rfl⟩ := hx
      exact Or.inr ⟨rfl,hy⟩
  | _ => exact Or.inl hx

theorem parked_other (s : State α) (hs : Inv s) (k : ℕ) (x w : Ticket α)
    (hk : s.tasks[k]? = some (.parking w)) (hp : s.shared.pendingVoteBroadcast = some x) :
    x.call ≠ w.call := by
  intro he
  have hn := all_calls_nodup s hs
  rw [Multiset.map_add] at hn
  have h1 : x.call ∈ (settled s.shared).map Ticket.call :=
    Multiset.mem_map_of_mem _ (by simp [settled, hp])
  have h2 : x.call ∈ ((s.tasks.map carried).sum).map Ticket.call := by
    rw [he]
    refine Multiset.mem_map_of_mem _ (Multiset.mem_of_le ?_ (Multiset.mem_singleton_self w))
    exact List.le_sum_of_mem (List.mem_map.mpr ⟨_,List.mem_of_getElem? hk,rfl⟩)
  exact Multiset.disjoint_left.mp (Multiset.nodup_add.mp hn).2.2 h1 h2

/-- During the call numbered `n`, made by the task at place `k`, while no other
call is under way. -/
structure Alone (k n : ℕ) (s : State α) : Prop where
  only : ∀ j t, s.tasks[j]? = some t → InCall t → j = k ∧ ∀ x, held t = some x → x.call = n
  kept : ∀ x w, (x,w) ∈ s.shared.overwritten → x.call ≠ n

theorem move_alone (k n : ℕ) (p q : State α) (j clock : ℕ) (hp : Inv p) (ha : Alone k n p)
    (h : move next p j clock = some q) : Alone k n q := by
  obtain ⟨t,g',t',fs,ht,hn,rfl⟩ := move_cases next p q j clock h
  obtain ⟨hc,hf⟩ := next_call p.shared g' t t' fs clock hn
  refine ⟨fun i u hu hi => ?_,fun x w hx => ?_⟩
  · rcases getElem?_grown_cases p.tasks fs j i t' u hu with ⟨rfl,rfl⟩ | ⟨_,hu⟩ | ⟨_,hu⟩
    · obtain ⟨hi,hh⟩ := hc hi
      obtain ⟨hk,hx⟩ := ha.only i t ht hi
      exact ⟨hk,fun x h => hx x (hh x h)⟩
    · exact ha.only i u hu hi
    · exact absurd hi (hf u (List.mem_of_getElem? hu))
  · rcases next_overwritten p.shared g' t t' fs clock hn x w hx with hx | ⟨rfl,hs⟩
    · exact ha.kept x w hx
    · have hw := (ha.only j _ ht trivial).2 w rfl
      exact fun he => parked_other p hp j x w ht hs (he.trans hw.symm)

/-- A call entered when no other was under way and followed by no other: its
argument is sent, whatever the flush tasks of earlier calls do meanwhile. -/
theorem last_call_sent (as bs : List (Action α)) (m : α) (p s : State α)
    (hp : run step as init = some p) (hidle : ∀ t ∈ p.tasks, ¬ InCall t)
    (hbs : ∀ m', .call m' ∉ bs) (hs : run step bs (enter p m) = some s) (hq : Quiescent s) :
    ⟨p.shared.passed.length,m⟩ ∈ s.shared.sent := by
  have hip := run_inv as p hp
  have hfresh : ∀ x ∈ settled p.shared, x.call ≠ p.shared.passed.length := by
    intro x hx he
    have hlt := (List.getElem?_eq_some_iff.mp (settled_passed p hip x hx)).1
    omega
  have h0 : Alone p.tasks.length p.shared.passed.length (enter p m) := by
    refine ⟨fun j t ht hi => ?_,fun x w hx => hfresh x ?_⟩
    · rcases Nat.lt_or_ge j p.tasks.length with hj | hj
      · rw [enter, List.getElem?_append_left hj] at ht
        exact absurd hi (hidle t (List.mem_of_getElem? ht))
      · rw [enter, List.getElem?_append_right hj] at ht
        obtain ⟨hj0,rfl⟩ := List.getElem?_eq_some_iff.mp ht
        simp only [List.length_singleton, Nat.lt_one_iff] at hj0
        refine ⟨by omega,fun x hx => ?_⟩
        simp only [hj0, List.getElem_cons_zero, held, Option.some.injEq] at hx
        rw [← hx]
    · have hm : x ∈ p.shared.overwritten.map Prod.fst := List.mem_map.mpr ⟨(x,w),hx,rfl⟩
      simp [settled, hm]
  have hrun : (∀ m', .call m' ∉ bs) → Inv s ∧ Alone p.tasks.length p.shared.passed.length s ∧
      s.shared.passed = p.shared.passed++[m] := by
    refine run_history (fun bs s => (∀ m', .call m' ∉ bs) → Inv s ∧
      Alone p.tasks.length p.shared.passed.length s ∧ s.shared.passed = p.shared.passed++[m])
      (enter p m) (fun _ => ⟨enter_inv p m hip,h0,rfl⟩) ?_ bs s hs
    intro cs r a t _ ih ht hcs
    obtain ⟨hi,ha,hpass⟩ := ih fun m' hm => hcs m' (List.mem_append_left _ hm)
    cases a with
    | call m' => exact absurd (List.mem_append_right _ (List.mem_singleton_self _)) (hcs m')
    | thread j clock =>
      refine ⟨move_inv r t j clock hi ht,move_alone _ _ r t j clock hi ha ht,?_⟩
      obtain ⟨u,g',u',fs,_,hn,rfl⟩ := move_cases next r t j clock ht
      exact (next_passed r.shared g' u u' fs clock hn).trans hpass
  obtain ⟨hi,ha,hpass⟩ := hrun hbs
  have hx : s.shared.passed[p.shared.passed.length]? = some m := by simp [hpass]
  rcases quiescent_fate s hi hq ⟨p.shared.passed.length,m⟩ hx with h | ⟨w,hw⟩
  · exact h
  · exact absurd rfl (ha.kept _ w hw)

/-! ## A message that is not lost -/

/-- Sent, in the slot, or in the hands of a thread. -/
def Alive (s : State α) (x : Ticket α) : Prop :=
  x ∈ s.shared.sent ∨ s.shared.pendingVoteBroadcast = some x ∨ ∃ t ∈ s.tasks, held t = some x

/-- What the thread's next step puts into the slot. -/
def stores : Thread α → Option (Ticket α)
  | .parking m => some m
  | _ => none

theorem next_held (g g' : Gate α) (t t' : Thread α) (fs : List (Thread α)) (clock : ℕ)
    (h : next g t clock = some (g',t',fs)) (x : Ticket α) (hx : held t = some x) :
    held t' = some x ∨ x ∈ g'.sent ∨ g'.pendingVoteBroadcast = some x := by
  cases next_step g g' t t' fs clock h with
  | send m | flush m =>
    obtain rfl := Option.some.inj hx
    exact Or.inr (Or.inl (List.mem_append_right _ (List.mem_singleton_self _)))
  | park m => exact Or.inr (Or.inr hx)
  | enter | load | win | lose | read | stamp => exact Or.inl hx
  | _ => simp [held] at hx

theorem next_pending (g g' : Gate α) (t t' : Thread α) (fs : List (Thread α)) (clock : ℕ)
    (h : next g t clock = some (g',t',fs)) (x : Ticket α)
    (hx : g.pendingVoteBroadcast = some x) :
    g'.pendingVoteBroadcast = some x ∨ held t' = some x ∨
      ∃ m, stores t = some m ∧ g'.pendingVoteBroadcast = some m := by
  cases next_step g g' t t' fs clock h with
  | park m => exact Or.inr (Or.inr ⟨m,rfl,rfl⟩)
  | take m hp => exact Or.inr (Or.inl (hp.symm.trans hx))
  | _ => exact Or.inl hx

/-- Only a store over it can take a message away. -/
theorem move_alive (p q : State α) (k clock : ℕ) (h : move next p k clock = some q)
    (x : Ticket α) (hx : Alive p x) :
    Alive q x ∨ ∃ t m, p.tasks[k]? = some t ∧ stores t = some m ∧
      p.shared.pendingVoteBroadcast = some x ∧ q.shared.pendingVoteBroadcast = some m := by
  obtain ⟨t,g',t',fs,ht,hn,rfl⟩ := move_cases Throttle.next p q k clock h
  have ht' : t' ∈ p.tasks.set k t'++fs := List.mem_append_left _ (mem_set_self p.tasks k t t' ht)
  rcases hx with hx | hx | ⟨u,hu,hx⟩
  · refine Or.inl (Or.inl ?_)
    rw [next_sent p.shared g' t t' fs clock hn]
    exact List.mem_append_left _ hx
  · rcases next_pending p.shared g' t t' fs clock hn x hx with hp | hp | ⟨m,hm,hp⟩
    · exact Or.inl (Or.inr (Or.inl hp))
    · exact Or.inl (Or.inr (Or.inr ⟨t',ht',hp⟩))
    · exact Or.inr ⟨t,m,ht,hm,hx,hp⟩
  · obtain ⟨j,hj⟩ := List.mem_iff_getElem?.mp hu
    by_cases hjk : j = k
    · subst hjk
      obtain rfl : t = u := Option.some.inj (ht.symm.trans hj)
      rcases next_held p.shared g' t t' fs clock hn x hx with hp | hp | hp
      · exact Or.inl (Or.inr (Or.inr ⟨t',ht',hp⟩))
      · exact Or.inl (Or.inl hp)
      · exact Or.inl (Or.inr (Or.inl hp))
    · refine Or.inl (Or.inr (Or.inr ⟨u,List.mem_append_left _ (List.mem_iff_getElem?.mpr ⟨j,?_⟩),hx⟩))
      rw [List.getElem?_set_ne (Ne.symm hjk)]
      exact hj

theorem enter_alive (s : State α) (m : α) (x : Ticket α) (hx : Alive s x) :
    Alive (enter s m) x := by
  rcases hx with hx | hx | ⟨t,ht,hx⟩
  · exact Or.inl hx
  · exact Or.inr (Or.inl hx)
  · exact Or.inr (Or.inr ⟨t,List.mem_append_left _ ht,hx⟩)

theorem enter_new (s : State α) (m : α) : Alive (enter s m) ⟨s.shared.passed.length,m⟩ :=
  Or.inr (Or.inr ⟨_,List.mem_append_right _ (List.mem_singleton_self _),rfl⟩)

theorem alive_sent (s : State α) (hs : Inv s)
    (hq : Quiescent s) (x : Ticket α) (hx : Alive s x) : x ∈ s.shared.sent := by
  rcases hx with hx | hx | ⟨t,ht,hx⟩
  · exact hx
  · rw [quiescent_slot s hs hq] at hx
    cases hx
  · rcases hq t ht with rfl | rfl <;> cases hx


/-- The action puts nothing into the slot. -/
def Storeless (s : State α) : Action α → Prop
  | .call _ => True
  | .thread k _ => ∀ t ∈ s.tasks[k]?, stores t = none

theorem storeless_alive (as : List (Action α)) (p s : State α) (x : Ticket α) (hx : Alive p x)
    (hg : Guarded step Storeless as p) (h : run step as p = some s) : Alive s x := by
  refine guarded_invariant Storeless (fun s => Alive s x) ?_ as p s hx hg h
  intro r a t hr hc ht
  cases a with
  | call m =>
    obtain rfl : enter r m = t := Option.some.inj ht
    exact enter_alive r m x hr
  | thread k clock =>
    refine (move_alive r t k clock ht x hr).resolve_right fun ⟨u,m,hu,hm,_⟩ => ?_
    rw [hc u hu] at hm
    cases hm

/-! ## Stores in the order of the calls -/

/-- A call stores its argument only over one of an earlier call. -/
def Forward (s : State α) : Action α → Prop
  | .call _ => True
  | .thread k _ => ∀ t ∈ s.tasks[k]?, ∀ w ∈ stores t, ∀ x ∈ s.shared.pendingVoteBroadcast, x.call < w.call

theorem held_passed (s : State α) (hs : Inv s) (t : Thread α) (ht : t ∈ s.tasks) (x : Ticket α)
    (hx : held t = some x) : s.shared.passed[x.call]? = some x.msg := by
  have hle : carried t ≤ (s.tasks.map carried).sum := List.le_sum_of_mem (List.mem_map.mpr ⟨t,ht,rfl⟩)
  have hm : x ∈ (tickets s.shared.passed : Multiset (Ticket α)) := by
    rw [← hs.accounted]
    exact Multiset.mem_add.mpr (Or.inr (Multiset.mem_of_le hle (by simp [carried, hx])))
  exact (mem_tickets _ x).mp (Multiset.mem_coe.mp hm)

/-- What was overwritten was so by a later call. -/
structure Overtaken (s : State α) : Prop where
  inv : Inv s
  later : ∀ x w, (x,w) ∈ s.shared.overwritten → x.call < w.call ∧ w.call < s.shared.passed.length

theorem step_overtaken (s : State α) (a : Action α) (t : State α) (hs : Overtaken s) (hc : Forward s a)
    (h : step s a = some t) : Overtaken t := by
  refine ⟨step_inv s a t hs.inv h,fun x w hx => ?_⟩
  cases a with
  | call m =>
    obtain rfl : enter s m = t := Option.some.inj h
    obtain ⟨hlt,hle⟩ := hs.later x w hx
    exact ⟨hlt,by simp [enter]; omega⟩
  | thread k clock =>
    obtain ⟨u,g',u',fs,hu,hn,rfl⟩ := move_cases next s t k clock h
    rw [next_passed s.shared g' u u' fs clock hn]
    rcases next_overwritten s.shared g' u u' fs clock hn x w hx with hx | ⟨rfl,hp⟩
    · exact hs.later x w hx
    · refine ⟨hc _ hu w rfl x hp,?_⟩
      exact (List.getElem?_eq_some_iff.mp (held_passed s hs.inv _ (List.mem_of_getElem? hu) w rfl)).1

theorem forward_last_sent (as : List (Action α)) (s : State α) (h : run step as init = some s)
    (hg : Guarded step Forward as init) (hq : Quiescent s) (x : Ticket α)
    (hx : s.shared.passed[x.call]? = some x.msg) (hlast : x.call+1 = s.shared.passed.length) :
    x ∈ s.shared.sent := by
  have hs : Overtaken s := guarded_invariant Forward Overtaken step_overtaken as init s
    ⟨init_inv,by simp [init]⟩ hg h
  rcases quiescent_fate s hs.inv hq x hx with hsent | ⟨w,hw⟩
  · exact hsent
  · have hlater := hs.later x w hw
    omega

/-! ## The whole run -/

def callArgs (as : List (Action α)) : List α :=
  as.filterMap fun a => match a with
    | .call m => some m
    | .thread _ _ => none

theorem run_passed (as : List (Action α)) (s : State α) (h : run step as init = some s) :
    s.shared.passed = callArgs as := by
  refine run_history (fun as s => s.shared.passed = callArgs as) init rfl ?_ as s h
  intro as m a t _ hm ht
  simp only [callArgs, List.filterMap_append] at hm ⊢
  cases a with
  | call x =>
    obtain rfl : enter m x = t := Option.some.inj ht
    simp [enter, hm]
  | thread k clock =>
    obtain ⟨u,g',u',fs,_,hn,rfl⟩ := move_cases next m t k clock ht
    simpa [hm] using next_passed m.shared g' u u' fs clock hn

/-- For any number of callers and flush tasks, any interleaving and any clock
readings. A full slot always has a thread that will empty it. What is sent was
passed in, by a call of its own. At rest the slot is empty, the flag is clear,
and each argument was either sent or replaced in the slot by a later store; what
the last store left there was sent, and so was the argument of a call that
overlaps no other and is followed by none. The last of overlapping calls is not
lost as long as no call stores over the argument of a later one. -/
theorem throttle_accounts (as : List (Action α)) (s : State α)
    (h : run step as init = some s) :
    (s.shared.pendingVoteBroadcast.isSome = true →
      (∃ t ∈ s.tasks, BeforeTake t) ∨
      (s.shared.voteFlushScheduled = false ∧ ∃ t ∈ s.tasks, t = .swapping) ∨
      ∃ t ∈ s.tasks, BeforeSpawn t) ∧
    (s.shared.sent.map Ticket.call).Nodup ∧
    (∀ x ∈ s.shared.sent, (callArgs as)[x.call]? = some x.msg) ∧
    (Quiescent s → s.shared.pendingVoteBroadcast = none ∧ s.shared.voteFlushScheduled = false ∧
      ∀ x : Ticket α, (callArgs as)[x.call]? = some x.msg →
        (x ∈ s.shared.sent ∧ ∀ w, (x,w) ∉ s.shared.overwritten) ∨
        (x ∉ s.shared.sent ∧ ∃ w, (x,w) ∈ s.shared.overwritten)) ∧
    (Quiescent s → ∀ bs cs p x, as = bs++cs → run step bs init = some p →
      p.shared.pendingVoteBroadcast = some x → Guarded step Storeless cs p → x ∈ s.shared.sent) ∧
    (Quiescent s → ∀ bs m cs p, as = bs++.call m::cs → run step bs init = some p →
      (∀ t ∈ p.tasks, ¬ InCall t) → (∀ m', .call m' ∉ cs) →
      ⟨(callArgs bs).length,m⟩ ∈ s.shared.sent) ∧
    (Guarded step Forward as init → Quiescent s → ∀ x : Ticket α, (callArgs as)[x.call]? = some x.msg →
      x.call+1 = (callArgs as).length → x ∈ s.shared.sent) := by
  have hs := run_inv as s h
  have hpass := run_passed as s h
  refine ⟨hs.wired.slot,sent_nodup s hs,fun x hx => ?_,fun hq => ?_,?_,?_,fun hg hq x hx hlast => ?_⟩
  · rw [← hpass]
    exact settled_passed s hs x (by simp [settled, hx])
  · refine ⟨quiescent_slot s hs hq,quiescent_flag s hs hq,fun x hx => ?_⟩
    rw [← hpass] at hx
    rcases quiescent_fate s hs hq x hx with hsent | ⟨w,hw⟩
    · exact Or.inl ⟨hsent,fun w => sent_not_overwritten s hs x w hsent⟩
    · exact Or.inr ⟨fun hsent => sent_not_overwritten s hs x w hsent hw,w,hw⟩
  · intro hq bs cs p x has hp hx hg
    subst has
    have ht := run_rest bs cs init p s h hp
    exact alive_sent s hs hq x (storeless_alive cs p s x (Or.inr (Or.inl hx)) hg ht)
  · intro hq bs m cs p has hp hidle hcs
    subst has
    have ht := run_rest bs (.call m::cs) init p s h hp
    rw [← run_passed bs p hp]
    exact last_call_sent bs cs m p s hp hidle hcs ht hq
  · rw [← hpass] at hx hlast
    exact forward_last_sent as s h hg hq x hx hlast

/-- Three calls and one flush: the first call is sent at once, the second is
replaced in the slot by the third, which the flush task sends. -/
def threeCalls : List (Action ℕ) :=
  [.call 10,.thread 0 1000,.thread 0 1000,.thread 0 1000,.thread 0 1000,
   .call 11,.thread 1 1010,.thread 1 1010,.thread 1 1010,.thread 1 1010,.thread 1 1010,
   .thread 1 1010,.thread 1 1010,.thread 1 1010,
   .call 12,.thread 3 1020,.thread 3 1020,.thread 3 1020,.thread 3 1020,.thread 3 1020,
   .thread 2 1050,.thread 2 1050,.thread 2 1050,.thread 2 1050,.thread 2 1050]

def threeCallsEnd : State ℕ :=
  ⟨⟨1050,none,false,[10,11,12],[⟨0,10⟩,⟨2,12⟩],[(⟨1,11⟩,⟨2,12⟩)]⟩,
    [.returned,.returned,.flushed,.returned]⟩

instance (s : State ℕ) : (a : Action ℕ) → Decidable (Forward s a)
  | .call _ => instDecidableTrue
  | .thread k _ =>
    have : Decidable (∀ t ∈ s.tasks[k]?, ∀ w ∈ stores t, ∀ x ∈ s.shared.pendingVoteBroadcast,
      x.call < w.call) := inferInstance
    this

theorem three_calls_accounted :
    run step threeCalls init = some threeCallsEnd ∧ Quiescent threeCallsEnd ∧
      threeCallsEnd.shared.pendingVoteBroadcast = none ∧
      (∃ w, (⟨1,11⟩,w) ∈ threeCallsEnd.shared.overwritten) ∧ ⟨2,12⟩ ∈ threeCallsEnd.shared.sent := by
  have hrun : run step threeCalls init = some threeCallsEnd := by decide +kernel
  have hq : Quiescent threeCallsEnd := by unfold Quiescent; decide
  obtain ⟨_,_,_,hrest,_,_,hforward⟩ := throttle_accounts threeCalls threeCallsEnd hrun
  obtain ⟨hslot,_,hfate⟩ := hrest hq
  refine ⟨hrun,hq,hslot,?_,hforward (by decide +kernel) hq ⟨2,12⟩ (by decide) (by decide)⟩
  rcases hfate ⟨1,11⟩ (by decide) with ⟨hsent,_⟩ | ⟨_,hw⟩
  · exact absurd hsent (by decide)
  · exact hw

/-- The third call stores and is then overwritten by the second, which had
found the interval running before; it is the last to enter and to return. -/
def lateStore : List (Action ℕ) :=
  .call 10::List.replicate 4 (.thread 0 1000)++.call 11::List.replicate 3 (.thread 1 1010)++
  .call 12::List.replicate 4 (.thread 2 1010)++List.replicate 5 (.thread 1 1010)++[.thread 2 1010]++
  List.replicate 5 (.thread 3 1050)

def lateStoreEnd : State ℕ :=
  ⟨⟨1050,none,false,[10,11,12],[⟨0,10⟩,⟨1,11⟩],[(⟨2,12⟩,⟨1,11⟩)]⟩,
    [.returned,.returned,.returned,.flushed]⟩

theorem late_store_loses_last :
    ¬ ∀ (as : List (Action ℕ)) (s : State ℕ), run step as init = some s → Quiescent s →
      ∀ x : Ticket ℕ, (callArgs as)[x.call]? = some x.msg → x.call+1 = (callArgs as).length →
        x ∈ s.shared.sent := by
  intro hkept
  have hrun : run step lateStore init = some lateStoreEnd := by decide +kernel
  have hq : Quiescent lateStoreEnd := by unfold Quiescent; decide
  have hsent := hkept lateStore lateStoreEnd hrun hq ⟨2,12⟩ (by decide) (by decide)
  exact absurd hsent (by decide)

end RustChat.ThrottleInvariant
