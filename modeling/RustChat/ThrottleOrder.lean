import Mathlib.Data.List.Perm.Subperm
import Mathlib.Data.List.Sort
import RustChat.ThrottleClock

/-!
# In which order snapshots leave the room

Calls and flushes that run one at a time. A call that is sent at once leaves
the slot as it is, so a snapshot waiting there is older than one already sent.
The order breaks when a flush takes it, and at no other point.
-/

set_option autoImplicit false

namespace RustChat.ThrottleOrder
open Runs TaskPool ThrottleClock ThrottleInvariant
open Throttle hiding step init

variable {α : Type*}

/-- The thread is not in the middle of a call or of a flush. -/
def resting : Thread α → Bool
  | .returned | .flushed | .sleeping _ _ => true
  | _ => false

def Atomic (s : Timed α) : Action α → Prop
  | .call _ => ∀ t ∈ s.room.tasks, resting t = true
  | .thread k _ => ∀ j ∈ List.range s.room.tasks.length, ∀ t ∈ s.room.tasks[j]?,
    resting t = false → j = k

def takes : Thread α → Bool
  | .taking => true
  | _ => false

/-- No flush takes a snapshot that a call sent at once has passed over. -/
def NotBypassed (s : Timed α) : Action α → Prop
  | .thread k _ => ∀ t ∈ s.room.tasks[k]?, takes t = true → s.bypassed = false
  | _ => True

def brought : Thread α → Option (Ticket α)
  | .entered m | .clocked m _ | .comparing m _ _ | .sending m | .parking m => some m
  | _ => none

def taken : Thread α → Option (Ticket α)
  | .reading m | .stamping m _ | .flushing m => some m
  | _ => none

/-- The numbers of the snapshots that are out of the callers' hands. -/
def Out (g : Gate α) (x : Ticket α) : Prop := x ∈ g.sent ∨ g.pendingVoteBroadcast = some x

/-- What holds in runs of whole calls and flushes, in order or not. -/
structure Serial (s : Timed α) : Prop where
  single : ∀ (j k : ℕ) t u, s.room.tasks[j]? = some t → s.room.tasks[k]? = some u →
    resting t = false → resting u = false → j = k
  bound : ∀ x, Out s.room.shared x → x.call < s.room.shared.passed.length
  newest : ∀ t ∈ s.room.tasks, ∀ m, brought t = some m →
    m.call < s.room.shared.passed.length ∧ ∀ x, Out s.room.shared x → x.call < m.call
  emptied : ∀ t ∈ s.room.tasks, ∀ m, taken t = some m →
    m.call < s.room.shared.passed.length ∧ s.room.shared.pendingVoteBroadcast = none
  behind : s.bypassed = true →
    ∃ p, s.room.shared.pendingVoteBroadcast = some p ∧ ∃ x ∈ s.room.shared.sent, p.call < x.call
  ahead : s.bypassed = false → ∀ p, s.room.shared.pendingVoteBroadcast = some p →
    ∀ x ∈ s.room.shared.sent, x.call < p.call

/-- In order so far, and in order after the flush under way. -/
structure InOrder (s : Timed α) : Prop where
  sorted : s.room.shared.sent.Pairwise fun x y => x.call < y.call
  next : ∀ t ∈ s.room.tasks, ∀ m, taken t = some m → ∀ x ∈ s.room.shared.sent, x.call < m.call

/-- Out of order, now or after the flush under way. -/
def Broken (s : Timed α) : Prop :=
  (¬ s.room.shared.sent.Pairwise fun x y => x.call < y.call) ∨
    ∃ t ∈ s.room.tasks, ∃ m, taken t = some m ∧ ∃ x ∈ s.room.shared.sent, m.call < x.call

/-! ## One step of the thread that is not resting -/

theorem resting_forks (g g' : Gate α) (t t' : Thread α) (fs : List (Thread α)) (clock : ℕ)
    (h : next g t clock = some (g',t',fs)) :
    (∀ f ∈ fs, resting f = true) ∧ (resting t = true → takes t' = true) := by
  cases next_step g g' t t' fs clock h <;> simp [resting, takes]

theorem resting_empty (t : Thread α) (h : resting t = true) : brought t = none ∧ taken t = none := by
  cases t <;> simp_all [resting, brought, taken]

/-- What one step does to the slot, the channel and the snapshot in hand. -/
inductive Change (g g' : Gate α) (b : Bool) (t t' : Thread α) : Prop where
  | quiet (hs : g'.sent = g.sent) (hp : g'.pendingVoteBroadcast = g.pendingVoteBroadcast)
    (hb : bypass g b t = b) (ht : takes t = false) (hbrought : brought t' = brought t)
    (htaken : taken t' = taken t)
  | sent (m : Ticket α) (ht : t = .sending m) (hs : g'.sent = g.sent++[m])
    (hp : g'.pendingVoteBroadcast = g.pendingVoteBroadcast) (ht' : resting t' = true)
  | parked (m : Ticket α) (ht : t = .parking m) (hs : g'.sent = g.sent)
    (hp : g'.pendingVoteBroadcast = some m) (ht' : t' = .swapping)
  | took (ht : t = .taking) (hs : g'.sent = g.sent) (hp : g'.pendingVoteBroadcast = none)
    (hbrought : brought t' = none) (htaken : taken t' = g.pendingVoteBroadcast)
  | flushed (m : Ticket α) (ht : t = .flushing m) (hs : g'.sent = g.sent++[m])
    (hp : g'.pendingVoteBroadcast = g.pendingVoteBroadcast) (ht' : resting t' = true)

theorem next_change (g g' : Gate α) (t t' : Thread α) (fs : List (Thread α)) (clock : ℕ) (b : Bool)
    (h : next g t clock = some (g',t',fs)) : Change g g' b t t' := by
  cases next_step g g' t t' fs clock h with
  | send m => exact .sent m rfl rfl rfl rfl
  | park m => exact .parked m rfl rfl rfl rfl
  | take m hp => exact .took rfl rfl rfl rfl hp.symm
  | miss hp => exact .took rfl rfl hp rfl hp.symm
  | flush m => exact .flushed m rfl rfl rfl rfl
  | _ => exact .quiet rfl rfl rfl rfl rfl rfl

theorem active_moved (s : Timed α) (g : Gate α) (t t' : Thread α) (fs : List (Thread α)) (k clock : ℕ)
    (ha : Atomic s (.thread k clock)) (hn : next s.room.shared t clock = some (g,t',fs)) (j : ℕ)
    (u : Thread α) (hu : (s.room.tasks.set k t'++fs)[j]? = some u) (hr : resting u = false) :
    j = k ∧ u = t' := by
  rcases getElem?_grown_cases s.room.tasks fs k j t' u hu with hju | ⟨hjk,hu⟩ | ⟨_,hu⟩
  · exact hju
  · have hlt := (List.getElem?_eq_some_iff.mp hu).1
    exact absurd (ha j (List.mem_range.mpr hlt) u hu hr) hjk
  · rw [(resting_forks s.room.shared g t t' fs clock hn).1 u (List.mem_of_getElem? hu)] at hr
    cases hr

theorem mem_moved (s : Timed α) (g : Gate α) (t t' : Thread α) (fs : List (Thread α)) (k clock : ℕ)
    (ha : Atomic s (.thread k clock)) (hn : next s.room.shared t clock = some (g,t',fs)) (u : Thread α)
    (hu : u ∈ s.room.tasks.set k t'++fs) (hne : brought u ≠ none ∨ taken u ≠ none) : u = t' := by
  obtain ⟨j,hj⟩ := List.mem_iff_getElem?.mp hu
  refine (active_moved s g t t' fs k clock ha hn j u hj ?_).2
  by_contra hr
  obtain ⟨hb,ht⟩ := resting_empty u (by simpa using hr)
  simp [hb, ht] at hne

theorem call_serial (s : Timed α) (m : α) (hs : Serial s) (ha : Atomic s (.call m)) :
    Serial { s with room := enter s.room m } := by
  have hnew : ∀ (j : ℕ) u, (enter s.room m).tasks[j]? = some u → resting u = false →
      j = s.room.tasks.length ∧ u = .entered ⟨s.room.shared.passed.length,m⟩ := by
    intro j u hu hr
    rcases Nat.lt_or_ge j s.room.tasks.length with hj | hj
    · rw [enter, List.getElem?_append_left hj] at hu
      rw [ha u (List.mem_of_getElem? hu)] at hr
      cases hr
    · rw [enter, List.getElem?_append_right hj, List.getElem?_singleton] at hu
      split_ifs at hu
      cases hu
      exact ⟨by omega,rfl⟩
  have hlen : (enter s.room m).shared.passed.length = s.room.shared.passed.length+1 := by simp [enter]
  refine ⟨fun j k t u ht hu hrt hru => ?_,fun x hx => ?_,fun t ht x hx => ?_,fun t ht x hx => ?_,
    hs.behind,hs.ahead⟩
  · rw [(hnew j t ht hrt).1, (hnew k u hu hru).1]
  · have hb := hs.bound x hx
    show x.call < (enter s.room m).shared.passed.length
    omega
  · obtain ⟨j,hj⟩ := List.mem_iff_getElem?.mp ht
    have hr : resting t = false := by
      by_contra hr
      simp [(resting_empty t (by simpa using hr)).1] at hx
    obtain ⟨_,rfl⟩ := hnew j t hj hr
    obtain rfl : (⟨s.room.shared.passed.length,m⟩ : Ticket α) = x := Option.some.inj hx
    exact ⟨by rw [hlen]; exact Nat.lt_succ_self _,fun y hy => hs.bound y hy⟩
  · obtain ⟨j,hj⟩ := List.mem_iff_getElem?.mp ht
    have hr : resting t = false := by
      by_contra hr
      simp [(resting_empty t (by simpa using hr)).2] at hx
    obtain ⟨_,rfl⟩ := hnew j t hj hr
    cases hx

theorem change_out (g g' : Gate α) (b : Bool) (t t' : Thread α) (h : Change g g' b t t') (x : Ticket α)
    (hx : Out g' x) : Out g x ∨ brought t = some x ∨ taken t = some x := by
  cases h with
  | quiet hs hp hb ht hbrought htaken =>
    rw [Out, hs, hp] at hx
    exact Or.inl hx
  | sent m ht hs hp hr | flushed m ht hs hp hr =>
    subst ht
    rw [Out, hs, hp, List.mem_append, List.mem_singleton] at hx
    rcases hx with (hx | rfl) | hx
    · exact Or.inl (Or.inl hx)
    · simp [brought, taken]
    · exact Or.inl (Or.inr hx)
  | parked m ht hs hp hq =>
    subst ht
    rw [Out, hs, hp] at hx
    rcases hx with hx | hx
    · exact Or.inl (Or.inl hx)
    · exact Or.inr (Or.inl hx)
  | took ht hs hp hbrought htaken =>
    rw [Out, hs, hp] at hx
    exact Or.inl (Or.inl (by simpa using hx))

theorem change_brought (g g' : Gate α) (b : Bool) (t t' : Thread α) (h : Change g g' b t t')
    (m : Ticket α) (hm : brought t' = some m) :
    brought t = some m ∧ ∀ x, Out g' x → Out g x := by
  cases h with
  | quiet hs hp hb ht hbrought htaken =>
    refine ⟨hbrought ▸ hm,fun x hx => ?_⟩
    rwa [Out, hs, hp] at hx
  | sent x ht hs hp hr | flushed x ht hs hp hr =>
    rw [(resting_empty t' hr).1] at hm
    cases hm
  | parked x ht hs hp hq =>
    rw [hq] at hm
    cases hm
  | took ht hs hp hbrought htaken =>
    rw [hbrought] at hm
    cases hm

theorem change_taken (g g' : Gate α) (b : Bool) (t t' : Thread α) (h : Change g g' b t t')
    (m : Ticket α) (hm : taken t' = some m) :
    (taken t = some m ∧ g'.sent = g.sent ∧ g'.pendingVoteBroadcast = g.pendingVoteBroadcast) ∨
      (t = .taking ∧ g.pendingVoteBroadcast = some m ∧ g'.sent = g.sent ∧
        g'.pendingVoteBroadcast = none) := by
  cases h with
  | quiet hs hp hb ht hbrought htaken => exact Or.inl ⟨htaken ▸ hm,hs,hp⟩
  | sent x ht hs hp hr | flushed x ht hs hp hr =>
    rw [(resting_empty t' hr).2] at hm
    cases hm
  | parked x ht hs hp hq =>
    rw [hq] at hm
    cases hm
  | took ht hs hp hbrought htaken => exact Or.inr ⟨ht,htaken ▸ hm,hs,hp⟩

/-- After a send past the slot, the slot has been passed over. -/
theorem change_behind (s : Timed α) (hs : Serial s) (g : Gate α) (t t' : Thread α)
    (hmem : t ∈ s.room.tasks) (h : Change s.room.shared g s.bypassed t t')
    (hb : bypass s.room.shared s.bypassed t = true) :
    ∃ p, g.pendingVoteBroadcast = some p ∧ ∃ x ∈ g.sent, p.call < x.call := by
  cases h with
  | quiet hsent hp hbyp htk hbrought htaken =>
    rw [hbyp] at hb
    rw [hp, hsent]
    exact hs.behind hb
  | sent m hm hsent hp hr =>
    subst hm
    -- a full slot has been passed over, now or before
    cases hslot : s.room.shared.pendingVoteBroadcast with
    | none =>
      simp only [bypass, hslot, Option.isSome_none, Bool.or_false] at hb
      obtain ⟨p,hsome,_⟩ := hs.behind hb
      rw [hslot] at hsome
      cases hsome
    | some p =>
      refine ⟨p,hp.trans hslot,m,?_,(hs.newest _ hmem m rfl).2 p (Or.inr hslot)⟩
      rw [hsent]
      exact List.mem_append_right _ (List.mem_singleton_self m)
  | parked m hm hsent hp hq =>
    subst hm
    cases hb
  | took hm hsent hp hbrought htaken =>
    subst hm
    cases hb
  | flushed m hm hsent hp hr =>
    subst hm
    obtain ⟨p,hsome,_⟩ := hs.behind hb
    rw [(hs.emptied _ hmem m rfl).2] at hsome
    cases hsome

theorem change_ahead (s : Timed α) (hs : Serial s) (g : Gate α) (t t' : Thread α)
    (hmem : t ∈ s.room.tasks) (h : Change s.room.shared g s.bypassed t t')
    (hb : bypass s.room.shared s.bypassed t = false) (p : Ticket α)
    (hp : g.pendingVoteBroadcast = some p) : ∀ x ∈ g.sent, x.call < p.call := by
  cases h with
  | quiet hsent hp' hbyp htk hbrought htaken =>
    rw [hbyp] at hb
    rw [hsent]
    exact hs.ahead hb p (hp'.symm.trans hp)
  | sent m hm hsent hp' hr =>
    subst hm
    rw [hp] at hp'
    simp [bypass, ← hp'] at hb
  | parked m hm hsent hp' hq =>
    subst hm
    obtain rfl : m = p := Option.some.inj (hp'.symm.trans hp)
    rw [hsent]
    exact fun x hx => (hs.newest _ hmem m rfl).2 x (Or.inl hx)
  | took hm hsent hp' hbrought htaken =>
    rw [hp] at hp'
    cases hp'
  | flushed m hm hsent hp' hr =>
    subst hm
    rw [(hs.emptied _ hmem m rfl).2, hp] at hp'
    cases hp'

theorem thread_serial (s s' : Timed α) (k clock : ℕ) (hs : Serial s) (ha : Atomic s (.thread k clock))
    (h : step s (.thread k clock) = some s') : Serial s' := by
  obtain ⟨t,g,t',fs,ht,_,_,hn,rfl⟩ := step_thread s s' k clock h
  have hmem := List.mem_of_getElem? ht
  have hpassed := next_passed s.room.shared g t t' fs clock hn
  have hactive := active_moved s g t t' fs k clock ha hn
  have honly := mem_moved s g t t' fs k clock ha hn
  have hchange := next_change s.room.shared g t t' fs clock s.bypassed hn
  refine ⟨fun j l u v hu hv hru hrv => ?_,fun x hx => ?_,fun u hu m hm => ?_,fun u hu m hm => ?_,
    change_behind s hs g t t' hmem hchange,change_ahead s hs g t t' hmem hchange⟩
  · exact (hactive j u hu hru).1.trans (hactive l v hv hrv).1.symm
  · rw [hpassed]
    rcases change_out _ g _ t t' hchange x hx with hx | hx | hx
    · exact hs.bound x hx
    · exact (hs.newest t hmem x hx).1
    · exact (hs.emptied t hmem x hx).1
  · obtain rfl := honly u hu (Or.inl (by simp [hm]))
    obtain ⟨hold,hout⟩ := change_brought _ g _ t u hchange m hm
    obtain ⟨hlt,hall⟩ := hs.newest t hmem m hold
    exact ⟨by rwa [hpassed],fun x hx => hall x (hout x hx)⟩
  · obtain rfl := honly u hu (Or.inr (by simp [hm]))
    rcases change_taken _ g _ t u hchange m hm with ⟨hold,_,hp⟩ | ⟨_,hslot,_,hp⟩
    · obtain ⟨hlt,hnone⟩ := hs.emptied t hmem m hold
      exact ⟨by rwa [hpassed],hp.trans hnone⟩
    · exact ⟨by rw [hpassed]; exact hs.bound m (Or.inr hslot),hp⟩

/-! ## In order, or broken -/

theorem thread_inOrder (s s' : Timed α) (k clock : ℕ) (hs : Serial s) (ho : InOrder s)
    (ha : Atomic s (.thread k clock)) (hb : NotBypassed s (.thread k clock))
    (h : step s (.thread k clock) = some s') : InOrder s' := by
  obtain ⟨t,g,t',fs,ht,_,_,hn,rfl⟩ := step_thread s s' k clock h
  have hmem := List.mem_of_getElem? ht
  have hchange := next_change s.room.shared g t t' fs clock s.bypassed hn
  refine ⟨?_,fun u hu m hm => ?_⟩
  · have hsnoc : ∀ m : Ticket α, (∀ x ∈ s.room.shared.sent, x.call < m.call) →
        (s.room.shared.sent++[m]).Pairwise fun x y => x.call < y.call := fun m hlt =>
      List.pairwise_append.mpr ⟨ho.sorted,List.pairwise_singleton _ _,fun x hx y hy => by
        rw [List.mem_singleton.mp hy]
        exact hlt x hx⟩
    cases hchange with
    | quiet hsent hp hbyp htk hbrought htaken => exact hsent ▸ ho.sorted
    | parked m hm hsent hp hq => exact hsent ▸ ho.sorted
    | took hm hsent hp hbrought htaken => exact hsent ▸ ho.sorted
    | sent m hm hsent hp hr =>
      subst hm
      exact hsent ▸ hsnoc m fun x hx => (hs.newest _ hmem m rfl).2 x (Or.inl hx)
    | flushed m hm hsent hp hr =>
      subst hm
      exact hsent ▸ hsnoc m (ho.next _ hmem m rfl)
  · obtain rfl := mem_moved s g t t' fs k clock ha hn u hu (Or.inr (by simp [hm]))
    rcases change_taken _ g _ t u hchange m hm with ⟨hold,hsent,_⟩ | ⟨rfl,hslot,hsent,_⟩
    · exact hsent ▸ ho.next t hmem m hold
    · exact hsent ▸ hs.ahead (hb _ ht rfl) m hslot

theorem thread_broken (s s' : Timed α) (k clock : ℕ) (ha : Atomic s (.thread k clock)) (hb : Broken s)
    (h : step s (.thread k clock) = some s') : Broken s' := by
  obtain ⟨t,g,t',fs,ht,_,_,hn,rfl⟩ := step_thread s s' k clock h
  have hsent := next_sent s.room.shared g t t' fs clock hn
  rcases hb with hb | ⟨u,hu,m,hm,x,hx,hlt⟩
  · refine Or.inl fun hp => hb ?_
    simp only [hsent] at hp
    exact (List.pairwise_append.mp hp).1
  -- the flush under way is the thread that moves
  · have hut : u = t := by
      obtain ⟨j,hj⟩ := List.mem_iff_getElem?.mp hu
      have hr : resting u = false := by
        by_contra hr
        simp [(resting_empty u (by simpa using hr)).2] at hm
      have hlen := (List.getElem?_eq_some_iff.mp hj).1
      obtain rfl := ha j (List.mem_range.mpr hlen) u hj hr
      exact Option.some.inj (hj.symm.trans ht)
    subst hut
    cases next_change s.room.shared g u t' fs clock s.bypassed hn with
    | quiet hs hp hbyp htk hbrought htaken =>
      have hmem := List.mem_append_left fs (mem_set_self s.room.tasks k u t' ht)
      exact Or.inr ⟨t',hmem,m,htaken ▸ hm,x,hs ▸ hx,hlt⟩
    | flushed y hy hs hp hr =>
      subst hy
      obtain rfl : y = m := Option.some.inj hm
      refine Or.inl fun hpair => ?_
      rw [show g.sent = s.room.shared.sent++[y] from hs] at hpair
      have hxy := (List.pairwise_append.mp hpair).2.2 x hx y (List.mem_singleton_self y)
      omega
    | sent y hy hs hp hr | parked y hy hs hp hq =>
      subst hy
      cases hm
    | took hy hs hp hbrought htaken =>
      subst hy
      cases hm

/-- A flush that takes a snapshot which was passed over breaks the order. -/
theorem bypassed_broken (s s' : Timed α) (k clock : ℕ) (hs : Serial s)
    (hb : ¬ NotBypassed s (.thread k clock)) (h : step s (.thread k clock) = some s') : Broken s' := by
  obtain ⟨t,g,t',fs,ht,_,_,hn,rfl⟩ := step_thread s s' k clock h
  have hbyp : takes t = true ∧ s.bypassed = true := by
    by_contra hne
    refine hb fun u hu htk => ?_
    obtain rfl : t = u := Option.some.inj (ht.symm.trans hu)
    by_contra hno
    exact hne ⟨htk,by simpa using hno⟩
  obtain ⟨p,hslot,x,hx,hlt⟩ := hs.behind hbyp.2
  have hmem := List.mem_append_left fs (mem_set_self s.room.tasks k t t' ht)
  cases next_change s.room.shared g t t' fs clock s.bypassed hn with
  | took hm hsent hp hbrought htaken =>
    exact Or.inr ⟨t',hmem,p,htaken.trans hslot,x,hsent ▸ hx,hlt⟩
  | quiet hsent hp hb' htk hbrought htaken => simp [htk] at hbyp
  | sent m hm hsent hp hr | parked m hm hsent hp hr | flushed m hm hsent hp hr =>
    subst hm
    simp [takes] at hbyp

/-! ## Whole runs -/

theorem run_order (as : List (Action α)) (s : Timed α) (h : run step as init = some s)
    (ha : Guarded step Atomic as init) :
    Serial s ∧ (Guarded step NotBypassed as init → InOrder s) ∧
      (¬ Guarded step NotBypassed as init → Broken s) := by
  refine guarded_history Atomic (fun as s => Serial s ∧
    (Guarded step NotBypassed as init → InOrder s) ∧ (¬ Guarded step NotBypassed as init → Broken s))
    init ?_ ?_ as s ha h
  · refine ⟨⟨?_,?_,?_,?_,?_,?_⟩,fun _ => ⟨List.Pairwise.nil,?_⟩,fun hn => absurd trivial hn⟩ <;>
      simp [init, Throttle.init, Out]
  · rintro as m a s' hm ⟨hs,hgood,hbad⟩ hat hstep
    rw [guarded_snoc NotBypassed as a init m hm]
    cases a with
    | call x =>
      cases hstep
      refine ⟨call_serial m x hs hat,fun hg => ⟨(hgood hg.1).sorted,fun u hu y hy => ?_⟩,fun hg => ?_⟩
      · rcases List.mem_append.mp hu with hu | hu
        · exact (hgood hg.1).next u hu y hy
        · rw [List.mem_singleton.mp hu] at hy
          cases hy
      · rcases hbad fun hg' => hg ⟨hg',trivial⟩ with hb | ⟨u,hu,hrest⟩
        · exact Or.inl hb
        · exact Or.inr ⟨u,List.mem_append_left _ hu,hrest⟩
    | thread k clock =>
      refine ⟨thread_serial m s' k clock hs hat hstep,
        fun hg => thread_inOrder m s' k clock hs (hgood hg.1) hat hg.2 hstep,fun hg => ?_⟩
      by_cases hold : Guarded step NotBypassed as init
      · exact bypassed_broken m s' k clock hs (fun hb => hg ⟨hold,hb⟩) hstep
      · exact thread_broken m s' k clock hat (hbad hold) hstep

theorem tickets_sorted (passed : List α) : (tickets passed).Pairwise fun x y => x.call < y.call := by
  rw [← List.pairwise_map (f := Ticket.call) (R := (· < ·)), tickets_calls]
  exact List.pairwise_lt_range

/-- Sent in the order of the calls: the numbers of what was sent increase. -/
theorem sorted_iff_sublist (s : Throttle.State α) (hs : Inv s) :
    (s.shared.sent.Pairwise fun x y => x.call < y.call) ↔
      s.shared.sent.Sublist (tickets s.shared.passed) := by
  refine ⟨fun hp => ?_,fun hsub => (tickets_sorted s.shared.passed).sublist hsub⟩
  have hsub : s.shared.sent ⊆ tickets s.shared.passed := fun x hx =>
    (mem_tickets _ x).mpr (settled_passed s hs x (by simp [settled, hx]))
  have hnodup : s.shared.sent.Nodup := hp.imp fun hlt he => by
    rw [he] at hlt
    exact Nat.lt_irrefl _ hlt
  have hanti : Std.Antisymm fun x y : Ticket α => x.call < y.call :=
    ⟨fun x y hxy hyx => absurd hxy (Nat.lt_asymm hyx)⟩
  exact List.sublist_of_subperm_of_pairwise (List.subperm_of_subset hnodup hsub) hp
    (tickets_sorted s.shared.passed)

/-- For any calls and flushes that run one at a time, under any clock. When
none is under way, what was sent is a subsequence of the calls if and only if
no flush has taken a snapshot from the slot after a later call was sent at
once. -/
theorem sent_in_call_order (as : List (Action α)) (s : Timed α) (h : run step as init = some s)
    (ha : Guarded step Atomic as init) (hrest : ∀ t ∈ s.room.tasks, resting t = true) :
    s.room.shared.sent.Sublist (tickets s.room.shared.passed) ↔ Guarded step NotBypassed as init := by
  obtain ⟨_,hgood,hbad⟩ := run_order as s h ha
  rw [← sorted_iff_sublist s.room (run_timed_inv as s h)]
  refine ⟨fun hp => ?_,fun hg => (hgood hg).sorted⟩
  by_contra hn
  rcases hbad hn with hb | ⟨t,ht,m,hm,_⟩
  · exact hb hp
  · rw [(resting_empty t (hrest t ht)).2] at hm
    cases hm

instance (s : Timed α) (a : Action α) : Decidable (Atomic s a) := by
  unfold Atomic
  split <;> infer_instance

instance (s : Timed α) (a : Action α) : Decidable (NotBypassed s a) := by
  unfold NotBypassed
  split <;> infer_instance

/-- The first call is sent at once, the third overwrites the second in the
slot, and the flush comes late. -/
def lateFlush : List (Action ℕ) :=
  .call 1::List.replicate 4 (.thread 0 1000)++.call 2::List.replicate 8 (.thread 1 1010)++
  .call 3::List.replicate 5 (.thread 3 1020)++List.replicate 5 (.thread 2 1100)

def lateFlushEnd : Timed ℕ := (run step lateFlush init).get (by decide +kernel)

theorem late_flush_in_order :
    lateFlushEnd.room.shared.sent.map Ticket.msg = [1,3] ∧
      (lateFlushEnd.room.shared.sent.Sublist (tickets lateFlushEnd.room.shared.passed) ↔
        Guarded step NotBypassed lateFlush init) := by
  have hrun : run step lateFlush init = some lateFlushEnd := (Option.some_get _).symm
  exact ⟨by decide +kernel,
    sent_in_call_order lateFlush lateFlushEnd hrun (by decide +kernel) (by decide +kernel)⟩

/-! ## A snapshot passed over -/

/-- The second call is stored. The third finds that the interval has passed
and is sent at once; the flush then sends the second. -/
def passedOver : List (Action ℕ) :=
  .call 1::List.replicate 4 (.thread 0 1000)++.call 2::List.replicate 8 (.thread 1 1010)++
  .call 3::List.replicate 4 (.thread 3 1050)++List.replicate 5 (.thread 2 1051)

def passedOverEnd : Timed ℕ := (run step passedOver init).get (by decide +kernel)

theorem passed_over_out_of_order :
    ¬ ∀ (as : List (Action ℕ)) (s : Timed ℕ), run step as init = some s → Guarded step Atomic as init →
      (∀ t ∈ s.room.tasks, resting t = true) →
      (s.room.shared.sent.map Ticket.msg).Sublist s.room.shared.passed := by
  intro hordered
  have hrun : run step passedOver init = some passedOverEnd := (Option.some_get _).symm
  have hsent : passedOverEnd.room.shared.sent.map Ticket.msg = [1,3,2] := by decide +kernel
  have hpassed : passedOverEnd.room.shared.passed = [1,2,3] := by decide +kernel
  have hsub := hordered _ _ hrun (by decide +kernel) (by decide +kernel)
  rw [hsent, hpassed] at hsub
  exact absurd hsub (by decide)

end RustChat.ThrottleOrder
