import RustChat.Settling

/-!
# Between the locks no handler waits for another one

A lock section is one step that can always be taken: the write lock of the
clients, the mutex of the slot. Apart from these, a handler takes a bounded
number of steps between two lines it reads, those inside its call of the
throttle included, and it can always take the next one, whatever the other
handlers and the flush tasks do meanwhile, and if they do not move at all: no
lock is held across a step and no compare-exchange is tried again.
-/

set_option autoImplicit false

namespace RustChat.WaitFree
open Runs TaskPool Protocol Handler HandlerSteps Hub Settling
open Throttle hiding step init State Action

/-- The call the handler waits for. -/
def waitsFor : Handler.Phase → Option ℕ
  | .publishing call _ => some call
  | _ => none

def goes : Input → Bool
  | .go _ => true
  | _ => false

/-- The next operation of handler `k`, or one inside the call it waits for. -/
def Solo (k : ℕ) (s : Hub.State) : Hub.Action → Prop
  | .conn j i => j = k ∧ goes i = true
  | .throttle j _ => (s.tasks[k]?).bind (fun c => waitsFor c.phase) = some j
  | _ => False

instance (k : ℕ) (s : Hub.State) : (a : Hub.Action) → Decidable (Solo k s a)
  | .conn j i => inferInstanceAs (Decidable (j = k ∧ goes i = true))
  | .throttle j _ => inferInstanceAs (Decidable ((s.tasks[k]?).bind (fun c => waitsFor c.phase) = some j))
  | .spawn | .shutdown => isFalse id

/-- Handler `k` is not given a new message. -/
def Unfed (k : ℕ) (a : Hub.Action) : Prop := ∀ msg, a ≠ .conn k (.line (some msg))

/-! ## The steps left until the handler reads again -/

def callLeft (sh : Handler.Shared) (c : Conn) : ℕ :=
  (((waitsFor c.phase).bind (sh.throttle.tasks[·]?)).map threadCost).getD 0

def soloCost (sh : Handler.Shared) (c : Conn) : ℕ := handlerCost c.phase+callLeft sh c

theorem threadCost_le (t : Thread Snapshot) : threadCost t ≤ 13 := by
  cases t <;> simp [threadCost]

theorem soloCost_le (sh : Handler.Shared) (c : Conn) : soloCost sh c ≤ 46 := by
  have hopt : nOptions = 4 := rfl
  unfold soloCost callLeft
  cases hp : c.phase with
  | publishing call after =>
    have hcall : (((sh.throttle.tasks[call]?)).map threadCost).getD 0 ≤ 13 := by
      cases sh.throttle.tasks[call]? with
      | none => simp
      | some t => exact threadCost_le t
    have hafter : afterCost after ≤ 24 := by cases after <;> decide
    simp only [waitsFor, Option.bind_some, handlerCost]
    omega
  | loading loaded asOf after | unvoting prev after =>
    have hafter : afterCost after ≤ 24 := by cases after <;> decide
    simp only [waitsFor, Option.bind_none, Option.map_none, Option.getD_none, handlerCost, publishCost,
      threadCost]
    omega
  | _ =>
    simp only [waitsFor, Option.bind_none, Option.map_none, Option.getD_none, handlerCost, publishCost,
      exitCost, threadCost]
    omega

theorem callLeft_frame (sh sh' : Handler.Shared) (c : Conn) (hs : Served sh c)
    (h : ∀ (j : ℕ) t, sh.throttle.tasks[j]? = some t → Caller t →
      ∃ t', sh'.throttle.tasks[j]? = some t' ∧ threadCost t' ≤ threadCost t) :
    callLeft sh' c ≤ callLeft sh c := by
  unfold callLeft
  cases hp : c.phase with
  | publishing call after =>
    obtain ⟨t,ht,hcall⟩ := hs call after hp
    obtain ⟨t',ht',hle⟩ := h call t ht hcall
    simpa [waitsFor, ht, ht'] using hle
  | _ => simp [waitsFor]

theorem handler_callLeft (sh : Handler.Shared) (c : Conn) (i : Input) (e : Effect) (c' : Conn)
    (h : HandlerStep sh c i e c') : callLeft (apply sh e) c' ≤ callCost e := by
  cases h with
  | publish clock loaded asOf after h hl =>
    simp [callLeft, waitsFor, apply, enter, callCost, threadCost]
  | resume clock call after h hr => cases after <;> simp [callLeft, After.phase, waitsFor]
  | skip h => simp [callLeft, h, waitsFor]
  | _ => simp [callLeft, waitsFor]

/-! ## One step -/

/-- The next step of a handler takes one off, whatever it reads. -/
theorem own_solo (k : ℕ) (sh : Handler.Shared) (c : Conn) (i : Input) (e : Effect) (c' : Conn)
    (h : HandlerStep sh c i e c') (hfed : ∀ msg, i ≠ .line (some msg)) :
    soloCost (apply sh e) c'+(if goes i = true then 1 else 0) ≤ soloCost sh c := by
  have hcall := handler_callLeft sh c i e c' h
  unfold soloCost
  by_cases hown : own (.conn k i) = true
  · have hcost := handler_cost k sh c i e c' h hown
    split_ifs <;> omega
  · cases h with
    | parse msg h => exact absurd rfl (hfed msg)
    | skip h => simp [callLeft, h, waitsFor, goes]
    | fail n h => simp [callLeft, h, waitsFor, handlerCost, goes]
    | stop i hi h => rcases hi with rfl | rfl | ⟨rfl,_⟩ <;> simp [callLeft, h, waitsFor, handlerCost, goes]
    | _ => simp [own] at hown

theorem apply_callLeft (sh : Handler.Shared) (e : Effect) (c : Conn) (hs : Served sh c) :
    callLeft (apply sh e) c ≤ callLeft sh c :=
  callLeft_frame sh _ c hs fun j t ht _ => ⟨t,apply_callers sh e j t ht,Nat.le_refl _⟩

theorem writer_callLeft (cap : ℕ) (sh : Handler.Shared) (c : Conn) (i : Input) (c' : Conn)
    (h : WriterStep cap sh c i c') : soloCost sh c' = soloCost sh c := by
  simp [soloCost, callLeft, (writer_frame cap sh c i c' h).2.1]

theorem move_callLeft (p q : Throttle.State Snapshot) (k clock : ℕ) (h : move Throttle.next p k clock = some q)
    (j : ℕ) (t : Thread Snapshot) (ht : p.tasks[j]? = some t) :
    ∃ t', q.tasks[j]? = some t' ∧ threadCost t'+(if j = k then 1 else 0) ≤ threadCost t := by
  obtain ⟨u,g,u',fs,hu,hn,rfl⟩ := move_cases Throttle.next p q k clock h
  have hlt := (List.getElem?_eq_some_iff.mp ht).1
  have hcost := thread_cost p.shared g u u' fs clock hn
  dsimp only
  rw [List.getElem?_append_left (by rwa [List.length_set])]
  by_cases hj : j = k
  · subst hj
    obtain rfl : u = t := Option.some.inj (hu.symm.trans ht)
    exact ⟨u',getElem?_set_same p.tasks j u u' hu,by rw [if_pos rfl]; omega⟩
  · exact ⟨t,(List.getElem?_set_ne (Ne.symm hj)).trans ht,by rw [if_neg hj]; omega⟩

theorem throttle_solo (sh : Handler.Shared) (t : Throttle.State Snapshot) (j clock : ℕ)
    (tx : List BroadcastEvent) (c : Conn) (hs : Served sh c)
    (h : move Throttle.next sh.throttle j clock = some t) :
    soloCost { sh with throttle := t, tx := tx } c+(if waitsFor c.phase = some j then 1 else 0) ≤
      soloCost sh c := by
  unfold soloCost callLeft
  cases hp : c.phase with
  | publishing call after =>
    obtain ⟨u,hu,_⟩ := hs call after hp
    obtain ⟨u',hu',hle⟩ := move_callLeft sh.throttle t j clock h call u hu
    simp only [waitsFor, Option.bind_some, hu, hu', Option.map_some, Option.getD_some, Option.some.injEq]
    omega
  | _ => simp [waitsFor]

theorem step_solo (cap k : ℕ) (s : Hub.State) (a : Hub.Action) (t : Hub.State) (c : Conn)
    (hs : Served s.shared c) (hc : s.tasks[k]? = some c) (hfed : Unfed k a) (h : step cap s a = some t) :
    ∃ d, t.tasks[k]? = some d ∧
      soloCost t.shared d+(if Solo k s a then 1 else 0) ≤ soloCost s.shared c := by
  cases step_hub cap s a t h with
  | spawn =>
    exact ⟨c,(List.getElem?_append_left (List.getElem?_eq_some_iff.mp hc).1).trans hc,by simp [Solo]⟩
  | shutdown => exact ⟨c,hc,by simp [Solo, soloCost, callLeft]⟩
  | writer j i d d' hd hw =>
    have hsolo : ¬ Solo k s (.conn j i) := by
      cases hw with
      | stop i hi hw => rcases hi with rfl | rfl | rfl <;> simp [Solo, goes]
      | _ => simp [Solo, goes]
    by_cases hj : j = k
    · subst hj
      obtain rfl : c = d := Option.some.inj (hc.symm.trans hd)
      refine ⟨d',getElem?_set_same s.tasks j c d' hc,?_⟩
      rw [writer_callLeft cap s.shared c i d' hw, if_neg hsolo, Nat.add_zero]
    · exact ⟨c,(List.getElem?_set_ne hj).trans hc,by rw [if_neg hsolo, Nat.add_zero]⟩
  | throttle j clock u hu =>
    refine ⟨c,hc,?_⟩
    have hle := throttle_solo s.shared u j clock (s.shared.tx++sentSnapshots s.shared.throttle u) c hs hu
    simpa only [Solo, hc, Option.bind_some] using hle
  | handler j i d d' e hd hstep =>
    by_cases hj : j = k
    · subst hj
      obtain rfl : c = d := Option.some.inj (hc.symm.trans hd)
      refine ⟨d',getElem?_set_same s.tasks j c d' hc,?_⟩
      have hle := own_solo j s.shared c i e d' hstep fun msg hi => hfed msg (by rw [hi])
      simpa only [Solo, true_and] using hle
    · have hsolo : ¬ Solo k s (.conn j i) := fun h => hj h.1
      refine ⟨c,(List.getElem?_set_ne hj).trans hc,?_⟩
      rw [if_neg hsolo, Nat.add_zero]
      exact Nat.add_le_add_left (apply_callLeft s.shared e c hs) _

/-! ## Every run -/

def soloLeft (k : ℕ) (s : Hub.State) : ℕ := ((s.tasks[k]?).map (soloCost s.shared)).getD 0

theorem solo_steps (cap k : ℕ) (bs : List Hub.Action) (s t : Hub.State) (hs : Reachable cap s)
    (hk : k < s.tasks.length) (hfed : ∀ a ∈ bs, Unfed k a) (h : run (step cap) bs s = some t) :
    tally (step cap) (Solo k) bs s+soloLeft k t ≤ soloLeft k s := by
  refine tally_le (Solo k) (fun _ => Unfed k) (fun s => Reachable cap s ∧ k < s.tasks.length) (soloLeft k)
    ?_ bs s t ⟨hs,hk⟩ ((guarded_forall _ bs s t h).mpr hfed) h
  rintro m a u ⟨⟨as,hm⟩,hk⟩ hfed hu
  have hc := List.getElem?_eq_getElem hk
  obtain ⟨d,hd,hle⟩ := step_solo cap k m a u _ (run_served cap as m hm k _ hc) hc hfed hu
  refine ⟨⟨⟨as++[a],(run_snoc as a init u).mpr ⟨m,hm,hu⟩⟩,(List.getElem?_eq_some_iff.mp hd).1⟩,?_⟩
  simpa [soloLeft, hd, hc] using hle

theorem advance_enabled (cap : ℕ) (s : Hub.State) (k : ℕ) (c : Conn) (clock : ℕ) (hc : s.tasks[k]? = some c)
    (h : advance s.shared c clock ≠ none) : ∃ t, step cap s (.conn k (.go clock)) = some t := by
  obtain ⟨⟨e,d⟩,hd⟩ := Option.ne_none_iff_exists'.mp h
  exact Option.isSome_iff_exists.mp (by simp [step, move, hc, Hub.next, act, hd])

theorem thread_enabled (cap : ℕ) (s : Hub.State) (j : ℕ) (t : Thread Snapshot)
    (ht : s.shared.throttle.tasks[j]? = some t) (hcall : Caller t) (hne : t ≠ .returned) :
    ∃ u, step cap s (.throttle j 0) = some u := by
  cases hn : Throttle.next s.shared.throttle.shared t 0 with
  | none => exact absurd (caller_ended t hcall (thread_stuck _ t 0 hn)) hne
  | some r => exact Option.isSome_iff_exists.mp (by simp [step, Throttle.step, move, ht, hn])

/-- A handler that neither reads nor has returned is never blocked. -/
theorem solo_enabled (cap : ℕ) (s : Hub.State) (k : ℕ) (c : Conn) (hs : Served s.shared c)
    (hc : s.tasks[k]? = some c) (hr : c.phase ≠ .reading) (hret : ∀ ok, c.phase ≠ .returned ok) :
    ∃ a t, Solo k s a ∧ step cap s a = some t := by
  by_cases hadv : advance s.shared c 0 = none
  · have hcall : ∃ call after, c.phase = .publishing call after ∧
        s.shared.throttle.tasks[call]? ≠ some .returned := by
      by_contra hno
      push Not at hno
      rcases advance_stuck s.shared c 0 hno hadv with hp | ⟨ok,hp⟩
      · exact hr hp
      · exact hret ok hp
    obtain ⟨call,after,hp,hne⟩ := hcall
    obtain ⟨t,ht,hin⟩ := hs call after hp
    obtain ⟨u,hu⟩ := thread_enabled cap s call t ht hin fun h => hne (h ▸ ht)
    exact ⟨.throttle call 0,u,by simp [Solo, hc, hp, waitsFor],hu⟩
  · obtain ⟨t,ht⟩ := advance_enabled cap s k c 0 hc hadv
    exact ⟨.conn k (.go 0),t,⟨rfl,rfl⟩,ht⟩

/-- With every lock section one step. In every reachable state a handler that
is neither in its `select!` nor returned can take its next step, and it takes
fewer than fifty before it is, however many steps of the others come between. -/
theorem handlers_wait_free (cap : ℕ) (as : List Hub.Action) (s : Hub.State)
    (h : run (step cap) as init = some s) (k : ℕ) (c : Conn) (hc : s.tasks[k]? = some c) :
    (c.phase = .reading ∨ (∃ ok, c.phase = .returned ok) ∨ ∃ a t, Solo k s a ∧ step cap s a = some t) ∧
      ∀ bs t, (∀ msg, .conn k (.line (some msg)) ∉ bs) → run (step cap) bs s = some t →
        tally (step cap) (Solo k) bs s ≤ 46 := by
  constructor
  · by_cases hr : c.phase = .reading
    · exact Or.inl hr
    · by_cases hret : ∃ ok, c.phase = .returned ok
      · exact Or.inr (Or.inl hret)
      · push Not at hret
        exact Or.inr (Or.inr (solo_enabled cap s k c (run_served cap as s h k c hc) hc hr hret))
  · intro bs t hfed ht
    have hle := solo_steps cap k bs s t ⟨as,h⟩ (List.getElem?_eq_some_iff.mp hc).1
      (fun a ha msg he => hfed msg (he ▸ ha)) ht
    have hbound : soloLeft k s ≤ 46 := by simpa [soloLeft, hc] using soloCost_le s.shared c
    omega

/-- The second handler is half through its vote while the first one does not
move. -/
theorem second_vote_unblocked :
    (∃ a t, Solo 1 VoteConservation.twoVotesEnd a ∧ step 16 VoteConservation.twoVotesEnd a = some t) ∧
      tally (step 16) (Solo 1) [.conn 1 (.go 0),.shutdown,.conn 1 (.go 0)] VoteConservation.twoVotesEnd = 2 := by
  have hrun : run (step 16) VoteConservation.twoVotes init = some VoteConservation.twoVotesEnd :=
    (Option.some_get _).symm
  have hvoting : (VoteConservation.twoVotesEnd.tasks[1]?).map Conn.phase = some (.voting 1) := by
    decide +kernel
  obtain ⟨c,hc,hp⟩ := Option.map_eq_some_iff.mp hvoting
  rcases (handlers_wait_free 16 _ _ hrun 1 c hc).1 with hr | ⟨ok,hret⟩ | hgo
  · simp [hp] at hr
  · simp [hp] at hret
  · exact ⟨hgo,by decide +kernel⟩

end RustChat.WaitFree
