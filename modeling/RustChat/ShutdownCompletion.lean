import RustChat.AcceptInvariant
import RustChat.Cleanup
import RustChat.GracefulShutdown
import RustChat.Settling

/-!
# Ctrl-C ends the server

After Ctrl-C the accept loop joins the handlers, which leave their read loops
when their write tasks have seen `Shutdown`. If the signal is in time for all
of them, the server has returned as soon as it has no move of its own left,
and it has only so many of them.
-/

set_option autoImplicit false

namespace RustChat.ShutdownCompletion
open Runs TaskPool Protocol Broadcast Handler HandlerSteps Footprint VoteConservation Server Settling
open GracefulShutdown

/-- A move the server makes with nothing new from outside. -/
def ownMove : Server.Action → Bool
  | .conn k i => own (.conn k i)
  | .throttle _ _ => true
  | .accept .go | .accept (.release _) | .accept (.finish _) => true
  | .accept _ => false

/-! ## The accept loop comes nearer -/

def taskCost : Accept.Task → ℕ
  | .running => 2
  | .released => 1
  | .finished => 0

/-- The handles still to be awaited, and the return. -/
def joinCost (s : Accept.State) : ℕ := if s.phase = .joining then s.handles.length+1 else 0

def acceptCost (s : Accept.State) : ℕ := joinCost s+(s.tasks.map taskCost).sum

def serverPotential (s : Server.State) : ℕ := acceptCost s.accept+potential s.hub

theorem accept_cost (s : Accept.State) (a : Accept.Action) (t : Accept.State)
    (h : Accept.step s a = some t) (hcl : Closing s.phase) (hown : ownMove (.accept a) = true) :
    acceptCost t < acceptCost s := by
  unfold acceptCost joinCost
  cases Accept.step_move s a t h with
  | connect | acceptError | spawn | ctrlC => simp [ownMove] at hown
  | refuse hp | acquire hp | identify hp | count _ hp | push _ hp | drop _ _ _ hp | keep _ _ _ hp
    | retained _ hp => simp [hp, Closing] at hcl
  | join k rest hp hh hk => simp [hp, hh]
  | leave hp hh => simp [hp]
  | release k hk =>
    have hset := sum_map_set taskCost s.tasks k .running .released hk
    simp only [taskCost] at hset ⊢
    omega
  | finish k hk =>
    have hset := sum_map_set taskCost s.tasks k .released .finished hk
    simp only [taskCost] at hset ⊢
    omega

theorem step_lower (cap : ℕ) (s : Server.State) (a : Server.Action) (t : Server.State)
    (hf : ∀ (k : ℕ) c, s.hub.tasks[k]? = some c → Delivery.Fed cap s.hub.shared c)
    (hcl : Closing s.accept.phase) (hown : ownMove a = true) (h : Server.step cap s a = some t) :
    serverPotential t < serverPotential s := by
  obtain ⟨_,ha,hh⟩ := step_parts cap s a t h
  unfold serverPotential
  rcases a with a | ⟨k,i⟩ | ⟨k,clock⟩
  · have hlow := accept_cost s.accept a t.accept ha hcl hown
    have hhub : s.hub = t.hub := by
      cases a <;> simp [ownMove] at hown <;> exact Option.some.inj hh
    rw [← hhub]
    omega
  · have hacc : s.accept = t.accept := Option.some.inj ha
    have hlow := step_potential cap s.hub (.conn k i) t.hub hf hown hh
    rw [hacc]
    omega
  · have hacc : s.accept = t.accept := Option.some.inj ha
    have hlow := step_potential cap s.hub (.throttle k clock) t.hub hf rfl hh
    rw [hacc]
    omega

/-- A reachable state after Ctrl-C. -/
def Draining (cap : ℕ) (s : Server.State) : Prop :=
  (∃ as, run (Server.step cap) as Server.init = some s) ∧ Closing s.accept.phase

theorem own_descends (cap : ℕ) :
    Descends (Server.step cap) (fun _ a => ownMove a = true) (Draining cap) serverPotential where
  kept := by
    rintro s a t ⟨⟨as,h⟩,hcl⟩ _ ht
    refine ⟨⟨as++[a],(run_snoc as a Server.init t).mpr ⟨s,h,ht⟩⟩,?_⟩
    obtain ⟨_,ha,_⟩ := step_parts cap s a t ht
    cases hacc : acceptAction a with
    | none =>
      rw [hacc] at ha
      rwa [← Option.some.inj ha]
    | some b =>
      rw [hacc] at ha
      exact ((accept_closing s.accept b t.accept ha).1 hcl).1
  lower := by
    rintro s a t ⟨⟨as,h⟩,hcl⟩ hown ht
    exact step_lower cap s a t (Delivery.run_fed cap _ s.hub (run_parts cap as s h).2) hcl hown ht

/-! ## Where no move is left -/

/-- The handles kept are those of tasks that have been spawned. -/
def Spawned (s : Accept.State) : Prop := ∀ k ∈ AcceptInvariant.tracked s, k < s.tasks.length

theorem step_spawned (s : Accept.State) (a : Accept.Action) (t : Accept.State) (hs : Spawned s)
    (h : Accept.step s a = some t) : Spawned t := by
  unfold Spawned AcceptInvariant.tracked at hs ⊢
  cases Accept.step_move s a t h with
  | acceptError => exact hs
  | spawn id active hp =>
    rw [hp] at hs
    intro k hk
    rw [List.length_append, List.length_singleton]
    rcases List.mem_append.mp hk with hk | hk
    · exact Nat.lt_succ_of_lt (hs k hk)
    · rw [List.mem_singleton.mp hk]
      exact Nat.lt_succ_self _
  | drop kept k todo hp hk =>
    rw [hp] at hs
    exact fun j hj => hs j ((List.sublist_cons_self k todo).append_left kept |>.subset hj)
  | join k rest hp hh hk =>
    rw [hp] at hs
    intro j hj
    rw [hp] at hj
    exact hs j (hh ▸ List.mem_cons_of_mem k hj)
  | release k hk | finish k hk => simpa only [List.length_set] using hs
  | leave hp hh | connect hp | refuse hp _ | acquire hp _ | identify hp | count _ hp | push _ hp
    | keep _ _ _ hp _ | retained _ hp | ctrlC hp =>
    rw [hp] at hs
    simpa using hs

theorem run_spawned (as : List Accept.Action) (s : Accept.State)
    (h : run Accept.step as Accept.init = some s) : Spawned s :=
  run_invariant Spawned step_spawned as Accept.init s
    (by simp [Spawned, AcceptInvariant.tracked, Accept.init]) h

/-- A move of the accept loop, or of a task, that is allowed is a move of the
server. -/
theorem accept_stuck (cap : ℕ) (s : Server.State) (a : Accept.Action) (hhub : hubAction (.accept a) = none)
    (hal : allowed s (.accept a) = true) (h : Server.step cap s (.accept a) = none) :
    Accept.step s.accept a = none := by
  cases hacc : Accept.step s.accept a with
  | none => rfl
  | some t => simp [Server.step, hal, acceptAction, stepOption, hacc, hhub] at h

theorem hub_stuck (cap : ℕ) (s : Server.State) (hs : Stuck (Server.step cap) (fun _ a => ownMove a = true) s) :
    Stuck (Hub.step cap) (fun _ a => own a = true) s.hub := by
  intro a hown
  cases a with
  | spawn | shutdown => simp [own] at hown
  | conn k i => simpa [Server.step, allowed, acceptAction, hubAction, stepOption] using hs (.conn k i) hown
  | throttle k clock =>
    simpa [Server.step, allowed, acceptAction, hubAction, stepOption] using hs (.throttle k clock) rfl

theorem tasks_stuck (cap : ℕ) (s : Server.State) (hj : Joint s) (hret : ∀ c ∈ s.hub.tasks, hasReturned c = true)
    (hs : Stuck (Server.step cap) (fun _ a => ownMove a = true) s) :
    ∀ t ∈ s.accept.tasks, t = .finished := by
  intro t ht
  obtain ⟨k,hk⟩ := List.mem_iff_getElem?.mp ht
  cases t with
  | finished => rfl
  | released =>
    have hnone := accept_stuck cap s (.finish k) rfl rfl (hs _ rfl)
    simp [Accept.step, hk] at hnone
  | running =>
    have hlt : k < s.hub.tasks.length := hj.length ▸ (List.getElem?_eq_some_iff.mp hk).1
    have hc := List.getElem?_eq_getElem hlt
    have hal : allowed s (.accept (.release k)) = true := by
      simp [allowed, hc, hret _ (List.getElem_mem hlt)]
    have hnone := accept_stuck cap s (.release k) rfl hal (hs _ rfl)
    simp [Accept.step, hk] at hnone

theorem joined_stuck (cap : ℕ) (s : Server.State) (hsp : Spawned s.accept) (hcl : Closing s.accept.phase)
    (hfin : ∀ t ∈ s.accept.tasks, t = .finished)
    (hs : Stuck (Server.step cap) (fun _ a => ownMove a = true) s) : s.accept.phase = .returned := by
  have hnone : Accept.advance s.accept = none := accept_stuck cap s .go rfl rfl (hs _ rfl)
  cases hp : s.accept.phase with
  | returned => rfl
  | joining =>
    cases hh : s.accept.handles with
    | nil => simp [Accept.advance, hp, hh] at hnone
    | cons k rest =>
      have hlt := hsp k (by simp [AcceptInvariant.tracked, hp, hh])
      have hk : s.accept.tasks[k]? = some .finished := by
        rw [List.getElem?_eq_getElem hlt, hfin _ (List.getElem_mem hlt)]
      simp [Accept.advance, hp, hh, hk] at hnone
  | _ => simp [hp, Closing] at hcl

/-! ## The signal -/

theorem run_signalled (cap : ℕ) (as : List Hub.Action) (s : Hub.State)
    (h : run (Hub.step cap) as Hub.init = some s) (hs : .shutdown ∈ as) :
    ∃ p : ℕ, s.shared.tx[p]? = some .shutdown := by
  obtain ⟨bs,cs,rfl⟩ := List.append_of_mem hs
  obtain ⟨m,hm,h⟩ := (run_append_some bs _ Hub.init s).mp h
  obtain ⟨t,ht,h⟩ := (run_cons _ cs m s).mp h
  obtain rfl := Option.some.inj ht
  obtain ⟨more,hmore⟩ := run_log_prefix cap cs _ s h
  refine ⟨m.shared.tx.length,?_⟩
  rw [← hmore]
  exact Delivery.getElem?_append_some _ _ _ _ List.getElem?_concat_length

theorem run_closed (cap : ℕ) (as : List Server.Action) (s : Server.State)
    (h : run (Server.step cap) as Server.init = some s) : Closed s :=
  run_invariant Closed (step_closed cap) as Server.init s
    (fun p hp => by simp [Server.init, Hub.init] at hp) h

/-- A handler with the signal still to read is not at rest. -/
theorem reached_returned (cap : ℕ) (s : Server.State) (hr : Reached cap s.hub) (hset : Settled s.hub)
    (p : ℕ) (hp : s.hub.shared.tx[p]? = some .shutdown) (c : Conn) (hc : c ∈ s.hub.tasks) :
    hasReturned c = true := by
  obtain ⟨k,hk⟩ := List.mem_iff_getElem?.mp hc
  rcases hset.handlers c hc with hw | ⟨ok,hret⟩
  · have hno : hasReturned c = false := by simp [hasReturned, hw.reading]
    obtain ⟨r,hr',hend⟩ := hw.drained
    rcases hr p hp k c hk hno with ⟨r0,hr0,hle,hlt,_⟩ | hstop
    · obtain rfl : r = r0 := Option.some.inj (hr'.symm.trans hr0)
      omega
    · simp [hw.waiting] at hstop
  · simp [hasReturned, hret]

/-- The channel retains the signal until all that can still be sent is sent. -/
def Room (cap : ℕ) (s : Server.State) : Prop :=
  ∀ p : ℕ, s.hub.shared.tx[p]? = some .shutdown → s.hub.shared.tx.length+serverPotential s ≤ p+cap

theorem own_tx (cap : ℕ) (s : Server.State) (a : Server.Action) (t : Server.State)
    (hown : ownMove a = true) (h : Server.step cap s a = some t) :
    t.hub.shared.tx = s.hub.shared.tx ∨
      ∃ e, t.hub.shared.tx = s.hub.shared.tx++[e] ∧ e ≠ .shutdown := by
  obtain ⟨_,_,hh⟩ := step_parts cap s a t h
  cases hhub : hubAction a with
  | none =>
    rw [hhub] at hh
    exact Or.inl (by rw [Option.some.inj hh])
  | some b =>
    rw [hhub] at hh
    refine (step_tx cap s.hub t.hub b hh).imp_right ?_
    rintro ⟨_,e,htx,he,_⟩
    refine ⟨e,htx,fun hsig => ?_⟩
    rw [(hub_action a b hhub).2 (he.mp hsig)] at hown
    simp [ownMove] at hown

theorem room_step (cap : ℕ) (s : Server.State) (a : Server.Action) (t : Server.State) (hs : Room cap s)
    (hlow : serverPotential t < serverPotential s) (hown : ownMove a = true)
    (h : Server.step cap s a = some t) : Room cap t := by
  intro p hp
  rcases own_tx cap s a t hown h with htx | ⟨e,htx,hne⟩
  · have hle := hs p (htx ▸ hp)
    rw [htx]
    omega
  · have hold : s.hub.shared.tx[p]? = some .shutdown := by
      by_contra hnew
      rw [htx] at hp
      exact hne (getElem?_concat_new _ e .shutdown p hp hnew).2
    have hle := hs p hold
    rw [htx, List.length_append, List.length_singleton]
    omega

/-- While the channel has room every move of the server's own is in time. -/
theorem room_guarded (cap : ℕ) (bs : List Server.Action) (s t : Server.State) (hd : Draining cap s)
    (hroom : Room cap s) (hown : ∀ a ∈ bs, ownMove a = true) (h : run (Server.step cap) bs s = some t) :
    Guarded (Server.step cap) (InTime cap) bs s := by
  induction bs generalizing s with
  | nil => trivial
  | cons a bs ih =>
    obtain ⟨m,hm,h⟩ := (run_cons a bs s t).mp h
    obtain ⟨ha,hbs⟩ := List.forall_mem_cons.mp hown
    have hlow := (own_descends cap).lower s a m hd ha hm
    refine ⟨⟨fun hctrl => ?_,fun _ p _ hp => Or.inl ?_⟩,fun u hu => ?_⟩
    · simp [hctrl, ownMove] at ha
    · have hle := hroom p hp
      omega
    · obtain rfl : m = u := Option.some.inj (hm.symm.trans hu)
      exact ih m ((own_descends cap).kept s a m hd ha hm) (room_step cap s a m hroom hlow ha hm) hbs h

/-! ## The end -/

/-- Everyone is gone: the loop, its tasks and their handlers, every vote, and
every key but those a failed Welcome left in the room. -/
structure Ended (as : List Server.Action) (s : Server.State) : Prop where
  accept : s.accept.phase = .returned
  tasks : ∀ t ∈ s.accept.tasks, t = .finished
  handlers : ∀ c ∈ s.hub.tasks, hasReturned c = true
  board : ∀ i, s.hub.shared.counts i = 0
  keys : ∀ key ∈ s.hub.shared.clients, ∃ k, key = k+1 ∧ .conn k .fail ∈ as

theorem returned_board (cap : ℕ) (as : List Hub.Action) (s : Hub.State)
    (h : run (Hub.step cap) as Hub.init = some s) (hret : ∀ c ∈ s.tasks, hasReturned c = true)
    (i : Fin nOptions) : s.shared.counts i = 0 := by
  refine (votes_conserved cap as s h).2.2.2 (fun c hc => ?_) i
  have hr := hret c hc
  unfold hasReturned at hr
  split at hr
  · rename_i ok hp
    exact ⟨ok,hp⟩
  · cases hr

theorem returned_keys (cap : ℕ) (as : List Hub.Action) (s : Hub.State)
    (h : run (Hub.step cap) as Hub.init = some s) (hret : ∀ c ∈ s.tasks, hasReturned c = true)
    (key : ℕ) (hkey : key ∈ s.shared.clients) : ∃ k, key = k+1 ∧ .conn k .fail ∈ as := by
  obtain ⟨hnum,_,hkeys⟩ := run_known cap as s h
  have hrange := hkeys key hkey
  have hlt : key-1 < s.tasks.length := by omega
  have hc := List.getElem?_eq_getElem hlt
  have hid := hnum _ _ hc
  have hpres := (run_trace cap as s h _ _ hc).key.mp (by rwa [hid, Nat.sub_add_cancel hrange.1])
  refine ⟨key-1,by omega,((Cleanup.run_failures cap as s h).1 _ _ hc).mp ?_⟩
  have hr := hret _ (List.getElem_mem hlt)
  unfold hasReturned at hr
  split at hr
  · rename_i ok hp
    cases ok with
    | false => exact hp
    | true => simp [hp, present] at hpres
  · cases hr

theorem stuck_ended (cap : ℕ) (hcap : 0 < cap) (as : List Server.Action) (s : Server.State)
    (h : run (Server.step cap) as Server.init = some s)
    (hg : Guarded (Server.step cap) (InTime cap) as Server.init) (hctrl : .accept .ctrlC ∈ as)
    (hs : Stuck (Server.step cap) (fun _ a => ownMove a = true) s) : Ended as s := by
  obtain ⟨hacc,hhub⟩ := run_parts cap as s h
  have hset := stuck_settled cap _ s.hub hhub (hub_stuck cap s hs)
  obtain ⟨p,hp⟩ := run_signalled cap _ s.hub hhub (List.mem_filterMap.mpr ⟨_,hctrl,rfl⟩)
  have hret := reached_returned cap s (shutdown_reaches cap hcap as s h hg) hset p hp
  have hfin := tasks_stuck cap s (run_joint cap as s h) hret hs
  refine ⟨joined_stuck cap s (run_spawned _ _ hacc) (run_closed cap as s h p hp) hfin hs,hfin,hret,
    returned_board cap _ s.hub hhub hret,fun key hkey => ?_⟩
  obtain ⟨k,hk,hmem⟩ := returned_keys cap _ s.hub hhub hret key hkey
  obtain ⟨a,ha,he⟩ := List.mem_filterMap.mp hmem
  refine ⟨k,hk,?_⟩
  rcases a with a | ⟨j,i⟩ | ⟨j,clock⟩
  · cases a <;> simp [hubAction] at he
  · cases he
    exact ha
  · simp [hubAction] at he

/-- After a Ctrl-C that is in time for everyone. The server makes only so many
moves of its own; when none is left the accept loop has returned and nothing of
its clients is left; and if the channel has room for what can still be sent,
every such run is in time and one of them gets there. -/
theorem shutdown_completes (cap : ℕ) (hcap : 0 < cap) (as : List Server.Action) (s : Server.State)
    (h : run (Server.step cap) as Server.init = some s)
    (hg : Guarded (Server.step cap) (InTime cap) as Server.init) (hctrl : .accept .ctrlC ∈ as) :
    (∀ bs t, (∀ a ∈ bs, ownMove a = true) → run (Server.step cap) bs s = some t →
      bs.length+serverPotential t ≤ serverPotential s) ∧
    (∀ bs t, (∀ a ∈ bs, ownMove a = true) → run (Server.step cap) bs s = some t →
      Guarded (Server.step cap) (InTime cap) bs s →
      (∀ a, ownMove a = true → Server.step cap t a = none) → Ended (as++bs) t) ∧
    (Room cap s →
      (∀ bs t, (∀ a ∈ bs, ownMove a = true) → run (Server.step cap) bs s = some t →
        Guarded (Server.step cap) (InTime cap) bs s) ∧
      ∃ bs t, (∀ a ∈ bs, ownMove a = true) ∧ run (Server.step cap) bs s = some t ∧ Ended (as++bs) t) := by
  have hsig := run_signalled cap _ s.hub (run_parts cap as s h).2 (List.mem_filterMap.mpr ⟨_,hctrl,rfl⟩)
  have hd : Draining cap s := ⟨⟨as,h⟩,hsig.elim fun p hp => run_closed cap as s h p hp⟩
  have hend : ∀ bs t, run (Server.step cap) bs s = some t → Guarded (Server.step cap) (InTime cap) bs s →
      Stuck (Server.step cap) (fun _ a => ownMove a = true) t → Ended (as++bs) t := by
    intro bs t ht hgb hstuck
    refine stuck_ended cap hcap (as++bs) t ((run_append_some as bs Server.init t).mpr ⟨s,h,ht⟩) ?_
      (List.mem_append_left _ hctrl) hstuck
    refine (guarded_append _ as bs Server.init).mpr ⟨hg,fun m hm => ?_⟩
    rwa [← Option.some.inj (h.symm.trans hm)]
  refine ⟨fun bs t hown ht => ?_,fun bs t _ ht hgb hstuck => hend bs t ht hgb hstuck,fun hroom => ⟨?_,?_⟩⟩
  · exact descends_length _ _ _ (own_descends cap) bs s t hd ((guarded_forall _ bs s t ht).mpr hown) ht
  · exact fun bs t hown ht => room_guarded cap bs s t hd hroom hown ht
  · obtain ⟨bs,t,hgb,ht,hstuck⟩ := descends_stuck _ _ _ (own_descends cap) s hd
    have hown := (guarded_forall _ bs s t ht).mp hgb
    exact ⟨bs,t,hown,ht,hend bs t ht (room_guarded cap bs s t hd hroom hown ht) hstuck⟩

def roomySignalEnd : Server.State := (run (Server.step 100) timelySignal Server.init).get (by decide +kernel)

theorem roomy_signal_room : Room 100 roomySignalEnd := by
  have htx : roomySignalEnd.hub.shared.tx = [.server (.presence 1 true),.shutdown] := by decide +kernel
  have hpot : serverPotential roomySignalEnd = 80 := by decide +kernel
  intro p hp
  rw [htx] at hp ⊢
  rcases p with _ | _ | p
  · simp at hp
  · simp [hpot]
  · simp at hp

theorem roomy_signal_completes :
    ∃ bs t, run (Server.step 100) bs roomySignalEnd = some t ∧ Ended (timelySignal++bs) t := by
  obtain ⟨_,_,hend⟩ := shutdown_completes 100 (by decide) timelySignal roomySignalEnd
    (Option.some_get _).symm (by decide +kernel) (by simp [timelySignal])
  obtain ⟨bs,t,_,ht,he⟩ := (hend roomy_signal_room).2
  exact ⟨bs,t,ht,he⟩

end RustChat.ShutdownCompletion
