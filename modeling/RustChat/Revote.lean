import RustChat.Settling

/-!
# A vote cast again

When the server is at rest and one client votes again for what it has voted
for, the board is the same before and after. Whatever snapshots were sent
before, in whatever order, all that follow show this board, and a client that
reads on from there is not given anything else.
-/

set_option autoImplicit false

namespace RustChat.Revote
open Runs TaskPool Protocol Broadcast Handler HandlerSteps Hub Footprint Delivery VoteConservation
open SnapshotOrder Settling

/-! ## The throttle after a rest -/

section Gate
open Throttle hiding init
open ThrottleInvariant hiding Quiescent
variable {α : Type*}

/-- What has been sent and overwritten since `p`. -/
structure Since (p q : Throttle.State α) (sent : List (Ticket α)) (lost : List (Ticket α × Ticket α)) :
    Prop where
  sent : q.shared.sent = p.shared.sent++sent
  lost : q.shared.overwritten = p.shared.overwritten++lost
  passed : p.shared.passed <+: q.shared.passed

theorem step_since (p : Throttle.State α) (s t : Throttle.State α) (a : Throttle.Action α)
    (h : Throttle.step s a = some t) (hs : ∃ sent lost, Since p s sent lost) :
    ∃ sent lost, Since p t sent lost := by
  obtain ⟨sent,lost,h1,h2,h3⟩ := hs
  cases a with
  | call m =>
    cases h
    exact ⟨sent,lost,h1,h2,h3.trans (List.prefix_append _ _)⟩
  | thread k clock =>
    obtain ⟨u,g,u',fs,_,hn,rfl⟩ := move_cases Throttle.next s t k clock h
    have hpassed := next_passed s.shared g u u' fs clock hn
    refine ⟨sent++(emits u).toList,?_⟩
    have hsent := next_sent s.shared g u u' fs clock hn
    rw [h1, List.append_assoc] at hsent
    cases next_step s.shared g u u' fs clock hn with
    | park m => exact ⟨_,hsent,by rw [h2, List.append_assoc],hpassed ▸ h3⟩
    | _ => exact ⟨lost,hsent,h2,hpassed ▸ h3⟩

theorem since_settled (p q : Throttle.State α) (sent : List (Ticket α)) (lost : List (Ticket α × Ticket α))
    (hp : Inv p) (hq : ThrottleInvariant.Quiescent p) (hs : Since p q sent lost) :
    settled q.shared = settled p.shared+(sent+lost.map Prod.fst+q.shared.pendingVoteBroadcast.toList) := by
  have hnone := quiescent_slot p hp hq
  simp only [settled, hs.sent, hs.lost, hnone, Option.toList_none, Multiset.coe_nil, add_zero,
    List.map_append, ← Multiset.coe_add]
  abel

theorem since_late (p q : Throttle.State α) (sent : List (Ticket α)) (lost : List (Ticket α × Ticket α))
    (hp : Inv p) (hquiet : ThrottleInvariant.Quiescent p) (hq : Inv q) (hs : Since p q sent lost)
    (x : Ticket α) (hx : x ∈ sent ∨ q.shared.pendingVoteBroadcast = some x) : p.shared.passed.length ≤
    x.call := by
  by_contra hlt
  have hold : ⟨x.call,p.shared.passed[x.call]⟩ ∈ settled p.shared := by
    rw [quiescent_settled p hp hquiet, Multiset.mem_coe, mem_tickets]
    exact List.getElem?_eq_getElem (Nat.lt_of_not_le hlt)
  have hnew : x ∈ (sent+lost.map Prod.fst+q.shared.pendingVoteBroadcast.toList : Multiset (Ticket α)) := by
    rcases hx with hx | hx
    · exact Multiset.mem_add.mpr (Or.inl (Multiset.mem_add.mpr (Or.inl (Multiset.mem_coe.mpr hx))))
    · exact Multiset.mem_add.mpr (Or.inr (by simp [hx]))
  have hnodup := settled_nodup q hq
  rw [since_settled p q sent lost hp hquiet hs, Multiset.map_add, Multiset.nodup_add] at hnodup
  exact Multiset.disjoint_left.mp hnodup.2.2 (Multiset.mem_map.mpr ⟨_,hold,rfl⟩)
    (Multiset.mem_map.mpr ⟨x,hnew,rfl⟩)

/-- One of the messages since `p` is not lost. -/
def Fresh (p q : Throttle.State α) : Prop :=
  p.shared.passed.length < q.shared.passed.length →
    ∃ x, Alive q x ∧ p.shared.passed.length ≤ x.call

theorem step_fresh (p s t : Throttle.State α) (a : Throttle.Action α) (hp : Inv p)
    (hquiet : ThrottleInvariant.Quiescent p) (ht : Inv t) (hsince : ∃ sent lost, Since p t sent lost)
    (h : Throttle.step s a = some t) (hs : Fresh p s) : Fresh p t := by
  intro hlt
  cases a with
  | call m =>
    cases h
    have hle : p.shared.passed.length ≤ s.shared.passed.length := by
      simpa [Throttle.enter, Nat.lt_succ_iff] using hlt
    exact ⟨_,enter_new s m,hle⟩
  | thread k clock =>
    obtain ⟨u,g,u',fs,_,hn,hpool⟩ := move_cases Throttle.next s t k clock h
    have hpassed : t.shared.passed = s.shared.passed := by
      rw [hpool]
      exact next_passed s.shared g u u' fs clock hn
    obtain ⟨x,hx,hlate⟩ := hs (hpassed ▸ hlt)
    rcases move_alive s t k clock h x hx with hx | ⟨_,m,_,_,_,hm⟩
    · exact ⟨x,hx,hlate⟩
    · obtain ⟨sent,lost,hsince⟩ := hsince
      exact ⟨m,Or.inr (Or.inl hm),since_late p t sent lost hp hquiet ht hsince m (Or.inr hm)⟩

/-- What is sent after a rest was passed in after it, and if there was a call
since, something is sent by the next rest. -/
theorem sent_after_rest (as : List (Throttle.Action α)) (p q : Throttle.State α) (hp : Inv p)
    (hquiet : ThrottleInvariant.Quiescent p) (h : run Throttle.step as p = some q) :
    ∃ sent, q.shared.sent = p.shared.sent++sent ∧
      (∀ x ∈ sent, x.msg ∈ q.shared.passed.drop p.shared.passed.length) ∧
      (ThrottleInvariant.Quiescent q → p.shared.passed.length < q.shared.passed.length → sent ≠ []) := by
  have hall := run_invariant (fun q => Inv q ∧ (∃ sent lost, Since p q sent lost) ∧ Fresh p q)
    (fun s a t hs ht => ?_) as p q
    ⟨hp,⟨[],[],(List.append_nil _).symm,(List.append_nil _).symm,List.prefix_refl _⟩,
      fun hlt => absurd hlt (Nat.lt_irrefl _)⟩ h
  · obtain ⟨hq,⟨sent,lost,hs⟩,hfresh⟩ := hall
    refine ⟨sent,hs.sent,fun x hx => ?_,fun hq' hlt hnil => ?_⟩
    · have hlate := since_late p q sent lost hp hquiet hq hs x (Or.inl hx)
      have hmem : x ∈ settled q.shared := by simp [settled, hs.sent, hx]
      have hpassed := settled_passed q hq x hmem
      refine List.mem_of_getElem? (i := x.call-p.shared.passed.length) ?_
      rw [List.getElem?_drop, Nat.add_sub_cancel' hlate]
      exact hpassed
    · obtain ⟨x,hx,hlate⟩ := hfresh hlt
      have hsent := alive_sent q hq hq' x hx
      rw [hs.sent, hnil, List.append_nil] at hsent
      have hold : x ∈ settled p.shared := by simp [settled, hsent]
      have hpassed := settled_passed p hp x hold
      exact absurd (List.getElem?_eq_some_iff.mp hpassed).1 (Nat.not_lt_of_le hlate)
  · obtain ⟨hs,hsince,hfresh⟩ := hs
    have ht' := step_inv s a t hs ht
    have hsince' := step_since p s t a ht hsince
    exact ⟨ht',hsince',step_fresh p s t a hp hquiet ht' hsince' ht hfresh⟩

end Gate

/-! ## One client votes again -/

/-- Handler `ldr` may read a vote for what it has on record, the others none,
and no one with a vote on record withdraws it or leaves. -/
def Again (ldr k : ℕ) (c : Conn) : Input → Prop
  | .line (some (.vote option)) => k = ldr ∧ c.currentVote = some option
  | .line (some .unvote) | .eof | .readError | .writerEnded => c.currentVote = none
  | _ => True

def Revoting (ldr : ℕ) (s : Hub.State) : Hub.Action → Prop
  | .conn k i => ∀ c ∈ s.tasks[k]?, Again ldr k c i
  | _ => True

/-- Where a handler can then be, when the board shows `board` at rest. -/
def Still (board : Counts) (ldr k : ℕ) (c : Conn) : Prop :=
  match c.phase with
  | .handling (.vote option) | .voting option | .voted option => k = ldr ∧ c.currentVote = some option
  | .handling .unvote | .exiting => c.currentVote = none
  | .unvoting _ _ => False
  | .loading loaded _ _ => k = ldr ∧ loaded = (List.ofFn board).take loaded.length
  | _ => True

theorem still_vote (board : Counts) (ldr k : ℕ) (sh : Handler.Shared) (c : Conn) (i : Input) (e : Effect)
    (c' : Conn) (h : HandlerStep sh c i e c') (hc : Still board ldr k c) : c'.currentVote =
    c.currentVote := by
  unfold Still at hc
  cases h with
  | record clock option h =>
    simp only [h] at hc
    exact hc.2.symm
  | withdraw clock prev h hv | disconnect clock prev h hv =>
    simp only [h] at hc
    rw [hc] at hv
    cases hv
  | _ => rfl

theorem still_inProgress (board : Counts) (ldr k : ℕ) (c : Conn) (hc : Still board ldr k c) (hk : k ≠ ldr) :
    inProgress c = 0 := by
  unfold Still at hc
  funext i
  cases hp : c.phase with
  | voting option | voted option =>
    simp only [hp] at hc
    exact absurd hc.1 hk
  | unvoting prev after => simp [hp] at hc
  | _ => simp [inProgress, hp]

theorem still_change (board : Counts) (ldr k : ℕ) (sh : Handler.Shared) (c : Conn) (i : Input) (e : Effect)
    (c' : Conn) (h : HandlerStep sh c i e c') (hc : Still board ldr k c) :
    inProgress c' = inProgress c+boardChange e := by
  have haccount := handler_account sh c i e c' h
  have hvote := still_vote board ldr k sh c i e c' h hc
  funext j
  have hj := congrFun haccount j
  simp only [account, Pi.add_apply, hvote] at hj ⊢
  omega

theorem handler_still (board : Counts) (ldr k : ℕ) (sh : Handler.Shared) (c : Conn) (i : Input)
    (e : Effect) (c' : Conn) (h : HandlerStep sh c i e c') (hi : Again ldr k c i)
    (hboard : k = ldr → inProgress c = 0 → VoteBoard.load sh.counts = board) (hc : Still board ldr k c) :
    Still board ldr k c' := by
  unfold Still at hc ⊢
  cases h with
  | parse msg h =>
    cases msg with
    | vote option => exact hi
    | unvote => exact hi
    | chat | setNick => trivial
  | stop i hstop h => rcases hstop with rfl | rfl | ⟨rfl,_⟩ <;> exact hi
  | skip h => exact hc
  | add clock option h | replace clock option h =>
    simp only [h] at hc
    exact hc
  | record clock option h =>
    simp only [h] at hc
    exact ⟨hc.1,rfl⟩
  | withdraw clock prev h hv | disconnect clock prev h hv =>
    simp only [h] at hc
    rw [hc] at hv
    cases hv
  | unvote clock prev after h => simp [h] at hc
  | load clock loaded asOf after h hl =>
    simp only [h] at hc
    obtain ⟨hk,hloaded⟩ := hc
    refine ⟨hk,?_⟩
    rw [List.length_append, List.length_singleton, List.take_add_one, ← hloaded,
      hboard hk (by funext j; simp [inProgress, h]), List.getElem?_ofFn, dif_pos hl, Option.toList_some]
  | resume clock call after h hr => cases after <;> trivial
  | _ => trivial

theorem still_passed (board : Counts) (ldr k : ℕ) (sh : Handler.Shared) (c : Conn) (i : Input) (c' : Conn)
    (x : Snapshot) (h : HandlerStep sh c i (.callThrottled x) c') (hc : Still board ldr k c) :
    x.counts = board := by
  unfold Still at hc
  generalize he : Effect.callThrottled x = e at h
  cases h with
  | publish clock loaded asOf after h hl =>
    obtain rfl := Effect.callThrottled.inj he
    simp only [h] at hc
    funext i
    have hi : i.val < loaded.length := Nat.lt_of_lt_of_le i.isLt hl
    have hget : loaded[i.val]? = some (board i) := by
      rw [hc.2, List.getElem?_take_of_lt hi, List.getElem?_ofFn, dif_pos i.isLt]
    simp [List.getD_eq_getElem?_getD, hget]
  | replace clock option h => cases hv : c.currentVote <;> simp [hv, subtract] at he
  | _ => cases he

def due (ldr : ℕ) (s : Hub.State) : Fin nOptions → ℤ := (s.tasks[ldr]?).elim 0 inProgress

theorem due_set (ldr : ℕ) (s : Hub.State) (sh : Handler.Shared) (k : ℕ) (c c' : Conn)
    (hc : s.tasks[k]? = some c) :
    due ldr ⟨sh,s.tasks.set k c'⟩ = if k = ldr then inProgress c' else due ldr s := by
  have hk := (List.getElem?_eq_some_iff.mp hc).1
  unfold due
  rw [List.getElem?_set]
  split_ifs with hkl
  · rfl
  · rfl

theorem due_spawn (ldr : ℕ) (s : Hub.State) (sh : Handler.Shared) (id : ℕ) :
    due ldr ⟨sh,s.tasks++[Handler.spawn id]⟩ = due ldr s := by
  unfold due
  rcases Nat.lt_trichotomy ldr s.tasks.length with hlt | heq | hgt
  · rw [List.getElem?_append_left hlt]
  · subst heq
    simp [Handler.spawn]
    rfl
  · rw [List.getElem?_eq_none (by simp; omega), List.getElem?_eq_none (by omega)]

/-- Since `m`: the handlers, the board, and the snapshots passed on. -/
structure Steady (m : Hub.State) (ldr : ℕ) (s : Hub.State) : Prop where
  still : ∀ (k : ℕ) c, s.tasks[k]? = some c → Still (VoteBoard.load m.shared.counts) ldr k c
  board : s.shared.counts = m.shared.counts+due ldr s
  passed : ∃ more, s.shared.throttle.shared.passed = m.shared.throttle.shared.passed++more ∧
    ∀ x ∈ more, x.counts = VoteBoard.load m.shared.counts

theorem apply_passed (sh : Handler.Shared) (e : Effect) :
    (apply sh e).throttle.shared.passed = sh.throttle.shared.passed++match e with
      | .callThrottled x => [x]
      | _ => [] := by
  cases e <;> simp [apply, Throttle.enter]

theorem step_steady (cap : ℕ) (m : Hub.State) (ldr : ℕ) (s : Hub.State) (a : Hub.Action) (t : Hub.State)
    (hs : Steady m ldr s) (ha : Revoting ldr s a) (h : step cap s a = some t) : Steady m ldr t := by
  obtain ⟨hstill,hboard,more,hpassed,hmore⟩ := hs
  cases step_hub cap s a t h with
  | spawn =>
    refine ⟨fun k c hc => ?_,by rw [due_spawn]; exact hboard,more,hpassed,hmore⟩
    rcases Nat.lt_or_ge k s.tasks.length with hk | hk
    · exact hstill k c (by rwa [List.getElem?_append_left hk] at hc)
    · rw [List.getElem?_append_right hk, List.getElem?_singleton] at hc
      split_ifs at hc
      cases hc
      trivial
  | shutdown => exact ⟨hstill,hboard,more,hpassed,hmore⟩
  | throttle k clock u hu =>
    obtain ⟨v,g,v',fs,_,hn,rfl⟩ := move_cases Throttle.next s.shared.throttle u k clock hu
    exact ⟨hstill,hboard,more,(ThrottleInvariant.next_passed _ g v v' fs clock hn).trans hpassed,hmore⟩
  | writer k i c c' hc hw =>
    obtain ⟨_,hphase,hvote,_⟩ := writer_frame cap s.shared c i c' hw
    refine ⟨fun j d hd => ?_,?_,more,hpassed,hmore⟩
    · rcases getElem?_set_cases s.tasks k j c' d hd with ⟨rfl,rfl⟩ | ⟨_,hd⟩
      · have hold := hstill j c hc
        unfold Still at hold ⊢
        rwa [hphase, hvote]
      · exact hstill j d hd
    · rw [due_set ldr s _ k c c' hc]
      split_ifs with hk
      · subst hk
        have hsame : inProgress c' = inProgress c := by funext i; simp [inProgress, hphase, hvote]
        simpa [hsame, due, hc] using hboard
      · exact hboard
  | handler k i c c' e hc hstep =>
    have hagain : Again ldr k c i := ha c (Option.mem_def.mpr hc)
    have hold := hstill k c hc
    have hchange := still_change _ ldr k s.shared c i e c' hstep hold
    have hnew : Still (VoteBoard.load m.shared.counts) ldr k c' := by
      refine handler_still _ ldr k s.shared c i e c' hstep hagain ?_ hold
      rintro rfl hzero
      rw [hboard, due, hc, Option.elim_some, hzero, add_zero]
    refine ⟨fun j d hd => ?_,?_,?_⟩
    · rcases getElem?_set_cases s.tasks k j c' d hd with ⟨rfl,rfl⟩ | ⟨_,hd⟩
      · exact hnew
      · exact hstill j d hd
    · rw [due_set ldr s _ k c c' hc, apply_counts, hboard]
      split_ifs with hk
      · subst hk
        rw [hchange, due, hc, Option.elim_some, add_assoc]
      · rw [still_inProgress _ ldr k c' hnew hk, still_inProgress _ ldr k c hold hk, zero_add] at hchange
        rw [← hchange, add_zero]
    · dsimp only
      rw [apply_passed, hpassed, List.append_assoc]
      refine ⟨_,rfl,fun x hx => ?_⟩
      rcases List.mem_append.mp hx with hx | hx
      · exact hmore x hx
      · cases e with
        | callThrottled y =>
          obtain rfl := List.mem_singleton.mp hx
          exact still_passed _ ldr k s.shared c i c' x hstep hold
        | _ => cases hx

/-! ## Something is sent -/

def Busy : Handler.Phase → Prop
  | .handling (.vote _) | .voting _ | .voted _ | .loading _ _ _ => True
  | _ => False

theorem handler_busy (sh : Handler.Shared) (c : Conn) (i : Input) (e : Effect) (c' : Conn)
    (h : HandlerStep sh c i e c') :
    (∃ more, c'.parsed = c.parsed++more ∧ ((∃ option, .vote option ∈ more) → Busy c'.phase)) ∧
      (Busy c.phase → Busy c'.phase ∨ ∃ x, e = .callThrottled x) := by
  cases h with
  | parse msg h =>
    refine ⟨⟨[msg],rfl,?_⟩,by simp [h, Busy]⟩
    rintro ⟨option,ho⟩
    obtain rfl : ClientMsg.vote option = msg := List.mem_singleton.mp ho
    trivial
  | skip h => exact ⟨⟨[],by simp⟩,Or.inl⟩
  | publish clock loaded asOf after h hl => exact ⟨⟨[],by simp⟩,fun _ => Or.inr ⟨_,rfl⟩⟩
  | _ => exact ⟨⟨[],by simp⟩,by simp [Busy, *]⟩

/-- A vote handler `k` has read since `m` leads to a call. -/
def Told (m : Hub.State) (k : ℕ) (before : List ClientMsg) (s : Hub.State) : Prop :=
  m.shared.throttle.shared.passed.length ≤ s.shared.throttle.shared.passed.length ∧
  ∃ c more, s.tasks[k]? = some c ∧ c.parsed = before++more ∧ ((∃ option, .vote option ∈ more) →
    m.shared.throttle.shared.passed.length < s.shared.throttle.shared.passed.length ∨ Busy c.phase)

theorem step_told (cap : ℕ) (m : Hub.State) (k : ℕ) (before : List ClientMsg) (s : Hub.State)
    (a : Hub.Action) (t : Hub.State) (hs : Told m k before s) (h : step cap s a = some t) : Told m k before
    t := by
  obtain ⟨hle,c,more,hc,hparsed,hvote⟩ := hs
  cases step_hub cap s a t h with
  | spawn =>
    have hk := (List.getElem?_eq_some_iff.mp hc).1
    exact ⟨hle,c,more,(List.getElem?_append_left hk).trans hc,hparsed,hvote⟩
  | shutdown => exact ⟨hle,c,more,hc,hparsed,hvote⟩
  | throttle j clock u hu =>
    obtain ⟨v,g,v',fs,_,hn,rfl⟩ := move_cases Throttle.next s.shared.throttle u j clock hu
    have hpassed := ThrottleInvariant.next_passed _ g v v' fs clock hn
    refine ⟨?_,c,more,hc,hparsed,?_⟩
    · simpa [hpassed] using hle
    · simpa [hpassed] using hvote
  | writer j i d d' hd hw =>
    obtain ⟨_,hphase,_,_,_,_,hsame⟩ := writer_frame cap s.shared d i d' hw
    by_cases hj : j = k
    · subst hj
      obtain rfl : d = c := Option.some.inj (hd.symm.trans hc)
      exact ⟨hle,d',more,getElem?_set_same s.tasks j d d' hd,hsame.trans hparsed,by rwa [hphase]⟩
    · exact ⟨hle,c,more,(List.getElem?_set_ne hj).trans hc,hparsed,hvote⟩
  | handler j i d d' e hd hstep =>
    have hgrow : s.shared.throttle.shared.passed.length ≤
        (apply s.shared e).throttle.shared.passed.length := by
      rw [apply_passed, List.length_append]
      exact Nat.le_add_right _ _
    refine ⟨hle.trans hgrow,?_⟩
    by_cases hj : j = k
    · subst hj
      obtain rfl : d = c := Option.some.inj (hd.symm.trans hc)
      obtain ⟨⟨new,hnew,hbusy⟩,hkeep⟩ := handler_busy s.shared d i e d' hstep
      refine ⟨d',more++new,getElem?_set_same s.tasks j d d' hd,by rw [hnew, hparsed, List.append_assoc],?_⟩
      rintro ⟨option,ho⟩
      rcases List.mem_append.mp ho with ho | ho
      · rcases hvote ⟨option,ho⟩ with hlt | hb
        · exact Or.inl (hlt.trans_le hgrow)
        · rcases hkeep hb with hb | ⟨x,rfl⟩
          · exact Or.inr hb
          · refine Or.inl (hle.trans_lt ?_)
            simp [apply_passed]
      · exact Or.inr (hbusy ⟨option,ho⟩)
    · exact ⟨c,more,(List.getElem?_set_ne hj).trans hc,hparsed,fun ho =>
        (hvote ho).imp_left fun hlt => hlt.trans_le hgrow⟩

/-! ## From rest to rest -/

theorem settled_still (board : Counts) (ldr : ℕ) (s : Hub.State) (hs : Settled s) (k : ℕ) (c : Conn)
    (hc : s.tasks[k]? = some c) : Still board ldr k c ∧ inProgress c = 0 := by
  have hzero : ∀ i, inProgress c i = 0 := by
    intro i
    rcases hs.handlers c (List.mem_of_getElem? hc) with hp | ⟨ok,hp⟩
    · simp [inProgress, hp.reading]
    · simp [inProgress, hp]
  refine ⟨?_,funext hzero⟩
  rcases hs.handlers c (List.mem_of_getElem? hc) with hp | ⟨ok,hp⟩
  · simp [Still, hp.reading]
  · simp [Still, hp]

theorem settled_due (ldr : ℕ) (s : Hub.State) (hs : Settled s) : due ldr s = 0 := by
  unfold due
  cases hc : s.tasks[ldr]? with
  | none => rfl
  | some c => exact (settled_still (fun _ => 0) ldr s hs ldr c hc).2

/-- Between two states of rest one client votes again, in any interleaving with
what does not touch the board. Then the board is the same, and everything sent
in between shows it, whatever was sent before. -/
theorem revote_shows (cap ldr : ℕ) (as bs : List Hub.Action) (m t : Hub.State)
    (hm : run (step cap) as init = some m) (ht : run (step cap) bs m = some t)
    (hg : Guarded (step cap) (Revoting ldr) bs m) (hrest : Settled m) (hrest' : Settled t) :
    t.shared.counts = m.shared.counts ∧ ∃ more, t.shared.tx = m.shared.tx++more ∧
      (∀ x ∈ voteSnapshots more, x = VoteBoard.load t.shared.counts) ∧
      ∀ c d new, m.tasks[ldr]? = some c → t.tasks[ldr]? = some d → d.parsed = c.parsed++new →
        (∃ option, .vote option ∈ new) → voteSnapshots more ≠ [] := by
  have hrun : run (step cap) (as++bs) init = some t := (run_append_some as bs init t).mpr ⟨m,hm,ht⟩
  have hsteady : Steady m ldr t := by
    refine guarded_invariant (Revoting ldr) (Steady m ldr)
      (fun s a t hs ha h => step_steady cap m ldr s a t hs ha h) bs m t
      ⟨fun k c hc => (settled_still _ ldr m hrest k c hc).1,?_,[],(List.append_nil _).symm,by simp⟩ hg ht
    rw [settled_due ldr m hrest, add_zero]
  obtain ⟨_,hboard,added,hpassed,hadded⟩ := hsteady
  rw [settled_due ldr t hrest', add_zero] at hboard
  obtain ⟨more,hmore⟩ := run_log_prefix cap bs m t ht
  obtain ⟨cs,hcs⟩ := run_simulates Throttle.step (fun s : Hub.State => s.shared.throttle)
    (step_throttle cap) bs m t ht
  obtain ⟨sent,hsent,hfresh,hsome⟩ := sent_after_rest cs m.shared.throttle t.shared.throttle
    (run_throttle cap as m hm) hrest.throttle hcs
  have hsnap : voteSnapshots more = sent.map fun x => x.msg.counts := by
    have h1 : Relayed m := run_invariant Relayed (step_relayed cap) as init m rfl hm
    have h2 : Relayed t := run_invariant Relayed (step_relayed cap) (as++bs) init t rfl hrun
    unfold Relayed voteSnapshots at h1 h2
    rw [← hmore, List.filterMap_append, h1, hsent, List.map_append] at h2
    exact List.append_cancel_left h2
  refine ⟨hboard,more,hmore.symm,fun x hx => ?_,fun c d new hc hd hnew hvote hnil => ?_⟩
  · rw [hsnap] at hx
    obtain ⟨y,hy,rfl⟩ := List.mem_map.mp hx
    have hmem := hfresh y hy
    rw [hpassed, List.drop_left] at hmem
    rw [hadded _ hmem, hboard]
  · have htold : Told m ldr c.parsed t := by
      refine run_invariant (Told m ldr c.parsed)
        (fun s a t hs h => step_told cap m ldr c.parsed s a t hs h) bs m t
        ⟨Nat.le_refl _,c,[],hc,(List.append_nil _).symm,by simp⟩ ht
    obtain ⟨_,d',new',hd',hnew',hcall⟩ := htold
    obtain rfl : d = d' := Option.some.inj (hd.symm.trans hd')
    obtain rfl : new = new' := List.append_cancel_left (hnew.symm.trans hnew')
    rcases hcall hvote with hlt | hbusy
    · refine hsome hrest'.throttle hlt ?_
      rwa [hsnap, List.map_eq_nil_iff] at hnil
    · rcases hrest'.handlers d (List.mem_of_getElem? hd) with hp | ⟨ok,hp⟩
      · simp [hp.reading, Busy] at hbusy
      · simp [hp, Busy] at hbusy

/-! ## Reading on -/

/-- The write task that had read up to `n` has been given all there is since. -/
def Onward (n : ℕ) (before : List ℕ) (c : Conn) : Prop :=
  c.phase ≠ .spawned ∧ c.writer ≠ .notStarted ∧ ∃ r, c.rx = some r ∧ n ≤ r.next ∧
    (c.writer ≠ .stopped → positions c++inflight c.writer = before++List.range' n (r.next-n))

theorem handler_onward (n : ℕ) (before : List ℕ) (cap : ℕ) (sh : Handler.Shared) (c : Conn) (i : Input)
    (e : Effect) (c' : Conn) (h : HandlerStep sh c i e c') (hf : Fed cap sh c) (hc : Onward n before c) :
    Onward n before c' := by
  obtain ⟨hphase,hwriter,r,hr,hn,hgot⟩ := hc
  obtain ⟨hlines,⟨_,hrx,hw,_⟩ | ⟨hp,_⟩ | ⟨_,hp,_⟩⟩ := handler_stream sh c i e c' h
  · refine ⟨(handler_started sh c i e c' h).1,hw ▸ hwriter,r,hrx.trans hr,hn,?_⟩
    rw [positions, hlines, hw]
    exact hgot
  · exact absurd hp hphase
  · exact absurd (hf.before hp) hwriter

theorem writer_onward (n : ℕ) (before : List ℕ) (cap : ℕ) (sh : Handler.Shared) (c : Conn) (i : Input)
    (c' : Conn) (h : WriterStep cap sh c i c') (hshort : sh.tx.length ≤ n+cap) (hc : Onward n before c) :
    Onward n before c' := by
  obtain ⟨hphase,hwriter,r,hr,hn,hgot⟩ := hc
  have hphase' := (writer_frame cap sh c i c' h).2.1
  rw [← hphase'] at hphase
  cases h with
  | event r₀ r' pos msg hw hr' hrecv =>
    obtain rfl : r = r₀ := Option.some.inj (hr.symm.trans hr')
    obtain ⟨_,rfl,_,rfl⟩ := recv_event cap sh.tx r r' pos _ hrecv
    refine ⟨hphase,by simp,_,rfl,Nat.le_succ_of_le hn,fun _ => ?_⟩
    have hold : positions c = before++List.range' n (r.next-n) := by simpa [hw, inflight] using hgot
    rw [show r.next+1-n = r.next-n+1 by omega, List.range'_concat, ← List.append_assoc, ← hold]
    simp only [positions, inflight]
    congr 2
    omega
  | shutdown r₀ r' pos hw hr' hrecv =>
    obtain rfl : r = r₀ := Option.some.inj (hr.symm.trans hr')
    obtain ⟨_,rfl,_,rfl⟩ := recv_event cap sh.tx r r' pos _ hrecv
    exact ⟨hphase,by simp,_,rfl,Nat.le_succ_of_le hn,fun hw => absurd rfl hw⟩
  | lagged r₀ r' k hw hr' hrecv =>
    obtain rfl : r = r₀ := Option.some.inj (hr.symm.trans hr')
    have hfar := (recv_lagged cap sh.tx r r' k hrecv).1
    omega
  | written pos msg hw =>
    refine ⟨hphase,by simp,r,hr,hn,fun _ => ?_⟩
    rw [← hgot (by simp [hw]), hw]
    simp [positions, inflight]
  | stop i hi hw => exact ⟨hphase,by simp,r,hr,hn,fun hw => absurd rfl hw⟩

/-- A client whose handler waits at both ends has been given the events in
between, all of them if they are not more than are retained. -/
theorem reads_on (cap : ℕ) (as bs : List Hub.Action) (m t : Hub.State)
    (hm : run (step cap) as init = some m) (ht : run (step cap) bs m = some t) (k : ℕ) (c d : Conn)
    (hc : m.tasks[k]? = some c) (hd : t.tasks[k]? = some d)
    (hwait : Waiting m.shared c) (hwait' : Waiting t.shared d) (more : List BroadcastEvent)
    (hmore : t.shared.tx = m.shared.tx++more) (hshort : more.length ≤ cap) :
    events d = events c++more := by
  obtain ⟨r₀,hr₀,hend₀⟩ := hwait.drained
  have hall : ∃ d, t.tasks[k]? = some d ∧ Onward m.shared.tx.length (positions c) d := by
    refine run_history (fun bs t => t.shared.tx.length ≤ m.shared.tx.length+cap →
      ∃ d, t.tasks[k]? = some d ∧ Onward m.shared.tx.length (positions c) d) m (fun _ => ⟨c,hc,?_⟩) ?_ bs t
        ht
      (by rw [hmore, List.length_append]; omega)
    · refine ⟨by simp [hwait.reading],by simp [hwait.waiting],r₀,hr₀,hend₀.ge,fun _ => ?_⟩
      simp [hend₀, hwait.waiting, inflight]
    · intro bs s a u hs ih hu hlen
      have hpre := run_log_prefix cap [a] s u ((run_cons a [] s u).mpr ⟨u,hu,rfl⟩)
      have hgrow := hpre.length_le
      obtain ⟨d,hd,hon⟩ := ih (hgrow.trans hlen)
      obtain ⟨d',hd',⟨rfl,_⟩ | ⟨i,_,⟨e,hh⟩ | hw⟩⟩ := conn_forward cap s u a hu k d hd
      · exact ⟨d',hd',hon⟩
      · have hf := run_fed cap (as++bs) s ((run_append_some as bs init s).mpr ⟨m,hm,hs⟩) k d hd
        exact ⟨d',hd',handler_onward _ _ cap s.shared d i e d' hh hf hon⟩
      · exact ⟨d',hd',writer_onward _ _ cap s.shared d i d' hw (hgrow.trans hlen) hon⟩
  obtain ⟨d₀,hd₀,_,_,r,hr,hle,hgot⟩ := hall
  obtain rfl : d = d₀ := Option.some.inj (hd.symm.trans hd₀)
  obtain ⟨r',hr',hend⟩ := hwait'.drained
  obtain rfl : r = r' := Option.some.inj (hr.symm.trans hr')
  have hpos : positions d = positions c++List.range' m.shared.tx.length (r.next-m.shared.tx.length) := by
    simpa [hwait'.waiting, inflight] using hgot
  have hrun : run (step cap) (as++bs) init = some t := (run_append_some as bs init t).mpr ⟨m,hm,ht⟩
  have hfc := run_fed cap as m hm k c hc
  have hold : (positions c).filterMap (t.shared.tx[·]?) = events c := by
    rw [events_positions cap m.shared c hfc]
    refine List.filterMap_congr fun p hp => ?_
    obtain ⟨l,hl,rfl⟩ := List.mem_map.mp hp
    rw [hfc.lines l hl, hmore]
    exact getElem?_append_some _ _ _ _ (hfc.lines l hl)
  rw [events_positions cap t.shared d (run_fed cap (as++bs) t hrun k d hd), hpos, List.filterMap_append,
    hold, range'_getElem?, hend, hmore, List.drop_left, List.length_append, Nat.add_sub_cancel_left,
    List.take_length]

end RustChat.Revote
