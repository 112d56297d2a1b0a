import RustChat.Footprint
import RustChat.ThrottleInvariant
import RustChat.VoteConservation

/-!
# Which vote snapshot is last

A snapshot is taken outside any lock and then travels through the fast path or
through the slot, and nothing compares it with the snapshots it meets there.
The last one sent is the state of the board if none overtakes another, and
need not be otherwise.
-/

set_option autoImplicit false

namespace RustChat.SnapshotOrder
open Runs TaskPool Protocol Handler HandlerSteps Hub Footprint VoteConservation
open ThrottleInvariant (Alive stores move_alive enter_alive enter_new alive_sent)

/-! ## The throttle inside the server -/

/-- What the server does to its throttle is a run of the throttle. -/
theorem step_throttle (cap : ℕ) (s : State) (a : Action) (t : State) (h : step cap s a = some t) :
    ∃ bs, run Throttle.step bs s.shared.throttle = some t.shared.throttle := by
  cases step_hub cap s a t h with
  | spawn | writer | shutdown => exact ⟨[],rfl⟩
  | throttle k clock u hu => exact ⟨[.thread k clock],(run_cons _ [] _ _).mpr ⟨u,hu,rfl⟩⟩
  | handler k i c c' e hc hs =>
    cases e with
    | callThrottled m => exact ⟨[.call m],(run_cons _ [] _ _).mpr ⟨_,rfl,rfl⟩⟩
    | _ => exact ⟨[],rfl⟩

theorem run_throttle (cap : ℕ) (as : List Action) (s : State) (h : run (step cap) as init = some s) :
    ThrottleInvariant.Inv s.shared.throttle := by
  obtain ⟨bs,hb⟩ := run_simulates Throttle.step (fun s : State => s.shared.throttle)
    (step_throttle cap) as init s h
  exact ThrottleInvariant.run_inv bs _ hb

def snapshotOf : BroadcastEvent → Option Counts
  | .server (.voteSnapshot counts) => some counts
  | _ => none

def voteSnapshots (log : List BroadcastEvent) : List Counts := log.filterMap snapshotOf

/-- Only the throttle sends snapshots. -/
def Relayed (s : State) : Prop :=
  voteSnapshots s.shared.tx = s.shared.throttle.shared.sent.map fun x => x.msg.counts

theorem handler_snapshots (sh : Shared) (c : Conn) (i : Input) (e : Effect) (c' : Conn)
    (h : HandlerStep sh c i e c') :
    voteSnapshots (emitted e) = [] ∧
      (apply sh e).throttle.shared.sent = sh.throttle.shared.sent := by
  cases h with
  | replace clock option h =>
    cases c.currentVote <;> simp [subtract, emitted, voteSnapshots, apply]
  | _ => simp [emitted, voteSnapshots, snapshotOf, apply, Throttle.enter]

theorem step_relayed (cap : ℕ) (s : State) (a : Action) (t : State) (hs : Relayed s)
    (h : step cap s a = some t) : Relayed t := by
  unfold Relayed voteSnapshots at *
  cases step_hub cap s a t h with
  | spawn | writer => exact hs
  | handler k i c c' e hc hstep =>
    obtain ⟨hsnap,hsent⟩ := handler_snapshots s.shared c i e c' hstep
    dsimp only
    rw [apply_tx, List.filterMap_append, show (emitted e).filterMap snapshotOf = [] from hsnap,
      List.append_nil, hsent, hs]
  | throttle k clock u hu =>
    obtain ⟨v,g,v',fs,hv,hn,rfl⟩ := move_cases Throttle.next s.shared.throttle u k clock hu
    have hsent := Throttle.next_sent s.shared.throttle.shared g v v' fs clock hn
    dsimp only [sentSnapshots]
    rw [hsent, List.drop_left, List.filterMap_append, hs, List.map_append, List.filterMap_map]
    congr 1
    exact congrFun List.filterMap_eq_map _
  | shutdown => simpa [List.filterMap_cons, snapshotOf] using hs

/-! ## What a snapshot shows -/

/-- A snapshot taken since the last change of the board shows the board. -/
def Shows (sh : Shared) (m : Snapshot) : Prop :=
  m.asOf ≤ sh.version ∧ (m.asOf = sh.version → m.counts = VoteBoard.load sh.counts)

def Loaded (sh : Shared) (c : Conn) : Prop :=
  match c.phase with
  | .loading loaded asOf _ => loaded ≠ [] → asOf ≤ sh.version ∧ (asOf = sh.version →
      ∀ i : Fin nOptions, i.val < loaded.length → loaded.getD i 0 = VoteBoard.load sh.counts i)
  | _ => True

theorem apply_board (sh : Shared) (e : Effect) :
    ((apply sh e).version = sh.version ∧ (apply sh e).counts = sh.counts) ∨
      (apply sh e).version = sh.version+1 := by
  cases e with
  | fetchAdd option d =>
    by_cases ho : option < nOptions
    · exact Or.inr (by simp [apply, ho])
    · exact Or.inl (by simp [apply, ho, VoteBoard.fetchAdd_out_of_range _ _ _ (Nat.le_of_not_lt ho)])
  | _ => exact Or.inl ⟨rfl,rfl⟩

theorem shows_apply (sh : Shared) (e : Effect) (m : Snapshot) (h : Shows sh m) : Shows (apply sh e) m := by
  obtain ⟨hle,hc⟩ := h
  rcases apply_board sh e with ⟨hv,hb⟩ | hv
  · exact ⟨by omega,fun he => by rw [hb]; exact hc (by omega)⟩
  · exact ⟨by omega,fun he => by omega⟩

theorem loaded_apply (sh : Shared) (e : Effect) (c : Conn) (h : Loaded sh c) : Loaded (apply sh e) c := by
  unfold Loaded at h ⊢
  split at h <;> try trivial
  intro hne
  obtain ⟨hle,hc⟩ := h hne
  rcases apply_board sh e with ⟨hv,hb⟩ | hv
  · exact ⟨by omega,fun he => by rw [hb]; exact hc (by omega)⟩
  · exact ⟨by omega,fun he => by omega⟩

theorem handler_loaded (sh : Shared) (c : Conn) (i : Input) (e : Effect) (c' : Conn)
    (h : HandlerStep sh c i e c') (hc : Loaded sh c) : Loaded (apply sh e) c' := by
  refine loaded_apply sh e c' ?_
  unfold Loaded at hc ⊢
  cases h with
  | load clock loaded asOf after h hl =>
    simp only [h] at hc
    intro _
    by_cases h0 : loaded = []
    · subst h0
      refine ⟨by simp,fun _ i hi => ?_⟩
      obtain rfl : i = ⟨0,hl⟩ := Fin.ext (by simpa using hi)
      rfl
    · obtain ⟨hle,heq⟩ := hc h0
      simp only [h0, if_false]
      refine ⟨hle,fun hv i hi => ?_⟩
      rw [List.length_append, List.length_singleton] at hi
      rcases Nat.lt_or_ge i.val loaded.length with hlt | hge
      · rw [List.getD_eq_getElem?_getD, List.getElem?_append_left hlt, ← List.getD_eq_getElem?_getD]
        exact heq hv i hlt
      · have hi' : i = ⟨loaded.length,hl⟩ := Fin.ext (by simp only; omega)
        rw [hi', List.getD_eq_getElem?_getD, List.getElem?_concat_length]
        rfl
  | resume clock call after h hr => cases after <;> simp [After.phase]
  | skip h => exact hc
  | record | unvote => exact fun h => absurd rfl h
  | _ => trivial

theorem run_loaded (cap : ℕ) (as : List Action) (s : State) (h : run (step cap) as init = some s)
    (k : ℕ) (c : Conn) (hc : s.tasks[k]? = some c) : Loaded s.shared c := by
  refine run_kept cap (fun _ => True) (fun sh _ c => Loaded sh c) (fun _ _ _ => trivial) ?_ as s h k c hc
  exact {
    spawned := fun s _ => trivial
    moved := fun s k i c c' e _ _ hs hc => handler_loaded s.shared c i e c' hs hc
    wrote := fun s k i c c' _ _ hw hc => by
      simpa [Loaded, (writer_frame cap s.shared c i c' hw).2.1] using hc
    other := fun s k j i c c' e d _ _ _ _ _ hd => loaded_apply s.shared e d hd
    throttled := fun s k clock t j d _ _ _ hd => hd
    shutdown := fun s j d _ _ hd => hd }

/-- The snapshots passed to the throttle show the board as it is now, or an
older version. -/
def AllShow (s : State) : Prop := ∀ m ∈ s.shared.throttle.shared.passed, Shows s.shared m

theorem handler_passed (sh : Shared) (c : Conn) (i : Input) (e : Effect) (c' : Conn)
    (h : HandlerStep sh c i e c') (hl : Loaded sh c) (m : Snapshot)
    (hm : m ∈ (apply sh e).throttle.shared.passed) :
    m ∈ sh.throttle.shared.passed ∨ e = .callThrottled m ∧ Shows sh m := by
  cases h with
  | publish clock loaded asOf after h hlen =>
    rcases List.mem_append.mp hm with hm | hm
    · exact Or.inl hm
    · obtain rfl := List.mem_singleton.mp hm
      simp only [Loaded, h] at hl
      have hpos : 0 < loaded.length := Nat.lt_of_lt_of_le (by decide) hlen
      obtain ⟨hle,heq⟩ := hl (List.ne_nil_of_length_pos hpos)
      exact Or.inr ⟨rfl,hle,fun hv => funext fun i => heq hv i (Nat.lt_of_lt_of_le i.isLt hlen)⟩
  | replace clock option h => cases hv : c.currentVote <;> exact Or.inl (by simpa [hv, subtract, apply] using hm)
  | _ => exact Or.inl hm

theorem run_allShow (cap : ℕ) (as : List Action) (s : State) (h : run (step cap) as init = some s) :
    AllShow s := by
  refine run_history (fun _ => AllShow) init (by simp [AllShow, init, Throttle.init]) ?_ as s h
  intro as m a t hm ih ht x hx
  cases step_hub cap m a t ht with
  | spawn | writer | shutdown => exact ih x hx
  | handler k i c c' e hc hs =>
    refine shows_apply m.shared e x ?_
    rcases handler_passed m.shared c i e c' hs (run_loaded cap as m hm k c hc) x hx with hx | ⟨_,hx⟩
    · exact ih x hx
    · exact hx
  | throttle k clock u hu =>
    obtain ⟨v,g,v',fs,hv,hn,rfl⟩ := move_cases Throttle.next m.shared.throttle u k clock hu
    refine ih x ?_
    rwa [← ThrottleInvariant.next_passed m.shared.throttle.shared g v v' fs clock hn]

/-! ## Runs without overtaking -/

/-- Nothing is sent after a snapshot taken later, and nothing is stored over
one taken later. -/
def Ordered (s : State) : Action → Prop
  | .throttle k _ => ∀ t ∈ s.shared.throttle.tasks[k]?,
    (∀ m ∈ Throttle.emits t, ∀ x ∈ s.shared.throttle.shared.sent, x.msg.asOf ≤ m.msg.asOf) ∧
      ∀ m ∈ stores t, ∀ x ∈ s.shared.throttle.shared.pendingVoteBroadcast, x.msg.asOf ≤ m.msg.asOf
  | _ => True

/-- The handler is to pass on a snapshot of the current version. -/
def WillTake (version : ℕ) : Phase → Prop
  | .voting _ | .voted _ => True
  | .loading loaded asOf _ => loaded = [] ∨ asOf = version
  | _ => False

/-- A snapshot of the current version is on its way, or has been sent. -/
def Covered (s : State) : Prop :=
  (s.shared.version = 0 ∧ s.shared.throttle.shared.passed = []) ∨
    (∃ c ∈ s.tasks, WillTake s.shared.version c.phase) ∨
    ∃ x, Alive s.shared.throttle x ∧ x.msg.asOf = s.shared.version

def InOrder (s : State) : Prop :=
  (s.shared.throttle.shared.sent.map fun x => x.msg.asOf).Pairwise (· ≤ ·)

/-- A new version has its snapshot still to come, and a snapshot to come is
taken or passed on. -/
theorem handler_takes (sh : Shared) (c : Conn) (i : Input) (e : Effect) (c' : Conn)
    (h : HandlerStep sh c i e c') :
    ((apply sh e).version = sh.version ∨ WillTake (apply sh e).version c'.phase) ∧
      (WillTake sh.version c.phase →
        WillTake sh.version c'.phase ∨ ∃ m, e = .callThrottled m ∧ m.asOf = sh.version) := by
  cases h with
  | add clock option h => exact ⟨Or.inr trivial,by simp [h, WillTake]⟩
  | replace clock option h => exact ⟨Or.inr trivial,fun _ => Or.inl trivial⟩
  | record clock option h => exact ⟨Or.inl rfl,fun _ => Or.inl (Or.inl rfl)⟩
  | unvote clock prev after h => exact ⟨Or.inr (Or.inl rfl),fun _ => Or.inl (Or.inl rfl)⟩
  | load clock loaded asOf after h hl =>
    refine ⟨Or.inl rfl,fun hw => Or.inl (Or.inr ?_)⟩
    rw [h] at hw
    split_ifs with h0
    · rfl
    · exact hw.resolve_left h0
  | publish clock loaded asOf after h hlen =>
    refine ⟨Or.inl rfl,fun hw => Or.inr ⟨_,rfl,?_⟩⟩
    rw [h] at hw
    refine hw.resolve_left fun h0 => ?_
    rw [h0] at hlen
    exact absurd hlen (by decide)
  | resume clock call after h hr => exact ⟨Or.inl rfl,by simp [h, WillTake]⟩
  | skip h => exact ⟨Or.inl rfl,Or.inl⟩
  | _ => exact ⟨Or.inl rfl,by simp [WillTake, *]⟩

theorem apply_throttle (sh : Shared) (e : Effect) :
    (apply sh e).throttle = sh.throttle ∨
      ∃ m, e = .callThrottled m ∧ (apply sh e).throttle = Throttle.enter sh.throttle m := by
  cases e with
  | callThrottled m => exact Or.inr ⟨m,rfl,rfl⟩
  | _ => exact Or.inl rfl

theorem handler_covered (s : State) (k : ℕ) (i : Input) (c c' : Conn) (e : Effect) (hs : Covered s)
    (hc : s.tasks[k]? = some c) (hstep : HandlerStep s.shared c i e c')
    (hall : ∀ m ∈ (apply s.shared e).throttle.shared.passed, Shows (apply s.shared e) m) :
    Covered ⟨apply s.shared e,s.tasks.set k c'⟩ := by
  unfold Covered at hs ⊢
  obtain ⟨hnew,hkeep⟩ := handler_takes s.shared c i e c' hstep
  have hc' : c' ∈ s.tasks.set k c' := mem_set_self s.tasks k c c' hc
  have hpassed : ∀ m, e = .callThrottled m → m.asOf = (apply s.shared e).version →
      ∃ x, Alive (apply s.shared e).throttle x ∧ x.msg.asOf = (apply s.shared e).version := by
    rintro m rfl hm
    exact ⟨⟨_,m⟩,enter_new s.shared.throttle m,hm⟩
  rcases hnew with hv | hw
  swap
  · exact Or.inr (Or.inl ⟨c',hc',hw⟩)
  rcases hs with ⟨hv0,hp⟩ | hex | ⟨x,hx,hxv⟩
  · rcases apply_throttle s.shared e with ht | ⟨m,rfl,ht⟩
    · exact Or.inl ⟨hv.trans hv0,by rw [ht, hp]⟩
    · have hle := (hall m (by rw [ht]; simp [Throttle.enter])).1
      exact Or.inr (Or.inr (hpassed m rfl (by omega)))
  · obtain ⟨d,hd,hw⟩ := hex
    obtain ⟨j,hj⟩ := List.mem_iff_getElem?.mp hd
    by_cases hjk : j = k
    · subst hjk
      obtain rfl : c = d := Option.some.inj (hc.symm.trans hj)
      rcases hkeep hw with hw | ⟨m,rfl,hm⟩
      · exact Or.inr (Or.inl ⟨c',hc',by rwa [hv]⟩)
      · exact Or.inr (Or.inr (hpassed m rfl (hm.trans hv.symm)))
    · refine Or.inr (Or.inl ⟨d,List.mem_iff_getElem?.mpr ⟨j,?_⟩,by rwa [hv]⟩)
      rw [List.getElem?_set_ne (Ne.symm hjk)]
      exact hj
  · refine Or.inr (Or.inr ⟨x,?_,hxv.trans hv.symm⟩)
    rcases apply_throttle s.shared e with ht | ⟨m,_,ht⟩
    · rwa [ht]
    · rw [ht]
      exact enter_alive s.shared.throttle m x hx

theorem step_covered (cap : ℕ) (s : State) (a : Action) (t : State) (hs : Covered s)
    (hi : ThrottleInvariant.Inv t.shared.throttle) (hall : AllShow t) (ho : Ordered s a)
    (h : step cap s a = some t) : Covered t := by
  cases step_hub cap s a t h with
  | spawn =>
    refine hs.imp_right (Or.imp_left ?_)
    rintro ⟨c,hc,hw⟩
    exact ⟨c,List.mem_append_left _ hc,hw⟩
  | shutdown => exact hs
  | writer k i c c' hc hw =>
    refine hs.imp_right (Or.imp_left fun hex => ?_)
    have hkeep := (writer_frame cap s.shared c i c' hw).2.1
    obtain ⟨u,hu,hw⟩ := exists_grown (fun c : Conn => WillTake s.shared.version c.phase)
      (fun c : Conn => WillTake s.shared.version c.phase) s.tasks [] k c c' hc
      (fun hq => Or.inl (by rwa [hkeep])) (fun _ => id) hex
    exact ⟨u,by rwa [List.append_nil] at hu,hw⟩
  | handler k i c c' e hc hstep => exact handler_covered s k i c c' e hs hc hstep hall
  | throttle k clock u hu =>
    unfold AllShow at hall
    unfold Covered
    dsimp only at hall hi ⊢
    rcases hs with ⟨hv0,hp⟩ | hex | ⟨x,hx,hxv⟩
    · obtain ⟨v,g,v',fs,hv,hn,rfl⟩ := move_cases Throttle.next s.shared.throttle u k clock hu
      exact Or.inl ⟨hv0,(ThrottleInvariant.next_passed _ g v v' fs clock hn).trans hp⟩
    · exact Or.inr (Or.inl hex)
    · rcases move_alive s.shared.throttle u k clock hu x hx with hx | ⟨v,m,hv,hm,hp,hp'⟩
      · exact Or.inr (Or.inr ⟨x,hx,hxv⟩)
      · -- a store over the current snapshot: the guard makes its successor current
        have hge := (ho v hv).2 m hm x hp
        have hmem : m.msg ∈ u.shared.passed := List.mem_of_getElem?
          (ThrottleInvariant.settled_passed u hi m (by simp [Throttle.settled, hp']))
        have hle := (hall m.msg hmem).1
        dsimp only at hle
        exact Or.inr (Or.inr ⟨m,Or.inr (Or.inl hp'),by omega⟩)

theorem step_inOrder (cap : ℕ) (s : State) (a : Action) (t : State) (hs : InOrder s)
    (ho : Ordered s a) (h : step cap s a = some t) : InOrder t := by
  unfold InOrder at hs ⊢
  cases step_hub cap s a t h with
  | spawn | writer | shutdown => exact hs
  | handler k i c c' e hc hstep =>
    dsimp only
    rwa [(handler_snapshots s.shared c i e c' hstep).2]
  | throttle k clock u hu =>
    obtain ⟨v,g,v',fs,hv,hn,rfl⟩ := move_cases Throttle.next s.shared.throttle u k clock hu
    dsimp only
    rw [Throttle.next_sent s.shared.throttle.shared g v v' fs clock hn, List.map_append,
      List.pairwise_append]
    refine ⟨hs,?_,fun n hn' p hp => ?_⟩
    · cases Throttle.emits v <;> simp
    · obtain ⟨x,hx,rfl⟩ := List.mem_map.mp hn'
      obtain ⟨m,hm,rfl⟩ := List.mem_map.mp hp
      exact (ho v hv).1 m (Option.mem_toList.mp hm) x hx

/-! ## At rest -/

/-- The handler is in no vote, no withdrawal of a vote and no snapshot. -/
def Outside : Phase → Prop
  | .voting _ | .voted _ | .unvoting _ _ | .loading _ _ _ | .publishing _ _ => False
  | _ => True

structure Quiescent (s : State) : Prop where
  handlers : ∀ c ∈ s.tasks, Outside c.phase
  throttle : ThrottleInvariant.Quiescent s.shared.throttle

theorem covered_sent (s : State) (hi : ThrottleInvariant.Inv s.shared.throttle) (hc : Covered s)
    (hq : Quiescent s) (hop : s.shared.throttle.shared.passed ≠ []) :
    ∃ x ∈ s.shared.throttle.shared.sent, x.msg.asOf = s.shared.version := by
  rcases hc with ⟨_,hp⟩ | ⟨c,hc,hw⟩ | ⟨x,hx,hv⟩
  · exact absurd hp hop
  · have hout := hq.handlers c hc
    cases hp : c.phase <;> simp_all [Outside, WillTake]
  · exact ⟨x,alive_sent _ hi hq.throttle x hx,hv⟩

theorem run_ordered (cap : ℕ) (as : List Action) (s : State) (h : run (step cap) as init = some s)
    (hg : Guarded (step cap) Ordered as init) : Covered s ∧ InOrder s := by
  refine guarded_history Ordered (fun _ s => Covered s ∧ InOrder s) init
    ⟨Or.inl ⟨rfl,rfl⟩,by simp [InOrder, init, Throttle.init]⟩ ?_ as s hg h
  rintro as m a t hm ⟨hc,hin⟩ ho ht
  have hrun := (run_snoc as a init t).mpr ⟨m,hm,ht⟩
  exact ⟨step_covered cap m a t hc (run_throttle cap _ t hrun) (run_allShow cap _ t hrun) ho ht,
    step_inOrder cap m a t hin ho ht⟩

/-- In every run in which no snapshot overtakes one taken later, on the channel
or in the slot, the last one sent at rest shows the board, as long as there was
an operation at all. -/
theorem last_snapshot_current (cap : ℕ) (as : List Action) (s : State)
    (h : run (step cap) as init = some s) (hg : Guarded (step cap) Ordered as init)
    (hq : Quiescent s) (hop : s.shared.throttle.shared.passed ≠ []) :
    ∃ counts, (voteSnapshots s.shared.tx).getLast? = some counts ∧
      ∀ i, (counts i : ℤ) = s.shared.counts i := by
  have hi := run_throttle cap as s h
  have hrel : Relayed s := run_invariant Relayed (step_relayed cap) as init s rfl h
  obtain ⟨hc,hin⟩ := run_ordered cap as s h hg
  obtain ⟨x,hx,hv⟩ := covered_sent s hi hc hq hop
  obtain ⟨before,last,hsent⟩ := List.eq_nil_or_concat' s.shared.throttle.shared.sent |>.resolve_left
    (List.ne_nil_of_mem hx)
  -- the last one is no older than `x`, and `x` is as new as can be
  have hle : x.msg.asOf ≤ last.msg.asOf := by
    rw [hsent] at hx
    rcases List.mem_append.mp hx with hx | hx
    · unfold InOrder at hin
      rw [hsent, List.map_append, List.pairwise_append] at hin
      exact hin.2.2 _ (List.mem_map.mpr ⟨x,hx,rfl⟩) _ (by simp)
    · rw [List.mem_singleton.mp hx]
  have hmem : last.msg ∈ s.shared.throttle.shared.passed := List.mem_of_getElem?
    (ThrottleInvariant.settled_passed _ hi last (by simp [Throttle.settled, hsent]))
  obtain ⟨hle',heq⟩ := run_allShow cap as s h last.msg hmem
  refine ⟨last.msg.counts,?_,fun i => ?_⟩
  · rw [hrel, hsent]
    simp
  · rw [heq (by omega)]
    exact VoteBoard.load_of_nonneg _ i (conserved_nonneg s (run_conserved cap as s h) i)

instance (s : State) (a : Action) : Decidable (Ordered s a) := by
  unfold Ordered
  split <;> infer_instance

instance (p : Phase) : Decidable (Outside p) := by
  unfold Outside
  split <;> infer_instance

def enter (k : ℕ) : List Action := .spawn::List.replicate 4 (.conn k (.go 1000))

def castVote (k option : ℕ) : List Action :=
  .conn k (.line (some (.vote option)))::List.replicate 7 (.conn k (.go 1000))

/-- The first vote is sent at once, the second by the flush task. -/
def twoInOrder : List Action :=
  enter 0++enter 1++castVote 0 0++[.conn 0 (.go 1000)]++List.replicate 4 (.throttle 0 1000)++
  castVote 1 1++[.conn 1 (.go 1000)]++List.replicate 8 (.throttle 1 1001)++
  List.replicate 5 (.throttle 2 1051)++[.conn 0 (.go 1051),.conn 1 (.go 1051)]

def twoInOrderEnd : State := (run (step 16) twoInOrder init).get (by decide +kernel)

theorem two_in_order_current :
    (voteSnapshots twoInOrderEnd.shared.tx).map (fun counts => List.ofFn counts) =
      [[1,0,0,0],[1,1,0,0]] ∧
    ∃ counts, (voteSnapshots twoInOrderEnd.shared.tx).getLast? = some counts ∧
      ∀ i, (counts i : ℤ) = twoInOrderEnd.shared.counts i := by
  have hrun : run (step 16) twoInOrder init = some twoInOrderEnd := (Option.some_get _).symm
  refine ⟨by decide +kernel,?_⟩
  exact last_snapshot_current 16 twoInOrder twoInOrderEnd hrun (by decide +kernel)
    ⟨by decide +kernel,by unfold ThrottleInvariant.Quiescent; decide +kernel⟩ (by decide +kernel)

/-! ## A snapshot that overtakes -/

def clockOf : Action → Option ℕ
  | .conn _ (.go clock) | .throttle _ clock => some clock
  | _ => none

/-- The first handler has taken its snapshot before the second one votes and
sends; its own is then stored and flushed. -/
def overtaken : List Action :=
  enter 0++enter 1++castVote 0 0++castVote 1 1++[.conn 1 (.go 1000)]++
  List.replicate 4 (.throttle 0 1000)++[.conn 0 (.go 1000)]++List.replicate 8 (.throttle 1 1001)++
  List.replicate 5 (.throttle 2 1051)++[.conn 0 (.go 1051),.conn 1 (.go 1051)]

def overtakenEnd : State := (run (step 16) overtaken init).get (by decide +kernel)

theorem overtaken_is_last :
    ¬ ∀ (cap : ℕ) (as : List Action) (s : State), run (step cap) as init = some s →
      (as.filterMap clockOf).Pairwise (· ≤ ·) → Quiescent s →
      s.shared.throttle.shared.passed ≠ [] →
      ∃ counts, (voteSnapshots s.shared.tx).getLast? = some counts ∧
        ∀ i, (counts i : ℤ) = s.shared.counts i := by
  intro hcurrent
  have hrun : run (step 16) overtaken init = some overtakenEnd := (Option.some_get _).symm
  obtain ⟨counts,hlast,hall⟩ := hcurrent 16 overtaken overtakenEnd hrun (by decide +kernel)
    ⟨by decide +kernel,by unfold ThrottleInvariant.Quiescent; decide +kernel⟩ (by decide +kernel)
  have hvalue : (voteSnapshots overtakenEnd.shared.tx).getLast?.map (fun c => c 1) = some 0 := by
    decide +kernel
  rw [hlast, Option.map_some, Option.some.injEq] at hvalue
  have hone := hall 1
  rw [hvalue] at hone
  exact absurd hone (by decide +kernel)

end RustChat.SnapshotOrder
