import RustChat.HandlerSteps

/-!
# The handlers and what they share

All handlers of a server with the room, the board and the metrics, and with
the callers and flush tasks of the throttle. An action picks who moves next
and supplies what it reads from outside, so a run is any interleaving.
-/

set_option autoImplicit false

namespace RustChat.Hub
open Runs TaskPool Protocol Handler HandlerSteps

abbrev State := Pool Shared Conn

def init : State := ⟨⟨∅,[],Throttle.init,VoteBoard.new,0,0,0⟩,[]⟩

def next (cap : ℕ) (sh : Shared) (c : Conn) (i : Input) : Option (Shared × Conn × List Conn) :=
  (act cap sh c i).map fun r => (apply sh r.1,r.2,[])

/-- What a step of the throttle has put on the channel. -/
def sentSnapshots (t t' : Throttle.State Snapshot) : List BroadcastEvent :=
  (t'.shared.sent.drop t.shared.sent.length).map fun x => .server (.voteSnapshot x.msg.counts)

inductive Action where
  | spawn
  | conn (k : ℕ) (i : Input)
  | throttle (k clock : ℕ)
  | shutdown
  deriving DecidableEq, Repr

def step (cap : ℕ) (s : State) : Action → Option State
  | .spawn => some ⟨s.shared,s.tasks++[Handler.spawn (s.tasks.length+1)]⟩
  | .conn k i => move (next cap) s k i
  | .throttle k clock =>
    (Throttle.step s.shared.throttle (.thread k clock)).map fun t =>
      ⟨{ s.shared with throttle := t, tx := s.shared.tx++sentSnapshots s.shared.throttle t },s.tasks⟩
  | .shutdown => some ⟨{ s.shared with tx := s.shared.tx++[.shutdown] },s.tasks⟩

/-! ## What a step can be -/

inductive HubStep (cap : ℕ) (s : State) : Action → State → Prop where
  | spawn : HubStep cap s .spawn ⟨s.shared,s.tasks++[Handler.spawn (s.tasks.length+1)]⟩
  | handler (k : ℕ) (i : Input) (c c' : Conn) (e : Effect) (hc : s.tasks[k]? = some c)
    (h : HandlerStep s.shared c i e c') :
    HubStep cap s (.conn k i) ⟨apply s.shared e,s.tasks.set k c'⟩
  | writer (k : ℕ) (i : Input) (c c' : Conn) (hc : s.tasks[k]? = some c)
    (h : WriterStep cap s.shared c i c') : HubStep cap s (.conn k i) ⟨s.shared,s.tasks.set k c'⟩
  | throttle (k clock : ℕ) (t : Throttle.State Snapshot)
    (h : move Throttle.next s.shared.throttle k clock = some t) :
    HubStep cap s (.throttle k clock)
      ⟨{ s.shared with throttle := t, tx := s.shared.tx++sentSnapshots s.shared.throttle t },s.tasks⟩
  | shutdown : HubStep cap s .shutdown ⟨{ s.shared with tx := s.shared.tx++[.shutdown] },s.tasks⟩

theorem step_hub (cap : ℕ) (s : State) (a : Action) (t : State) (h : step cap s a = some t) :
    HubStep cap s a t := by
  cases a with
  | spawn => cases h; exact .spawn
  | shutdown => cases h; exact .shutdown
  | throttle k clock =>
    obtain ⟨u,hu,rfl⟩ := Option.map_eq_some_iff.mp h
    exact .throttle k clock u hu
  | conn k i =>
    obtain ⟨c,sh,c',fs,hc,hn,rfl⟩ := move_cases (next cap) s t k i h
    obtain ⟨⟨e,d⟩,ha,he⟩ := Option.map_eq_some_iff.mp hn
    cases he
    rw [List.append_nil]
    rcases act_step cap s.shared c i e d ha with hs | ⟨rfl,hw⟩
    · exact .handler k i c d e hc hs
    · exact .writer k i c d hc hw

/-! ## One handler across a step -/

def Moved (cap : ℕ) (s : State) (a : Action) (k : ℕ) (c c' : Conn) : Prop :=
  (c' = c ∧ ∀ i, a ≠ .conn k i) ∨ ∃ i, a = .conn k i ∧
    ((∃ e, HandlerStep s.shared c i e c') ∨ WriterStep cap s.shared c i c')

theorem conn_backward (cap : ℕ) (s t : State) (a : Action) (h : step cap s a = some t) (k : ℕ)
    (c' : Conn) (hc' : t.tasks[k]? = some c') :
    (∃ c, s.tasks[k]? = some c ∧ Moved cap s a k c c') ∨
      (a = .spawn ∧ k = s.tasks.length ∧ c' = Handler.spawn (k+1)) := by
  cases step_hub cap s a t h with
  | spawn =>
    rcases Nat.lt_or_ge k s.tasks.length with hk | hk
    · rw [List.getElem?_append_left hk] at hc'
      exact Or.inl ⟨c',hc',Or.inl ⟨rfl,by simp⟩⟩
    · rw [List.getElem?_append_right hk, List.getElem?_singleton] at hc'
      split_ifs at hc' with h0
      obtain rfl : k = s.tasks.length := by omega
      exact Or.inr ⟨rfl,rfl,(Option.some.inj hc').symm⟩
  | handler j i c d e hc hs =>
    rcases getElem?_set_cases s.tasks j k d c' hc' with ⟨rfl,rfl⟩ | ⟨hne,hc'⟩
    · exact Or.inl ⟨c,hc,Or.inr ⟨i,rfl,Or.inl ⟨e,hs⟩⟩⟩
    · exact Or.inl ⟨c',hc',Or.inl ⟨rfl,by simp [Ne.symm hne]⟩⟩
  | writer j i c d hc hw =>
    rcases getElem?_set_cases s.tasks j k d c' hc' with ⟨rfl,rfl⟩ | ⟨hne,hc'⟩
    · exact Or.inl ⟨c,hc,Or.inr ⟨i,rfl,Or.inr hw⟩⟩
    · exact Or.inl ⟨c',hc',Or.inl ⟨rfl,by simp [Ne.symm hne]⟩⟩
  | throttle j clock u hu => exact Or.inl ⟨c',hc',Or.inl ⟨rfl,by simp⟩⟩
  | shutdown => exact Or.inl ⟨c',hc',Or.inl ⟨rfl,by simp⟩⟩

theorem step_length (cap : ℕ) (s t : State) (a : Action) (h : step cap s a = some t) :
    s.tasks.length ≤ t.tasks.length := by
  cases step_hub cap s a t h with
  | spawn => simp
  | handler | writer => simp
  | throttle | shutdown => exact Nat.le_refl _

theorem conn_forward (cap : ℕ) (s t : State) (a : Action) (h : step cap s a = some t) (k : ℕ)
    (c : Conn) (hc : s.tasks[k]? = some c) :
    ∃ c', t.tasks[k]? = some c' ∧ Moved cap s a k c c' := by
  have hlt := (List.getElem?_eq_some_iff.mp hc).1
  have hk : k < t.tasks.length := Nat.lt_of_lt_of_le hlt (step_length cap s t a h)
  refine ⟨_,List.getElem?_eq_getElem hk,?_⟩
  rcases conn_backward cap s t a h k _ (List.getElem?_eq_getElem hk) with ⟨d,hd,hm⟩ | ⟨_,rfl,_⟩
  · obtain rfl : c = d := Option.some.inj (hc.symm.trans hd)
    exact hm
  · omega

/-! ## Invariants of every handler -/

/-- What it takes for a fact about each handler, with its place and the shared
state, to survive every step from a state where `I` holds: the one that moves
keeps it, and no one else is disturbed. -/
structure Kept (cap : ℕ) (I : State → Prop) (P : Shared → ℕ → Conn → Prop) : Prop where
  spawned : ∀ s, I s → P s.shared s.tasks.length (Handler.spawn (s.tasks.length+1))
  moved : ∀ s k i c c' e, I s → s.tasks[k]? = some c → HandlerStep s.shared c i e c' →
    P s.shared k c → P (apply s.shared e) k c'
  wrote : ∀ s k i c c', I s → s.tasks[k]? = some c → WriterStep cap s.shared c i c' →
    P s.shared k c → P s.shared k c'
  other : ∀ s k j i c c' e d, I s → s.tasks[k]? = some c → HandlerStep s.shared c i e c' → j ≠ k →
    s.tasks[j]? = some d → P s.shared j d → P (apply s.shared e) j d
  throttled : ∀ s k clock t j d, I s → move Throttle.next s.shared.throttle k clock = some t →
    s.tasks[j]? = some d → P s.shared j d →
    P { s.shared with throttle := t, tx := s.shared.tx++sentSnapshots s.shared.throttle t } j d
  shutdown : ∀ s j d, I s → s.tasks[j]? = some d → P s.shared j d →
    P { s.shared with tx := s.shared.tx++[.shutdown] } j d

theorem step_kept (cap : ℕ) (I : State → Prop) (P : Shared → ℕ → Conn → Prop) (hk : Kept cap I P)
    (s t : State) (a : Action) (hI : I s) (hs : ∀ j d, s.tasks[j]? = some d → P s.shared j d)
    (h : step cap s a = some t) (j : ℕ) (d : Conn) (hd : t.tasks[j]? = some d) : P t.shared j d := by
  cases step_hub cap s a t h with
  | spawn =>
    rcases Nat.lt_or_ge j s.tasks.length with hj | hj
    · exact hs j d (by rwa [List.getElem?_append_left hj] at hd)
    · rw [List.getElem?_append_right hj, List.getElem?_singleton] at hd
      split_ifs at hd with h0
      cases hd
      obtain rfl : j = s.tasks.length := by omega
      exact hk.spawned s hI
  | handler k i c c' e hc hstep =>
    rcases getElem?_set_cases s.tasks k j c' d hd with ⟨rfl,rfl⟩ | ⟨hj,hd⟩
    · exact hk.moved s j i c d e hI hc hstep (hs j c hc)
    · exact hk.other s k j i c c' e d hI hc hstep hj hd (hs j d hd)
  | writer k i c c' hc hw =>
    rcases getElem?_set_cases s.tasks k j c' d hd with ⟨rfl,rfl⟩ | ⟨hj,hd⟩
    · exact hk.wrote s j i c d hI hc hw (hs j c hc)
    · exact hs j d hd
  | throttle k clock u hu => exact hk.throttled s k clock u j d hI hu hd (hs j d hd)
  | shutdown => exact hk.shutdown s j d hI hd (hs j d hd)

/-- The rule for all runs. `I` may be any invariant proved before. -/
theorem run_kept (cap : ℕ) (I : State → Prop) (P : Shared → ℕ → Conn → Prop)
    (hI : ∀ as s, run (step cap) as init = some s → I s) (hk : Kept cap I P)
    (as : List Action) (s : State) (h : run (step cap) as init = some s) (k : ℕ) (c : Conn)
    (hc : s.tasks[k]? = some c) : P s.shared k c := by
  have hall : ∀ j d, s.tasks[j]? = some d → P s.shared j d :=
    run_history (fun _ s => ∀ (j : ℕ) d, s.tasks[j]? = some d → P s.shared j d) init (by simp [init])
      (fun as m a t hm hp ht => step_kept cap I P hk m t a (hI as m hm) hp ht) as s h
  exact hall k c hc

/-- The rule for a fact about a handler alone, which only its own steps touch. -/
theorem run_own (cap : ℕ) (P : ℕ → Conn → Prop) (hspawn : ∀ k, P k (Handler.spawn (k+1)))
    (hmoved : ∀ sh k c i e c', HandlerStep sh c i e c' → P k c → P k c')
    (hwrote : ∀ sh k c i c', WriterStep cap sh c i c' → P k c → P k c')
    (as : List Action) (s : State) (h : run (step cap) as init = some s) (k : ℕ) (c : Conn)
    (hc : s.tasks[k]? = some c) : P k c := by
  refine run_kept cap (fun _ => True) (fun _ k c => P k c) (fun _ _ _ => trivial) ?_ as s h k c hc
  exact {
    spawned := fun s _ => hspawn s.tasks.length
    moved := fun s k i c c' e _ _ hs hk => hmoved s.shared k c i e c' hs hk
    wrote := fun s k i c c' _ _ hw hk => hwrote s.shared k c i c' hw hk
    other := fun s k j i c c' e d _ _ _ _ _ hd => hd
    throttled := fun s k clock t j d _ _ _ hd => hd
    shutdown := fun s j d _ _ hd => hd }

/-- The handlers are numbered from one in the order they were spawned. -/
def Numbered (s : State) : Prop := ∀ (k : ℕ) (c : Conn), s.tasks[k]? = some c → c.id = k+1

theorem run_numbered (cap : ℕ) (as : List Action) (s : State)
    (h : run (step cap) as init = some s) : Numbered s := by
  intro k c hc
  refine run_own cap (fun k c => c.id = k+1) (fun _ => rfl) ?_ ?_ as s h k c hc
  · intro sh k c i e c' hs hk
    exact (handler_id sh c i e c' hs).trans hk
  · intro sh k c i c' hw hk
    exact (writer_frame cap sh c i c' hw).1.trans hk

theorem numbered_ids (s : State) (hs : Numbered s) :
    s.tasks.map Conn.id = List.range' 1 s.tasks.length := by
  refine List.ext_getElem? fun k => ?_
  rw [List.getElem?_map]
  cases hc : s.tasks[k]? with
  | none =>
    have hk := List.getElem?_eq_none_iff.mp hc
    simpa using hk
  | some c =>
    have hk := (List.getElem?_eq_some_iff.mp hc).1
    rw [Option.map_some, hs k c hc, List.getElem?_range' hk]
    congr 1
    omega

end RustChat.Hub
