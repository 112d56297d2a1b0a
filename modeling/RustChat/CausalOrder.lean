import Mathlib.Logic.Relation
import RustChat.Terminals

/-!
# An answer comes after what it answers

A chat depends on what its sender had heard or said when it said it, and on
what that depends on. The log is in an order that respects this relation, and
so are the lines of every client.
-/

set_option autoImplicit false

namespace RustChat.CausalOrder
open Runs Protocol Footprint Delivery FrameRoundTrip World Terminals
open Handler hiding receive

/-- The event at `pos` is a chat of the client with this id, which has `n`
chats before it. -/
def IsChat (log : List BroadcastEvent) (id n pos : ℕ) : Prop :=
  ((log[pos]?).bind (chatOf id)).isSome = true ∧ (chats id (log.take pos)).length = n

instance (log : List BroadcastEvent) (id n pos : ℕ) : Decidable (IsChat log id n pos) :=
  inferInstanceAs (Decidable (_ ∧ _))

variable {κ π μ : Type*}

def written (serde : Serde) (p : Peer π) : List Saying := said none ((messages p.sent).filter (fits serde))

/-- At some point of the run a client had been sent the event at `x`, or had
written it itself, and the chat at `y` is one it wrote after that point. -/
def Causes (serde : Serde) (P : Program κ π μ) (cap : ℕ) (as : List (Action κ μ)) (t : State π)
    (x y : ℕ) : Prop :=
  ∃ bs cs m j p d n, as = bs++cs ∧ run (step serde P cap) bs init = some m ∧ m.peers[j]? = some p ∧
    m.hub.tasks[j]? = some d ∧ IsChat t.hub.shared.tx (j+1) n y ∧ (written serde p).length ≤ n ∧
    (x ∈ positions d ∨ ∃ i, IsChat t.hub.shared.tx (j+1) i x ∧ i < (written serde p).length)

theorem chats_take_succ (log : List BroadcastEvent) (id n pos : ℕ) (h : IsChat log id n pos) :
    (chats id (log.take (pos+1))).length = n+1 := by
  obtain ⟨hchat,hn⟩ := h
  obtain ⟨x,hx⟩ := Option.isSome_iff_exists.mp hchat
  obtain ⟨e,he,hx⟩ := Option.bind_eq_some_iff.mp hx
  rw [List.take_add_one, he, Option.toList_some, chats_append, List.length_append, hn]
  simp [chats, hx]

theorem chats_take_mono (log : List BroadcastEvent) (id a b : ℕ) (h : a ≤ b) :
    (chats id (log.take a)).length ≤ (chats id (log.take b)).length :=
  ((List.take_sublist_take_left h).filterMap _).length_le

theorem written_later (serde : Serde) (P : Program κ π μ) (cap : ℕ) (bs cs : List (Action κ μ))
    (m t : State π) (hm : run (step serde P cap) bs init = some m) (ht : run (step serde P cap) cs m = some t) (j n pos : ℕ)
    (p : Peer π) (d : Conn) (hp : m.peers[j]? = some p) (hd : m.hub.tasks[j]? = some d)
    (hchat : IsChat t.hub.shared.tx (j+1) n pos) (hn : (written serde p).length ≤ n) :
    m.hub.shared.tx.length ≤ pos := by
  obtain ⟨as,has⟩ := run_hub serde P cap bs m hm
  obtain ⟨as',has'⟩ := run_simulates (Hub.step cap) State.hub (step_hub serde P cap) cs m t ht
  obtain ⟨more,hmore⟩ := run_log_prefix cap as' m.hub t.hub has'
  by_contra hlt
  have hcount := chats_take_succ t.hub.shared.tx (j+1) n pos hchat
  rw [← hmore, List.take_append_of_le_length (by omega)] at hcount
  have hsaid := chats_said cap serde as m.hub has p j d hd ((run_paired serde P cap bs m hm).2 j p d hp hd)
  rw [Hub.run_numbered cap as m.hub has j d hd] at hsaid
  have hle := ((List.take_sublist (pos+1) m.hub.shared.tx).filterMap (chatOf (j+1))).length_le
  have hall := hsaid.length_le
  unfold chats at hcount hall
  unfold written at hn
  omega

theorem causes_lt (serde : Serde) (P : Program κ π μ) (cap : ℕ) (as : List (Action κ μ)) (t : State π)
    (h : run (step serde P cap) as init = some t) (x y : ℕ) (hc : Causes serde P cap as t x y) : x < y := by
  obtain ⟨bs,cs,m,j,p,d,n,rfl,hm,hp,hd,hchat,hn,hx⟩ := hc
  have ht := run_rest bs cs init m t h hm
  rcases hx with hx | ⟨i,hi,hlt⟩
  · obtain ⟨as,has⟩ := run_hub serde P cap bs m hm
    obtain ⟨l,hl,rfl⟩ := List.mem_map.mp hx
    have hpos := (List.getElem?_eq_some_iff.mp ((run_fed cap as m.hub has j d hd).lines l hl)).1
    exact Nat.lt_of_lt_of_le hpos (written_later serde P cap bs cs m t hm ht j n y p d hp hd hchat hn)
  · by_contra hle
    have hmono := chats_take_mono t.hub.shared.tx (j+1) y x (by omega)
    rw [hchat.2, hi.2] at hmono
    omega

/-- In every run of a world, a chat lies in the log behind all it depends on,
directly or through others, and every client that is sent both gets it later. -/
theorem causes_first (serde : Serde) (P : Program κ π μ) (cap : ℕ) (as : List (Action κ μ)) (t : State π)
    (h : run (step serde P cap) as init = some t) (x y : ℕ)
    (hc : Relation.TransGen (Causes serde P cap as t) x y) :
    x < y ∧ ∀ (k : ℕ) c, t.hub.tasks[k]? = some c → ∀ (a b : ℕ), (positions c)[a]? = some x →
      (positions c)[b]? = some y → a < b := by
  have hlt : x < y := by
    induction hc with
    | single hc => exact causes_lt serde P cap as t h x _ hc
    | tail _ hc ih => exact Nat.lt_trans ih (causes_lt serde P cap as t h _ _ hc)
  refine ⟨hlt,fun k c hk a b ha hb => ?_⟩
  obtain ⟨bs,hbs⟩ := run_hub serde P cap as t h
  have hsorted := positions_sorted cap _ c (run_fed cap bs t.hub hbs k c hk)
  obtain ⟨hla,hxa⟩ := List.getElem?_eq_some_iff.mp ha
  obtain ⟨hlb,hyb⟩ := List.getElem?_eq_some_iff.mp hb
  by_contra hle
  rcases Nat.lt_or_eq_of_le (Nat.le_of_not_lt hle) with hba | rfl
  · have hyx := List.pairwise_iff_getElem.mp hsorted b a hlb hla hba
    omega
  · omega

def answer : List (World.Action (Unit ⊕ Empty) (TuiInput.Key × ℕ ⊕ Empty)) :=
  [.act 0 (.inl (.char 'y',8)),.act 0 (.inl (.char 'o',8)),.act 0 (.inl (.enter,8)),.line 0]++
  List.replicate 3 (.hub (.conn 0 (.go 9)))++
  (List.replicate 3 [.hub (.conn 1 .recv),.hub (.conn 1 .written)]).flatten

def answerEnd : World.State (Tui.AppState ⊕ Empty) :=
  (run (World.step tableSerde (terminal.sum nobody) 16) (greeting++answer) World.init).get
    (by decide +kernel)

theorem answer_after_question :
    ∃ c, answerEnd.hub.tasks[1]? = some c ∧ positions c = [1,2,3] ∧
      ∀ (a b : ℕ), (positions c)[a]? = some 2 → (positions c)[b]? = some 3 → a < b := by
  have hlines : (answerEnd.hub.tasks[1]?).map positions = some [1,2,3] := by decide +kernel
  have hconn : (greetingEnd.hub.tasks[0]?).map positions = some [0,1,2] := by decide +kernel
  have hpeer : (greetingEnd.peers[0]?).map (fun p => (written tableSerde p).length) = some 0 := by
    decide +kernel
  obtain ⟨c,hc,hpos⟩ := Option.map_eq_some_iff.mp hlines
  obtain ⟨d,hd,hheard⟩ := Option.map_eq_some_iff.mp hconn
  obtain ⟨p,hp,hlen⟩ := Option.map_eq_some_iff.mp hpeer
  have hcause : Causes tableSerde (terminal.sum nobody) 16 (greeting++answer) answerEnd 2 3 :=
    ⟨greeting,answer,greetingEnd,0,p,d,0,rfl,(Option.some_get _).symm,hp,hd,by decide +kernel,hlen.le,
      Or.inl (by rw [hheard]; decide)⟩
  have hfirst := causes_first tableSerde (terminal.sum nobody) 16 (greeting++answer) answerEnd
    (Option.some_get _).symm 2 3 (Relation.TransGen.single hcause)
  exact ⟨c,hc,hpos,hfirst.2 1 c hc⟩

end RustChat.CausalOrder
