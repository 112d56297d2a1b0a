import RustChat.PeerCount
import RustChat.ServerLine

/-!
# The subtraction in the title

The title shows the participant count less one, and is drawn at any time:
before the first line of the server, and between any two lines after it. The
count is zero until the Welcome is read. After it the count can reach zero
again, when leaves are announced that the size in the Welcome has left out.
-/

set_option autoImplicit false

namespace RustChat.TitleUnderflow
open Runs TaskPool Protocol Broadcast Room Handler HandlerSteps Hub Footprint Delivery Tui PeerCount

/-! ## What a client can have read -/

def sentLines (c : Conn) : List ServerMsg :=
  c.welcome.toList.map ServerMsg.welcome++c.lines.map Prod.snd

/-- The lines a client can have read: a full server sends one and closes, any
other has a handler for the client. -/
inductive FromServer (cap : ℕ) (p : List ServerMsg) : Prop where
  | refused (h : p <+: [.error ServerLine.fullMessage])
  | served (as : List Action) (s : State) (k : ℕ) (c : Conn) (h : run (step cap) as init = some s)
      (hc : s.tasks[k]? = some c) (hp : p <+: sentLines c)

/-- The Welcome has been read, and the leaves after it are fewer than its count
and the joins together, or some last part of the lines has more joins than
leaves. -/
def Covered : List ServerMsg → Prop
  | .welcome n::msgs =>
    0 < n+net (msgs.filterMap flag) ∨ ∃ bs, bs <:+ msgs.filterMap flag ∧ 0 < net bs
  | _ => False

/-- The joins since `c` subscribed less the leaves, announced or half done. -/
def surplus (s : State) (c : Conn) : ℤ :=
  net (flags (s.shared.tx.drop (opened c)))+s.tasks.countP isJoining-s.tasks.countP isLeaving

def mover : Action → Option ℕ
  | .conn k (.go _) => some k
  | _ => none

/-- A handler enters the room only when leaves do not outnumber joins since its
subscription. -/
def EntersCovered (s : State) (a : Action) : Prop :=
  ∀ k ∈ mover a, ∀ c ∈ s.tasks[k]?, c.phase = .subscribed → 0 ≤ surplus s c

theorem title_ne_none (s : AppState) : titleCount s ≠ none ↔ 0 < s.clientCount := by
  unfold titleCount
  split_ifs <;> simp_all [Nat.pos_iff_ne_zero]

/-! ## The saturating count -/

theorem foldl_countFlag_ge (bs : List Bool) (n : ℕ) : n+net bs ≤ (bs.foldl countFlag n : ℕ) := by
  rcases foldl_countFlag bs n with heq | ⟨hge,_⟩
  · omega
  · exact hge

theorem foldl_countFlag_suffix (bs cs : List Bool) (n : ℕ) (h : cs <:+ bs) :
    net cs ≤ (bs.foldl countFlag n : ℕ) := by
  obtain ⟨before,rfl⟩ := h
  have hge := foldl_countFlag_ge cs (before.foldl countFlag n)
  rw [List.foldl_append]
  omega

theorem foldl_pos_iff (bs : List Bool) (n : ℕ) :
    0 < bs.foldl countFlag n ↔ 0 < n+net bs ∨ ∃ cs, cs <:+ bs ∧ 0 < net cs := by
  constructor
  · intro hpos
    rcases foldl_countFlag bs n with heq | ⟨_,cs,hcs,heq⟩
    · exact Or.inl (by omega)
    · exact Or.inr ⟨cs,hcs,by omega⟩
  · rintro (hpos | ⟨cs,hcs,hpos⟩)
    · have hge := foldl_countFlag_ge bs n
      omega
    · have hge := foldl_countFlag_suffix bs cs n hcs
      omega

theorem foldl_exact_of_pos (msgs : List ServerMsg) (n : ℕ)
    (h : ∀ q, q <+: msgs → 0 < (q.filterMap flag).foldl countFlag n) :
    (((msgs.filterMap flag).foldl countFlag n : ℕ) : ℤ) = n+net (msgs.filterMap flag) := by
  induction msgs using List.reverseRecOn with
  | nil => simp [net]
  | append_singleton msgs msg ih =>
    have hpos := h msgs (List.prefix_append _ _)
    have hone := ih fun q hq => h q (hq.trans (List.prefix_append _ _))
    cases hm : flag msg with
    | none => simpa [List.filterMap_append, hm] using hone
    | some b =>
      rw [List.filterMap_append, show [msg].filterMap flag = [b] by simp [hm], List.foldl_append,
        net_append, List.foldl_cons, List.foldl_nil, countFlag_exact _ b (by omega), hone, add_assoc]

theorem prefixes_pos_iff (msgs : List ServerMsg) (n : ℕ) :
    (∀ q, q <+: msgs → 0 < (q.filterMap flag).foldl countFlag n) ↔
      ∀ q, q <+: msgs → 0 < n+net (q.filterMap flag) := by
  constructor
  · intro h q hq
    have hexact := foldl_exact_of_pos q n fun q' hq' => h q' (hq'.trans hq)
    have hpos := h q hq
    omega
  · intro h q hq
    have hge := foldl_countFlag_ge (q.filterMap flag) n
    have hpos := h q hq
    omega

/-! ## The lines of a run -/

theorem unwelcomed_lines (cap : ℕ) (as : List Action) (s : State)
    (h : run (step cap) as init = some s) (k : ℕ) (c : Conn) (hc : s.tasks[k]? = some c)
    (hn : c.welcome = none) : c.lines = [] := by
  refine (run_fed cap as s h k c hc).unstarted ?_
  refine run_own cap (fun _ c => c.welcome = none → c.writer = .notStarted) (fun _ _ => rfl) ?_ ?_
    as s h k c hc hn
  · intro sh k c i e c' hs ih
    cases hs <;> simp_all
  · intro sh k c i c' hw ih
    cases hw <;> simp_all

theorem prefix_sentLines (cap : ℕ) (as : List Action) (s : State)
    (h : run (step cap) as init = some s) (k : ℕ) (c : Conn) (hc : s.tasks[k]? = some c)
    (p : List ServerMsg) :
    p <+: sentLines c ↔ p = [] ∨
      ∃ n msgs, c.welcome = some n ∧ p = .welcome n::msgs ∧ msgs <+: c.lines.map Prod.snd := by
  cases hn : c.welcome with
  | none => simp [sentLines, hn, unwelcomed_lines cap as s h k c hc hn]
  | some n =>
    rw [sentLines, hn, Option.toList_some, List.map_singleton, List.singleton_append,
      List.prefix_cons_iff]
    simp

theorem covered_iff (cap : ℕ) (p : List ServerMsg) (h : FromServer cap p) :
    titleCount (received p) ≠ none ↔ Covered p := by
  rw [title_ne_none]
  cases h with
  | refused h =>
    rcases List.prefix_cons_iff.mp h with rfl | ⟨q,rfl,hq⟩
    · simp [received, new, Covered]
    · obtain rfl := List.prefix_nil.mp hq
      simp [received, new, Tui.receive, pushMsg, Covered]
  | served as s k c h hc hp =>
    rcases (prefix_sentLines cap as s h k c hc p).mp hp with rfl | ⟨n,msgs,_,rfl,hpre⟩
    · simp [received, new, Covered]
    · rw [welcomed_count n msgs fun msg hm =>
        lines_broadcasts cap as s h k c hc msg (hpre.subset hm)]
      exact foldl_pos_iff _ n

/-! ## The lines and the log -/

/-- What the lines of an unlagged handler come to, its Welcome included: the
joins less the leaves in the log so far, and the surplus of its entry. -/
theorem lines_net (cap : ℕ) (bs cs : List Action) (k clock : ℕ) (m s : State) (c d : Conn)
    (hm : run (step cap) bs init = some m) (h : run (step cap) (.conn k (.go clock)::cs) m = some s)
    (hc : m.tasks[k]? = some c) (hp : c.phase = .subscribed) (hd : s.tasks[k]? = some d)
    (r : Receiver) (hr : d.rx = some r) (h0 : r.skipped = 0) (n : ℕ) (hn : d.welcome = some n)
    (j : ℕ) (hj : j ≤ d.lines.length) :
    (n : ℤ)+net (((d.lines.map Prod.snd).take j).filterMap flag) =
      1+(surplus m c+net (flags (s.shared.tx.take (r.start+j)))) := by
  have hs : run (step cap) (bs++.conn k (.go clock)::cs) init = some s :=
    (run_append_some bs _ init s).mpr ⟨m,hm,h⟩
  have hstart : opened c = r.start := by
    rw [← opened_kept cap bs _ m s k c d hm h hc (by simp [hp]) hd, opened, hr]
    rfl
  obtain rfl := (told_after cap bs cs k clock m s c d hm h hc hp hd).counted n (Or.inr (Or.inr hn))
  -- the room at the entry, and the log since the subscription
  have htal := run_tallied cap bs m hm
  unfold Tallied at htal
  rw [half_sum] at htal
  have hle := opened_le cap bs m hm k c hc
  have hcut : net (flags m.shared.tx) =
      net (flags (m.shared.tx.take r.start))+net (flags (m.shared.tx.drop r.start)) := by
    rw [← net_append, ← flags_append, List.take_append_drop]
  have hold : s.shared.tx.take r.start = m.shared.tx.take r.start := by
    obtain ⟨more,hmore⟩ := run_log_prefix cap _ m s h
    rw [← hmore, List.take_append_of_le_length (hstart ▸ hle)]
  -- the lines read are the events sent
  have hread : flags ((s.shared.tx.drop r.start).take j) =
      ((d.lines.map Prod.snd).take j).filterMap flag := by
    obtain ⟨more,hmore⟩ := (events_whole cap s.shared d r (run_fed cap _ s hs k d hd) hr h0).1
    rw [← hmore, List.take_append_of_le_length (by simpa [events] using hj), events, ← flags_server,
      List.map_take, List.map_map]
    rfl
  have hsum : net (flags (s.shared.tx.take (r.start+j))) =
      net (flags (m.shared.tx.take r.start))+
        net (((d.lines.map Prod.snd).take j).filterMap flag) := by
    rw [List.take_add, flags_append, net_append, hold, hread]
  unfold surplus
  rw [hstart]
  omega

theorem welcomed_safe_iff (cap : ℕ) (as : List Action) (s : State)
    (h : run (step cap) as init = some s) (k : ℕ) (c : Conn) (hc : s.tasks[k]? = some c) (n : ℕ)
    (hn : c.welcome = some n) :
    (∀ p, p <+: sentLines c → p ≠ [] → titleCount (received p) ≠ none) ↔
      ∀ q, q <+: c.lines.map Prod.snd → 0 < (q.filterMap flag).foldl countFlag n := by
  have hb := lines_broadcasts cap as s h k c hc
  constructor
  · intro hsafe q hq
    have hpos := hsafe (.welcome n::q)
      ((prefix_sentLines cap as s h k c hc _).mpr (Or.inr ⟨n,q,hn,rfl,hq⟩)) (by simp)
    rwa [title_ne_none, welcomed_count n q fun msg hm => hb msg (hq.subset hm)] at hpos
  · intro hpos p hp hne
    rcases (prefix_sentLines cap as s h k c hc p).mp hp with rfl | ⟨n',q,hn',rfl,hq⟩
    · exact absurd rfl hne
    · obtain rfl : n = n' := Option.some.inj (hn.symm.trans hn')
      rw [title_ne_none, welcomed_count n q fun msg hm => hb msg (hq.subset hm)]
      exact hpos q hq

theorem title_safe_iff (cap : ℕ) (bs cs : List Action) (k clock : ℕ) (m s : State) (c d : Conn)
    (hm : run (step cap) bs init = some m) (h : run (step cap) (.conn k (.go clock)::cs) m = some s)
    (hc : m.tasks[k]? = some c) (hp : c.phase = .subscribed) (hd : s.tasks[k]? = some d)
    (r : Receiver) (hr : d.rx = some r) (h0 : r.skipped = 0) (hwel : d.welcome.isSome) :
    (∀ p, p <+: sentLines d → p ≠ [] → titleCount (received p) ≠ none) ↔
      ∀ j, j ≤ d.lines.length → 0 ≤ surplus m c+net (flags (s.shared.tx.take (r.start+j))) := by
  have hs : run (step cap) (bs++.conn k (.go clock)::cs) init = some s :=
    (run_append_some bs _ init s).mpr ⟨m,hm,h⟩
  obtain ⟨n,hn⟩ := Option.isSome_iff_exists.mp hwel
  have hnet := lines_net cap bs cs k clock m s c d hm h hc hp hd r hr h0 n hn
  calc (∀ p, p <+: sentLines d → p ≠ [] → titleCount (received p) ≠ none)
      ↔ ∀ q, q <+: d.lines.map Prod.snd → 0 < (q.filterMap flag).foldl countFlag n :=
        welcomed_safe_iff cap _ s hs k d hd n hn
    _ ↔ ∀ q, q <+: d.lines.map Prod.snd → 0 < n+net (q.filterMap flag) := prefixes_pos_iff _ n
    _ ↔ ∀ j, j ≤ d.lines.length → 0 ≤ surplus m c+net (flags (s.shared.tx.take (r.start+j))) := by
        constructor
        · intro hpos j hj
          have hq := hpos _ (List.take_prefix j _)
          have hj' := hnet j hj
          omega
        · intro hpos q hq
          have hlen : q.length ≤ d.lines.length := by simpa using hq.length_le
          have hj := hpos q.length hlen
          have hj' := hnet q.length hlen
          rw [← List.prefix_iff_eq_take.mp hq] at hj'
          omega

/-- The title can be drawn exactly if the lines read are covered. For a client
that has not lagged this holds after every line from the Welcome on exactly if
the joins in the log cover the leaves its Welcome left out, and it holds for
all of them in a run where every handler that enters the room is covered. -/
theorem title_defined_iff (cap : ℕ) :
    (∀ p, FromServer cap p → (titleCount (received p) ≠ none ↔ Covered p)) ∧
    ∀ as s, run (step cap) as init = some s →
      (∀ bs cs k clock m c d r, as = bs++.conn k (.go clock)::cs → run (step cap) bs init = some m →
        m.tasks[k]? = some c → c.phase = .subscribed → s.tasks[k]? = some d → d.welcome.isSome →
        d.rx = some r → r.skipped = 0 →
        ((∀ p, p <+: sentLines d → p ≠ [] → titleCount (received p) ≠ none) ↔
          ∀ j, j ≤ d.lines.length → 0 ≤ surplus m c+net (flags (s.shared.tx.take (r.start+j))))) ∧
      (Guarded (step cap) EntersCovered as init → ∀ (k : ℕ) d r, s.tasks[k]? = some d →
        d.rx = some r → r.skipped = 0 → ∀ p, p <+: sentLines d → p ≠ [] →
          titleCount (received p) ≠ none) := by
  refine ⟨covered_iff cap,fun as s h => ?_⟩
  constructor
  · rintro bs cs k clock m c d r rfl hm hc hp hd hwel hr h0
    have hrun := run_rest bs _ init m s h hm
    exact title_safe_iff cap bs cs k clock m s c d hm hrun hc hp hd r hr h0 hwel
  · intro hg k d r hd hr h0 p hpre hne
    obtain ⟨n,_,hn,_⟩ := ((prefix_sentLines cap as s h k d hd p).mp hpre).resolve_left hne
    have hin : d.phase ≠ .spawned ∧ d.phase ≠ .subscribed := by
      constructor <;> intro hp <;>
        simp [unwelcomed cap as s h k d hd (by simp [hp, NotWelcomed])] at hn
    obtain ⟨bs,cs,clock,m,c,rfl,hm,hc,hp⟩ := inserted_before cap as s h k d hd hin
    have hrun := run_rest bs _ init m s h hm
    have hcov := (((guarded_append EntersCovered bs _ init).mp hg).2 m hm).1 k rfl c hc hp
    refine (title_safe_iff cap bs cs k clock m s c d hm hrun hc hp hd r hr h0 (by simp [hn])).mpr
      (fun j _ => ?_) p hpre hne
    have hnet := run_net_nonneg cap _ s h _ ((List.take_prefix (r.start+j) s.shared.tx).filterMap eventFlag)
    exact Int.add_nonneg hcov hnet

instance (s : State) (a : Action) : Decidable (EntersCovered s a) := by
  unfold EntersCovered
  infer_instance

theorem one_by_one_drawn :
    titleCount (received [.welcome 1,.presence 1 true,.presence 2 true]) ≠ none := by
  have hrun : run (step 16) oneByOne init = some oneByOneEnd := (Option.some_get _).symm
  exact ((title_defined_iff 16).2 oneByOne oneByOneEnd hrun).2 (by decide +kernel) 0 oneByOneClient
    ⟨0,2,0⟩ (List.getElem?_eq_getElem _) (by decide +kernel) rfl _ (by decide +kernel) (by simp)

def outrun : List Action :=
  [.spawn,.conn 0 (.go 0),.conn 0 (.go 0),.conn 0 (.go 0),.conn 0 (.go 0),
   .spawn,.conn 1 (.go 0),.conn 0 .eof,.conn 0 (.go 0),.conn 0 (.go 0),
   .conn 1 (.go 0),.conn 0 (.go 0),.conn 1 (.go 0),.conn 1 (.go 0),.conn 1 .recv,.conn 1 .written]

def outrunEnd : State := (run (step 16) outrun init).get (by decide +kernel)

def outrunClient : Conn := outrunEnd.tasks.get ⟨1,by decide +kernel⟩

theorem undrawable_titles :
    (¬ ∀ (cap : ℕ) (p : List ServerMsg), FromServer cap p → titleCount (received p) ≠ none) ∧
      ¬ ∀ (cap : ℕ) (p : List ServerMsg) (n : ℕ), FromServer cap (.welcome n::p) →
        titleCount (received (.welcome n::p)) ≠ none := by
  constructor
  · intro hdrawn
    exact hdrawn 16 [] (.refused List.nil_prefix) rfl
  · intro hdrawn
    have hrun : run (step 16) outrun init = some outrunEnd := (Option.some_get _).symm
    have hserved : FromServer 16 [.welcome 1,.presence 1 false] :=
      .served outrun outrunEnd 1 outrunClient hrun (List.getElem?_eq_getElem _) (by decide +kernel)
    exact hdrawn 16 _ 1 hserved rfl

end RustChat.TitleUnderflow
