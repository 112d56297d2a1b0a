import Mathlib.Algebra.BigOperators.Field
import Mathlib.Algebra.BigOperators.Fin
import Mathlib.Algebra.Order.BigOperators.Group.Finset
import Mathlib.Data.Rat.Floor
import RustChat.Rounding
import RustChat.Server
import RustChat.SnapshotOrder
import RustChat.SnapshotPick
import RustChat.TitleUnderflow

/-!
# The shares of the votes

`snapshot_with_percentages` and the gauges `render_vote` draws from its
quotients. An `f32` is the rational it stands for: the values are 0 or between
2^-64 and 2^64, where rounding to 24 digits is all its arithmetic does.
-/

set_option autoImplicit false

namespace RustChat.VoteShare
open Runs Protocol Handler HandlerSteps Hub Rounding Allocation SnapshotPick SnapshotOrder VoteConservation
open Tui TitleUnderflow

/-- `as f32`. -/
def asF32 (n : ℕ) : ℚ := roundTo 24 n

def share (total count : ℕ) : ℚ := if 0 < total then roundTo 24 (asF32 count/asF32 total) else 0

/-- The second half of what `snapshot_with_percentages` returns, from its first. -/
def percentages (counts : Counts) : Fin nOptions → ℚ := fun i => share (total counts) (counts i)

/-- `snapshot_with_percentages`, after the loads of `snapshot`. -/
def snapshotWithPercentages (counts : Counts) : Except Fault (Counts × (Fin nOptions → ℚ)) :=
  (sum counts).map fun total => (counts,fun i => share total (counts i))

/-- The client's state with the percentages of the last snapshot. -/
structure Screen where
  app : AppState
  votePercentages : Fin nOptions → ℚ

def Screen.new : Screen := ⟨Tui.new,fun _ => 0⟩

/-- The network task, for one message. The percentages of a `VoteSnapshot` are
those its sender computed from its counts. -/
def Screen.receive (s : Screen) (msg : ServerMsg) : Screen :=
  ⟨Tui.receive s.app msg,
    match msg with
    | .voteSnapshot counts => percentages counts
    | _ => s.votePercentages⟩

structure Gauge where
  label : String
  mine : Bool
  ratio : ℚ
  deriving DecidableEq

def gauge (s : Screen) (total : ℕ) (i : Fin nOptions) : Gauge :=
  let mine := decide (s.app.myVote = some i.val)
  let count := s.app.voteCounts i
  ⟨if mine then s!"[{i.val+1}]▶ {count}/{total}" else s!"[{i.val+1}]  {count}/{total}",
    mine,s.votePercentages i⟩

/-- The loop of `render_vote`, two rows of the panel for each option.
`Gauge::ratio` panics outside of [0,1]. -/
def gauges (s : Screen) (height total : ℕ) : List (Fin nOptions) → Option (List Gauge)
  | [] => some []
  | i::is =>
    if height < i.val*2+2 then some []
    else if 0 ≤ s.votePercentages i ∧ s.votePercentages i ≤ 1 then
      (gauges s height total is).map (gauge s total i::·)
    else none

/-- `render_vote` in a panel of some height inside its border. There is no
result where it panics. -/
def renderVote (s : Screen) (height : ℕ) : Option (List Gauge) :=
  (sum s.app.voteCounts).toOption.bind fun total => gauges s height total (List.finRange nOptions)

/-! ## A quotient of counts -/

theorem asF32_exact (n : ℕ) (h : n ≤ 2^24) : asF32 n = n := roundTo_natCast 24 (by decide) n h

theorem share_zero (total : ℕ) : share total 0 = 0 := by simp [share, asF32, roundTo_zero]

theorem share_range (total count : ℕ) (h : count ≤ total) :
    0 ≤ share total count ∧ share total count ≤ 1 := by
  unfold share asF32
  split_ifs with hpos
  · have hc : 0 ≤ roundTo 24 (count:ℚ) := roundTo_nonneg 24 (by decide) _ count.cast_nonneg
    have ht : 0 < roundTo 24 (total:ℚ) := roundTo_pos 24 (by decide) _ (Nat.cast_pos.mpr hpos)
    have hle : roundTo 24 (count:ℚ) ≤ roundTo 24 (total:ℚ) :=
      roundTo_mono 24 (by decide) _ _ count.cast_nonneg (Nat.cast_le.mpr h)
    exact ⟨roundTo_nonneg 24 (by decide) _ (div_nonneg hc ht.le),
      roundTo_le_one 24 (by decide) _ (div_nonneg hc ht.le) ((div_le_one ht).mpr hle)⟩
  · exact ⟨le_rfl,zero_le_one⟩

theorem share_exact (total count : ℕ) (h : count ≤ total) (ht : total ≤ 2^24) (hpos : 0 < total) :
    share total count = roundTo 24 ((count:ℚ)/total) := by
  rw [share, if_pos hpos, asF32_exact count (h.trans ht), asF32_exact total ht]

theorem share_total (total : ℕ) (hpos : 0 < total) (ht : total ≤ 2^24) : share total total = 1 := by
  rw [share_exact total total le_rfl ht hpos, div_self (Nat.cast_ne_zero.mpr hpos.ne'),
    roundTo_one 24 (by decide)]

/-- Counts below 2^23 in all are far enough apart to be told apart. -/
theorem share_lt (total a b : ℕ) (hab : a < b) (hb : b ≤ total) (ht : total < 2^23) :
    share total a < share total b := by
  have hpos : 0 < total := by omega
  have htq : (0:ℚ) < total := Nat.cast_pos.mpr hpos
  rw [share_exact total a (by omega) (by omega) hpos, share_exact total b hb (by omega) hpos]
  refine roundTo_lt 24 _ _ (by positivity) (by positivity) ?_
  have hone : (a:ℚ)+1 ≤ b := by exact_mod_cast hab
  have hbt : (b:ℚ) ≤ total := Nat.cast_le.mpr hb
  have htl : (total:ℚ) < 2^23 := by exact_mod_cast ht
  rw [← add_div, ← sub_div, div_div, mul_comm, ← div_div]
  refine div_lt_div_of_pos_right ?_ htq
  rw [div_lt_iff₀ (by positivity)]
  linarith

theorem share_error (total count : ℕ) (h : count ≤ total) (ht : total ≤ 2^24) (hpos : 0 < total) :
    |share total count-(count:ℚ)/total| ≤ (count:ℚ)/total/2^24 := by
  rw [share_exact total count h ht hpos]
  exact roundTo_error 24 _ (by positivity)

/-! ## The shares of a snapshot -/

/-- What the shares of a snapshot say of its counts. -/
structure Shares (counts : Counts) (p : Fin nOptions → ℚ) : Prop where
  range : ∀ i, 0 ≤ p i ∧ p i ≤ 1
  order : ∀ i j, p i < p j ↔ counts i < counts j
  empty : ∀ i, p i = 0 ↔ counts i = 0
  whole : ∀ i, p i = 1 ↔ 0 < total counts ∧ counts i = total counts
  error : ∀ i, |p i*total counts-counts i| ≤ counts i/2^24
  sum : 0 < total counts → |∑ i, p i-1| ≤ 1/2^24

theorem total_sum (counts : Counts) : total counts = ∑ i, counts i := by
  rw [total, List.sum_ofFn]

theorem count_le_total (counts : Counts) (i : Fin nOptions) : counts i ≤ total counts := by
  rw [total_sum]
  exact Finset.single_le_sum (fun _ _ => Nat.zero_le _) (Finset.mem_univ i)

theorem percentages_shares (counts : Counts) (h : total counts < 2^23) :
    Shares counts (percentages counts) := by
  have hle := count_le_total counts
  have hlt : ∀ a b, a < b → b ≤ total counts → share (total counts) a < share (total counts) b :=
    fun a b hab hb => share_lt _ a b hab hb h
  have hmono : StrictMonoOn (share (total counts)) (Set.Iic (total counts)) :=
    fun a _ b hb hab => hlt a b hab hb
  refine ⟨fun i => share_range _ _ (hle i),fun i j => hmono.lt_iff_lt (hle i) (hle j),fun i => ?_,
    fun i => ?_,fun i => ?_,fun hpos => ?_⟩
  · rw [percentages, ← share_zero (total counts)]
    exact hmono.injOn.eq_iff (hle i) (Nat.zero_le _)
  · rcases Nat.eq_zero_or_pos (total counts) with h0 | hpos
    · simp [percentages, share, h0]
    · rw [percentages, ← share_total (total counts) hpos (by omega)]
      exact (hmono.injOn.eq_iff (hle i) (Set.mem_Iic.mpr le_rfl)).trans (by simp [hpos])
  · rcases Nat.eq_zero_or_pos (total counts) with h0 | hpos
    · have hi := hle i
      simp [h0, show counts i = 0 by omega]
    · have hq : (0:ℚ) < total counts := Nat.cast_pos.mpr hpos
      have herr := share_error (total counts) (counts i) (hle i) (by omega) hpos
      have hmul := mul_le_mul_of_nonneg_right herr hq.le
      rw [← abs_of_pos hq, ← abs_mul, abs_of_pos hq, sub_mul, div_mul_cancel₀ _ hq.ne', div_right_comm,
        div_mul_cancel₀ _ hq.ne'] at hmul
      exact hmul
  · have hq : (0:ℚ) < total counts := Nat.cast_pos.mpr hpos
    have hone : ∑ i, (counts i:ℚ)/total counts = 1 := by
      rw [← Finset.sum_div, total_sum, Nat.cast_sum, div_self]
      rw [← Nat.cast_sum, ← total_sum]
      exact hq.ne'
    calc |∑ i, percentages counts i-1| = |∑ i, (percentages counts i-(counts i:ℚ)/total counts)| := by
          rw [Finset.sum_sub_distrib, hone]
      _ ≤ ∑ i, |percentages counts i-(counts i:ℚ)/total counts| := Finset.abs_sum_le_sum_abs _ _
      _ ≤ ∑ i, (counts i:ℚ)/total counts/2^24 :=
          Finset.sum_le_sum fun i _ => share_error _ _ (hle i) (by omega) hpos
      _ = 1/2^24 := by rw [← Finset.sum_div, hone]

/-! ## How many votes a snapshot can count -/

def LoadedLe (B : ℕ) (c : Conn) : Prop :=
  match c.phase with
  | .loading loaded _ _ => ∀ n ∈ loaded, n ≤ B
  | _ => True

/-- No snapshot counts more than `B` votes for an option. -/
def Few (B : ℕ) (s : State) : Prop :=
  (∀ (k : ℕ) c, s.tasks[k]? = some c → LoadedLe B c) ∧
    ∀ m ∈ s.shared.throttle.shared.passed, ∀ i, m.counts i ≤ B

theorem handler_loadedLe (B : ℕ) (sh : Shared) (c : Conn) (i : Input) (e : Effect) (c' : Conn)
    (hb : ∀ i, VoteBoard.load sh.counts i ≤ B) (h : HandlerStep sh c i e c') (hc : LoadedLe B c) :
    LoadedLe B c' ∧ ∀ m, e = .callThrottled m → ∀ i, m.counts i ≤ B := by
  unfold LoadedLe at *
  cases h with
  | load clock loaded asOf after h hl =>
    rw [h] at hc
    refine ⟨fun n hn => ?_,by simp⟩
    rcases List.mem_append.mp hn with hn | hn
    · exact hc n hn
    · rw [List.mem_singleton.mp hn]
      exact hb _
  | publish clock loaded asOf after h hl =>
    rw [h] at hc
    refine ⟨trivial,?_⟩
    rintro m ⟨⟩ i
    have hi : i.val < loaded.length := Nat.lt_of_lt_of_le i.isLt hl
    dsimp only
    rw [List.getD_eq_getElem?_getD, List.getElem?_eq_getElem hi]
    exact hc _ (List.getElem_mem hi)
  | replace clock option h => exact ⟨trivial,by cases c.currentVote <;> simp [subtract]⟩
  | record | unvote => exact ⟨by simp,by simp⟩
  | resume clock call after h hr => exact ⟨by cases after <;> simp [After.phase],by simp⟩
  | skip h => exact ⟨hc,by simp⟩
  | _ => exact ⟨trivial,by simp⟩

theorem step_few (cap B : ℕ) (s : State) (a : Hub.Action) (t : State)
    (hb : ∀ i, VoteBoard.load s.shared.counts i ≤ B) (hs : Few B s) (h : Hub.step cap s a = some t) :
    Few B t := by
  refine ⟨fun k c => ?_,fun m hm => ?_⟩
  · refine step_kept cap (fun s => ∀ i, VoteBoard.load s.shared.counts i ≤ B) (fun _ _ c => LoadedLe B c)
      ?_ s t a hb hs.1 h k c
    exact {
      spawned := fun _ _ => trivial
      moved := fun s k i c c' e hb _ hs hc => (handler_loadedLe B s.shared c i e c' hb hs hc).1
      wrote := fun s k i c c' _ _ hw hc => by
        unfold LoadedLe at *
        rwa [(writer_frame cap s.shared c i c' hw).2.1]
      other := fun s k j i c c' e d _ _ _ _ _ hd => hd
      throttled := fun s k clock t j d _ _ _ hd => hd
      shutdown := fun s j d _ _ hd => hd }
  · cases step_hub cap s a t h with
    | spawn | writer | shutdown => exact hs.2 m hm
    | handler k i c c' e hc hstep =>
      rcases apply_throttle s.shared e with ht | ⟨x,rfl,ht⟩
      · exact hs.2 m (by rwa [ht] at hm)
      · dsimp only at hm
        rw [ht] at hm
        rcases List.mem_append.mp hm with hm | hm
        · exact hs.2 m hm
        · rw [List.mem_singleton.mp hm]
          exact (handler_loadedLe B s.shared c i _ c' hb hstep (hs.1 k c hc)).2 x rfl
    | throttle k clock u hu =>
      obtain ⟨v,g,v',fs,hv,hn,rfl⟩ := TaskPool.move_cases Throttle.next s.shared.throttle u k clock hu
      refine hs.2 m ?_
      rwa [← ThrottleInvariant.next_passed s.shared.throttle.shared g v v' fs clock hn]

theorem account_le (c : Conn) (i : Fin nOptions) : account c i ≤ 2 := by
  have hv : ∀ vote, 0 ≤ votes vote i ∧ votes vote i ≤ 1 := by
    intro vote
    unfold votes
    split_ifs <;> omega
  have hc := hv c.currentVote
  unfold account inProgress
  cases c.phase with
  | voting option => have ho := hv (some option); dsimp only; omega
  | voted option => have ho := hv (some option); dsimp only; omega
  | unvoting prev after => have ho := hv (some prev); dsimp only; omega
  | _ => dsimp only; omega

theorem sum_account_le (tasks : List Conn) (i : Fin nOptions)
    (h : ∀ c ∈ tasks, Server.hasReturned c = true → account c i = 0) :
    (tasks.map fun c => account c i).sum ≤ 2*(tasks.filter fun c => !Server.hasReturned c).length := by
  induction tasks with
  | nil => simp
  | cons c tasks ih =>
    have hrest := ih fun d hd => h d (List.mem_cons_of_mem _ hd)
    rw [List.map_cons, List.sum_cons, List.filter_cons]
    cases hc : Server.hasReturned c with
    | true =>
      rw [h c List.mem_cons_self hc]
      simpa using hrest
    | false =>
      have hle := account_le c i
      simp only [Bool.not_false, if_true, List.length_cons]
      push_cast
      omega

/-- The board never shows more votes for an option than two for each handler
that runs. -/
theorem run_board (cap : ℕ) (as : List Server.Action) (s : Server.State)
    (h : run (Server.step cap) as Server.init = some s) (i : Fin nOptions) :
    VoteBoard.load s.hub.shared.counts i ≤ 2*Accept.maxConnections := by
  have hhub := (Server.run_parts cap as s h).2
  have hsum := sum_account_le s.hub.tasks i fun c hc hret => by
    obtain ⟨k,hk⟩ := List.mem_iff_getElem?.mp hc
    have hrec := run_recorded cap _ s.hub hhub k c hk
    unfold Server.hasReturned at hret
    unfold account inProgress votes
    cases hp : c.phase <;> simp_all [Recorded]
  have hboard : s.hub.shared.counts i = (s.hub.tasks.map fun c => account c i).sum := by
    rw [← account_sum_apply, ← run_conserved cap _ s.hub hhub]
  have hmany := Server.run_unfinished cap as s h
  have hload := VoteBoard.load_of_nonneg s.hub.shared.counts i
    (conserved_nonneg s.hub (run_conserved cap _ s.hub hhub) i)
  omega

theorem run_few (cap : ℕ) (as : List Server.Action) (s : Server.State)
    (h : run (Server.step cap) as Server.init = some s) : Few (2*Accept.maxConnections) s.hub := by
  refine run_history (fun _ s => Few (2*Accept.maxConnections) s.hub) Server.init
    ⟨by simp [Server.init, Hub.init],by simp [Server.init, Hub.init, Throttle.init]⟩ ?_ as s h
  intro as m a t hm hfew ht
  have hh := (Server.step_parts cap m a t ht).2.2
  cases hact : Server.hubAction a with
  | none =>
    rw [hact] at hh
    obtain heq : m.hub = t.hub := Option.some.inj hh
    rwa [← heq]
  | some b =>
    rw [hact] at hh
    exact step_few cap _ m.hub b t.hub (run_board cap as m hm) hfew hh

/-! ## What a client draws -/

theorem snapshot_ok (counts : Counts) (h : total counts < u64Bound) :
    snapshotWithPercentages counts = .ok (counts,percentages counts) := by
  rw [snapshotWithPercentages, sum_eq, if_pos h]
  rfl

/-- The screen after some messages, with the client's own choice marked. -/
def screen (mine : Option ℕ) (heard : List ServerMsg) : Screen :=
  let s := heard.foldl Screen.receive Screen.new
  { s with app := { s.app with myVote := mine } }

theorem foldl_percentages (heard : List ServerMsg) (s : Screen)
    (hs : s.votePercentages = percentages s.app.voteCounts) :
    (heard.foldl Screen.receive s).votePercentages =
      percentages (heard.foldl Screen.receive s).app.voteCounts := by
  induction heard generalizing s with
  | nil => exact hs
  | cons msg heard ih =>
    refine ih _ ?_
    cases msg with
    | presence id joined => cases joined <;> exact hs
    | welcome | chat | voteSnapshot | error => first | exact hs | rfl

theorem percentages_zero : percentages (fun _ => 0) = fun _ => 0 := funext fun _ => share_zero _

theorem screen_percentages (mine : Option ℕ) (heard : List ServerMsg) :
    (screen mine heard).votePercentages = percentages (screen mine heard).app.voteCounts :=
  foldl_percentages heard Screen.new percentages_zero.symm

theorem receive_voteCounts (s : AppState) (msg : ServerMsg) :
    (receive s msg).voteCounts = (snapshotOf (.server msg)).getD s.voteCounts := by
  cases msg with
  | presence id joined => cases joined <;> rfl
  | welcome | chat | voteSnapshot | error => rfl

theorem foldl_voteCounts (heard : List ServerMsg) (s : Screen) :
    (heard.foldl Screen.receive s).app.voteCounts =
      ((voteSnapshots (heard.map .server)).getLast?).getD s.app.voteCounts := by
  unfold voteSnapshots
  induction heard generalizing s with
  | nil => rfl
  | cons msg heard ih =>
    have happ : (s.receive msg).app = receive s.app msg := rfl
    rw [List.foldl_cons, ih, happ, receive_voteCounts, List.map_cons, List.filterMap_cons]
    cases snapshotOf (.server msg) with
    | none => rfl
    | some counts => rw [List.getLast?_cons, Option.getD_some, Option.getD_some]

theorem gauges_legal (s : Screen) (height total : ℕ) (is : List (Fin nOptions))
    (h : ∀ i, 0 ≤ s.votePercentages i ∧ s.votePercentages i ≤ 1) :
    gauges s height total is =
      some ((is.takeWhile fun i => decide (i.val*2+2 ≤ height)).map (gauge s total)) := by
  induction is with
  | nil => rfl
  | cons i is ih =>
    rw [gauges]
    by_cases hi : height < i.val*2+2
    · rw [if_pos hi, List.takeWhile_cons, if_neg (by simpa using hi), List.map_nil]
    · rw [if_neg hi, if_pos (h i), ih, List.takeWhile_cons, if_pos (by simpa using hi)]
      rfl

theorem takeWhile_numbered {α : Type*} (f : α → ℕ) (l : List α) (k m : ℕ)
    (h : ∀ (i : ℕ) a, l[i]? = some a → f a = k+i) :
    (l.takeWhile fun a => decide (f a < k+m)) = l.take m := by
  induction l generalizing k m with
  | nil => simp
  | cons a l ih =>
    have ha : f a = k := h 0 a rfl
    cases m with
    | zero => simp [ha]
    | succ m =>
      rw [List.takeWhile_cons, if_pos (by simp [ha]), List.take_succ_cons]
      have hrest := ih (k+1) m fun i b hb => by rw [h (i+1) b hb]; omega
      rw [← hrest, Nat.add_right_comm k 1 m, Nat.add_assoc]

/-- The rows that fit are those of the first options. -/
theorem rows_fit (height : ℕ) :
    ((List.finRange nOptions).takeWhile fun i => decide (i.val*2+2 ≤ height)) =
      (List.finRange nOptions).take (height/2) := by
  have hfit : ∀ i : Fin nOptions, decide (i.val*2+2 ≤ height) = decide (i.val < 0+height/2) :=
    fun i => decide_eq_decide.mpr (by omega)
  simp only [hfit]
  refine takeWhile_numbered Fin.val _ 0 _ fun i a ha => ?_
  obtain ⟨hi,rfl⟩ := List.getElem?_eq_some_iff.mp ha
  simp

theorem renderVote_fair (s : Screen) (height : ℕ) (hsum : total s.app.voteCounts < u64Bound)
    (hp : s.votePercentages = percentages s.app.voteCounts) :
    renderVote s height =
      some (((List.finRange nOptions).take (height/2)).map (gauge s (total s.app.voteCounts))) := by
  have hlegal : ∀ i, 0 ≤ s.votePercentages i ∧ s.votePercentages i ≤ 1 := fun i => by
    rw [hp]
    exact share_range _ _ (count_le_total _ i)
  rw [renderVote, sum_eq, if_pos hsum]
  exact (gauges_legal s height _ _ hlegal).trans (by rw [rows_fit])

theorem heard_sent (cap : ℕ) (sh : Shared) (c : Conn) (hc : Delivery.Fed cap sh c) (counts : Counts)
    (h : .voteSnapshot counts ∈ sentLines c) : .server (.voteSnapshot counts) ∈ sh.tx := by
  have hev : .server (.voteSnapshot counts) ∈ Delivery.events c := by
    rcases List.mem_append.mp h with h | h
    · simp at h
    · obtain ⟨l,hl,hmsg⟩ := List.mem_map.mp h
      exact List.mem_map.mpr ⟨l,hl,congrArg BroadcastEvent.server hmsg⟩
  rw [Delivery.events_positions cap sh c hc] at hev
  obtain ⟨pos,_,hpos⟩ := List.mem_filterMap.mp hev
  exact List.mem_of_getElem? hpos

theorem few_sent (cap B : ℕ) (as : List Hub.Action) (s : State)
    (h : run (Hub.step cap) as Hub.init = some s) (hs : Few B s) (counts : Counts)
    (hmem : .server (.voteSnapshot counts) ∈ s.shared.tx) :
    ∀ i, counts i ≤ B := by
  have hrel : Relayed s := run_invariant Relayed (step_relayed cap) as Hub.init s rfl h
  have hsnap : counts ∈ voteSnapshots s.shared.tx := List.mem_filterMap.mpr ⟨_,hmem,rfl⟩
  rw [hrel] at hsnap
  obtain ⟨x,hx,rfl⟩ := List.mem_map.mp hsnap
  have hpassed := ThrottleInvariant.settled_passed _ (run_throttle cap as s h) x
    (by simp [Throttle.settled, hx])
  exact hs.2 x.msg (List.mem_of_getElem? hpassed)

/-- In every run of the server a counter is never loaded as more than twice
the number of connections, no sum of a snapshot leaves its type, and the
shares of every snapshot say of its counts what they should. So `render_vote`
panics for no client, whatever part of its lines it has read: it draws, in the
rows there are, the last snapshot it has heard. -/
theorem shares_shown (cap : ℕ) (as : List Server.Action) (s : Server.State)
    (h : run (Server.step cap) as Server.init = some s) :
    (∀ i, VoteBoard.load s.hub.shared.counts i ≤ 2*Accept.maxConnections) ∧
    (∀ m ∈ s.hub.shared.throttle.shared.passed,
      (∀ i, m.counts i ≤ 2*Accept.maxConnections) ∧
        snapshotWithPercentages m.counts = .ok (m.counts,percentages m.counts) ∧
        Shares m.counts (percentages m.counts)) ∧
    ∀ (k : ℕ) c, s.hub.tasks[k]? = some c → ∀ heard, heard <+: sentLines c → ∀ mine height,
      (screen mine heard).app.voteCounts =
        ((voteSnapshots (heard.map .server)).getLast?).getD (fun _ => 0) ∧
      Shares (screen mine heard).app.voteCounts (screen mine heard).votePercentages ∧
      renderVote (screen mine heard) height = some (((List.finRange nOptions).take (height/2)).map
        (gauge (screen mine heard) (total (screen mine heard).app.voteCounts))) := by
  have hhub := (Server.run_parts cap as s h).2
  have hfew := run_few cap as s h
  have htotal : ∀ counts : Counts, (∀ i, counts i ≤ 2*Accept.maxConnections) →
      total counts < 2^23 ∧ total counts < u64Bound := by
    intro counts hc
    have hle : total counts ≤ ∑ _i : Fin nOptions, 2*Accept.maxConnections := by
      rw [total_sum]
      exact Finset.sum_le_sum fun i _ => hc i
    have hsum : ∑ _i : Fin nOptions, 2*Accept.maxConnections = 4000 := by
      simp [Accept.maxConnections, nOptions]
    unfold u64Bound
    omega
  refine ⟨run_board cap as s h,fun m hm => ?_,fun k c hc heard hheard mine height => ?_⟩
  · obtain ⟨hlt,hfit⟩ := htotal m.counts (hfew.2 m hm)
    exact ⟨hfew.2 m hm,snapshot_ok m.counts hfit,percentages_shares m.counts hlt⟩
  · have hcounts := foldl_voteCounts heard Screen.new
    have hpercent := screen_percentages mine heard
    have hbound : ∀ i, (screen mine heard).app.voteCounts i ≤ 2*Accept.maxConnections := by
      have heq : (screen mine heard).app.voteCounts =
          ((voteSnapshots (heard.map .server)).getLast?).getD fun _ => 0 := hcounts
      rw [heq]
      cases hlast : (voteSnapshots (heard.map .server)).getLast? with
      | none => simp
      | some counts =>
        obtain ⟨e,he,hsnap⟩ := List.mem_filterMap.mp (List.mem_of_getLast? hlast)
        obtain ⟨msg,hmsg,rfl⟩ := List.mem_map.mp he
        obtain rfl : msg = .voteSnapshot counts := by
          unfold snapshotOf at hsnap
          split at hsnap <;> simp_all
        exact few_sent cap _ _ s.hub hhub hfew counts
          (heard_sent cap _ c (Delivery.run_fed cap _ s.hub hhub k c hc) counts (hheard.subset hmsg))
    obtain ⟨hlt,hfit⟩ := htotal _ hbound
    refine ⟨hcounts,?_,renderVote_fair _ height hfit hpercent⟩
    rw [hpercent]
    exact percentages_shares _ hlt

def oneVote : List Server.Action :=
  [.accept .connect,.accept .go,.accept .go,.accept .go,.accept .spawn]++
  List.replicate 4 (.conn 0 (.go 0))++[.conn 0 (.line (some (.vote 2)))]++
  List.replicate 8 (.conn 0 (.go 0))++List.replicate 4 (.throttle 0 1000)++
  [.conn 0 .recv,.conn 0 .written,.conn 0 .recv,.conn 0 .written]

def oneVoteEnd : Server.State := (run (Server.step 16) oneVote Server.init).get (by decide +kernel)

def oneVoteConn : Conn := oneVoteEnd.hub.tasks.get ⟨0,by decide +kernel⟩

theorem one_vote_drawn :
    ∃ p, renderVote (screen (some 2) (sentLines oneVoteConn)) 6 = some p ∧
      p.map Gauge.label = ["[1]  0/1","[2]  0/1","[3]▶ 1/1"] ∧ p.map Gauge.ratio = [0,0,1] := by
  have hrun : run (Server.step 16) oneVote Server.init = some oneVoteEnd := (Option.some_get _).symm
  obtain ⟨hcounts,hshares,hdrawn⟩ := (shares_shown 16 oneVote oneVoteEnd hrun).2.2 0 oneVoteConn
    (List.getElem?_eq_getElem _) (sentLines oneVoteConn) List.prefix_rfl (some 2) 6
  refine ⟨_,hdrawn,?_,?_⟩
  · decide +kernel
  · decide +kernel

end RustChat.VoteShare
