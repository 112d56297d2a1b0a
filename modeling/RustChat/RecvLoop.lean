import RustChat.ServerLine

/-!
# The shared receive loop

`recv_until_count_with_timeout`, for any lines and any way in which they end.
-/

set_option autoImplicit false

namespace RustChat.RecvLoop
open ServerLine

/-- What `next_line` gives. Where a list of it ends, the timeout comes. -/
inductive NextLine where
  | line (text : String)
  | eof
  | failed
  deriving DecidableEq, Repr

/-- What the loop leaves: its count, the lines it has handed to `on_match` and
all lines it has read. -/
structure Received where
  count : ℕ
  matched : List String
  read : List String
  deriving DecidableEq, Repr

def recvLoop (target : String) (msgCount : ℕ) : ℕ → List NextLine → Received
  | count, .line text::rest =>
    if contains text target then
      -- the quota is only looked at once a line has been counted
      if msgCount ≤ count+1 then ⟨count+1,[text],[text]⟩
      else
        let r := recvLoop target msgCount (count+1) rest
        ⟨r.count,text::r.matched,text::r.read⟩
    else
      let r := recvLoop target msgCount count rest
      ⟨r.count,r.matched,text::r.read⟩
  | count, _ => ⟨count,[],[]⟩

def recvUntilCountWithTimeout (next : List NextLine) (target : String) (msgCount : ℕ) : Received :=
  recvLoop target msgCount 0 next

def arrived : List NextLine → List String
  | .line text::rest => text::arrived rest
  | _ => []

theorem recvLoop_count (target : String) (msgCount count : ℕ) (next : List NextLine) :
    (recvLoop target msgCount count next).count =
      count+(recvLoop target msgCount count next).matched.length := by
  induction next generalizing count with
  | nil => rfl
  | cons x rest ih =>
    cases x with
    | eof | failed => rfl
    | line text =>
      unfold recvLoop
      split_ifs with hc hq
      · rfl
      · have hrest := ih (count+1)
        simp only [List.length_cons]
        omega
      · exact ih count

theorem recvLoop_matched (target : String) (msgCount count : ℕ) (next : List NextLine) :
    (recvLoop target msgCount count next).matched =
      ((arrived next).filter fun text => contains text target).take (max (msgCount-count) 1) := by
  induction next generalizing count with
  | nil => simp [recvLoop, arrived]
  | cons x rest ih =>
    cases x with
    | eof | failed => simp [recvLoop, arrived]
    | line text =>
      unfold recvLoop
      split_ifs with hc hq
      · rw [show max (msgCount-count) 1 = 0+1 by omega]
        simp [arrived, hc]
      · rw [show max (msgCount-count) 1 = max (msgCount-(count+1)) 1+1 by omega]
        simp [arrived, hc, ih (count+1)]
      · simp [arrived, hc, ih count]

theorem recvLoop_read (target : String) (msgCount count : ℕ) (next : List NextLine) :
    (recvLoop target msgCount count next).read <+: arrived next ∧
      (recvLoop target msgCount count next).matched =
        (recvLoop target msgCount count next).read.filter fun text => contains text target := by
  induction next generalizing count with
  | nil => exact ⟨List.nil_prefix,rfl⟩
  | cons x rest ih =>
    cases x with
    | eof | failed => exact ⟨List.nil_prefix,rfl⟩
    | line text =>
      unfold recvLoop
      split_ifs with hc hq
      · exact ⟨⟨arrived rest,rfl⟩,by simp [hc]⟩
      · obtain ⟨hread,hmatched⟩ := ih (count+1)
        exact ⟨List.cons_prefix_cons.mpr ⟨rfl,hread⟩,by simp [hc, hmatched]⟩
      · obtain ⟨hread,hmatched⟩ := ih count
        exact ⟨List.cons_prefix_cons.mpr ⟨rfl,hread⟩,by simp [hc, hmatched]⟩

theorem recvLoop_stops (target : String) (msgCount count : ℕ) (next : List NextLine)
    (before : List String) (text : String) (hbefore : before++[text] <+: arrived next)
    (hmatch : contains text target = true)
    (hquota : (before.filter fun text => contains text target).length+1 = max (msgCount-count) 1) :
    (recvLoop target msgCount count next).read = before++[text] := by
  induction next generalizing count before with
  | nil => simp [arrived] at hbefore
  | cons x rest ih =>
    cases x with
    | eof | failed => simp [arrived] at hbefore
    | line first =>
      cases before with
      | nil =>
        obtain ⟨rfl,-⟩ := List.cons_prefix_cons.mp hbefore
        have hone : msgCount ≤ count+1 := by
          simp only [List.filter_nil, List.length_nil] at hquota
          omega
        simp [recvLoop, hmatch, hone]
      | cons y before =>
        obtain ⟨rfl,htail⟩ := List.cons_prefix_cons.mp hbefore
        unfold recvLoop
        split_ifs with hc hq
        · simp only [List.filter_cons, hc, if_true, List.length_cons] at hquota
          omega
        · simp only [List.filter_cons, hc, if_true, List.length_cons] at hquota
          exact congrArg (y::·) (ih (count+1) before htail (by omega))
        · simp only [List.filter_cons, hc] at hquota
          exact congrArg (y::·) (ih count before htail hquota)

/-! ## The quota -/

def matching (next : List NextLine) (target : String) : List String :=
  (arrived next).filter fun text => contains text target

structure StopsAtQuota (next : List NextLine) (target : String) (msgCount : ℕ) (r : Received) : Prop where
  count : r.count = min msgCount (matching next target).length
  matched : r.matched = (matching next target).take r.count
  read : r.read <+: arrived next
  last : ∀ before text, before++[text] <+: arrived next → contains text target = true →
    (before.filter fun text => contains text target).length+1 = msgCount → r.read <+: before++[text]

/-- A quota of none is not noticed before a line has been counted. -/
theorem recv_stops_at_quota_iff (next : List NextLine) (target : String) (msgCount : ℕ) :
    StopsAtQuota next target msgCount (recvUntilCountWithTimeout next target msgCount) ↔
      0 < msgCount ∨ matching next target = [] := by
  unfold recvUntilCountWithTimeout
  have hcount := recvLoop_count target msgCount 0 next
  have hmatched : (recvLoop target msgCount 0 next).matched = (matching next target).take (max msgCount 1) :=
    recvLoop_matched target msgCount 0 next
  have hread := (recvLoop_read target msgCount 0 next).1
  rw [hmatched, List.length_take, Nat.zero_add] at hcount
  constructor
  · intro h
    have hmin := h.count
    by_contra hne
    have hlen : (matching next target).length ≠ 0 := fun h0 =>
      hne (Or.inr (List.eq_nil_of_length_eq_zero h0))
    omega
  · rintro (hpos | hnil)
    · rw [Nat.max_eq_left hpos] at hcount hmatched
      refine ⟨hcount,?_,hread,fun before text hbefore hmatch hquota => ?_⟩
      · rw [hmatched, hcount, List.take_eq_take_iff]
        omega
      · rw [recvLoop_stops target msgCount 0 next before text hbefore hmatch (by omega)]
    · rw [hnil] at hcount hmatched
      refine ⟨by simp [hcount, hnil],by simp [hmatched, hnil],hread,fun before text hbefore hmatch _ => ?_⟩
      have hmem : text ∈ matching next target :=
        List.mem_filter.mpr ⟨hbefore.subset (by simp),hmatch⟩
      rw [hnil] at hmem
      cases hmem

theorem no_quota_counts_one :
    ¬ StopsAtQuota [.line "bot_0_msg_0"] "bot_0_msg_" 0
      (recvUntilCountWithTimeout [.line "bot_0_msg_0"] "bot_0_msg_" 0) := fun h =>
  absurd h.count (by decide)

end RustChat.RecvLoop
