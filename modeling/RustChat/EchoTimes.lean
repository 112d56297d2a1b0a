import RustChat.LossCheck
import RustChat.Numeral

/-!
# Which message a line echoes

The number the bots read out of a line is the one its text was made with, so
the round trip of an echo is counted from the send of that very message.
-/

set_option autoImplicit false

namespace RustChat.EchoTimes
open Protocol Text Numeral ServerLine RecvLoop Allocation LossCheck

/-- `extract_seq` of the spammers, a copy of that of the normal bots. -/
def spammerExtractSeq (line target : String) : Option ℕ := extractSeq line target

/-- `spammer::run`, which does what `normal::run` does. -/
def spammerRun (serde : ServerMsg → String) (id msgCount : ℕ) (i : Input) : Option Outcome :=
  run serde id msgCount i

theorem extractSeq_chat (serde : ServerMsg → String) (percentages : Counts → List (List Char))
    (hdoc : Documented serde percentages) (id seq sender sentAt clientTs : ℕ) (hseq : seq < u64Bound) :
    extractSeq (serde (.chat sender none (chatText id seq) sentAt clientTs)) (target id) = some seq := by
  have hline := hdoc.line _ (heard_printable (.chat id seq sender sentAt clientTs))
  have htarget : (target id).toList = 'b'::("ot_".toList++decimal id++"_msg_".toList) := by
    rw [target_toList, show "bot_".toList = 'b'::"ot_".toList by decide]
    rfl
  have hafter : afterText sentAt clientTs = '\"'::(afterText sentAt clientTs).tail := rfl
  have hsplit : (serde (.chat sender none (chatText id seq) sentAt clientTs)).toList =
      beforeText sender++((target id).toList++(decimal seq++afterText sentAt clientTs)) := by
    rw [show serde (.chat sender none (chatText id seq) sentAt clientTs) =
      serde (Heard.chat id seq sender sentAt clientTs).msg from rfl, hline]
    simp only [Heard.msg, layout_chat, chatText_toList, target_toList, List.append_assoc]
  rw [extractSeq, hsplit, htarget, behind_first 'b' _ _ _ (not_mem_beforeText sender), Option.bind_some, hafter,
    takeWhile_decimal seq '\"' _ (by decide), parseUnsigned_decimal u64Bound seq hseq]

theorem extracted_echoes (serde : ServerMsg → String) (percentages : Counts → List (List Char))
    (hdoc : Documented serde percentages) (id : ℕ) (heard : List Heard)
    (hseq : ∀ seq ∈ echoes id heard, seq < u64Bound) :
    ((heard.map fun h => serde h.msg).filter fun text => contains text (target id)).map
        (fun line => extractSeq line (target id)) = (echoes id heard).map some := by
  induction heard with
  | nil => rfl
  | cons h heard ih =>
    have hcontains := contains_target serde percentages hdoc id h
    cases how : ownSeq id h with
    | none =>
      have hechoes : echoes id (h::heard) = echoes id heard := List.filterMap_cons_none how
      rw [hechoes] at hseq ⊢
      rw [List.map_cons, List.filter_cons_of_neg (by simp [hcontains, how])]
      exact ih hseq
    | some seq =>
      have hechoes : echoes id (h::heard) = seq::echoes id heard := List.filterMap_cons_some how
      rw [hechoes] at hseq ⊢
      obtain ⟨hfirst,hrest⟩ := List.forall_mem_cons.mp hseq
      rw [List.map_cons, List.filter_cons_of_pos (by simp [hcontains, how]), List.map_cons, List.map_cons,
        ih hrest]
      cases h with
      | chat bot number sender sentAt clientTs =>
        obtain ⟨rfl,rfl⟩ : bot = id ∧ number = seq := by simpa [ownSeq] using how
        exact congrArg (·::_) (extractSeq_chat serde percentages hdoc bot number sender sentAt clientTs hfirst)
      | welcome | presence | voteSnapshot | full => cases how

theorem matched_echoes (serde : ServerMsg → String) (percentages : Counts → List (List Char))
    (hdoc : Documented serde percentages) (id msgCount : ℕ) (i : Input)
    (hseq : ∀ seq ∈ echoes id i.heard, seq < u64Bound) (r : Received)
    (hr : r = recvUntilCountWithTimeout (arrivals serde i) (target id) msgCount) :
    r.matched.map (fun line => extractSeq line (target id)) = ((echoes id i.heard).take r.count).map some := by
  have hcount := recvLoop_count (target id) msgCount 0 (arrivals serde i)
  have hmatched := recvLoop_matched (target id) msgCount 0 (arrivals serde i)
  rw [recvUntilCountWithTimeout] at hr
  rw [← hr, Nat.zero_add] at hcount
  rw [← hr, arrived_arrivals] at hmatched
  have hextracted := extracted_echoes serde percentages hdoc id i.heard hseq
  have hmap : r.matched.map (fun line => extractSeq line (target id)) =
      ((echoes id i.heard).take (max (msgCount-0) 1)).map some := by
    rw [hmatched, List.map_take, hextracted, List.map_take]
  have hlen := congrArg List.length hmap
  rw [List.length_map, List.length_map, ← hcount, List.length_take] at hlen
  rw [hmap, hlen, ← List.take_eq_take_min]

theorem filterMap_zipIdx_bind {α β γ : Type} (lines : List α) (seqs : List β) (f : α → Option β)
    (g : ℕ → β → Option γ) (h : lines.map f = seqs.map some) :
    (lines.zipIdx.filterMap fun x => (f x.1).bind (g x.2)) = seqs.zipIdx.filterMap fun x => g x.2 x.1 := by
  have hzip : (lines.map f).zipIdx = (seqs.map some).zipIdx := by rw [h]
  rw [List.zipIdx_map, List.zipIdx_map] at hzip
  have hmap := congrArg (List.filterMap fun x => x.1.bind (g x.2)) hzip
  simpa [List.filterMap_map, Function.comp_def] using hmap

theorem sendLoop_isSome (id : ℕ) (i : Input) (seq left : ℕ) :
    (sendLoop id i seq left).isSome = true ↔ ∀ k, seq < k → k ≤ seq+left → i.fails k = false := by
  induction left generalizing seq with
  | zero =>
    simp only [sendLoop, Option.isSome_some, true_iff]
    intro k hlt hle
    omega
  | succ left ih =>
    cases hf : i.fails (seq+1) with
    | true =>
      simp only [sendLoop, hf, if_true, Option.isSome_none, Bool.false_eq_true, false_iff]
      exact fun hall => absurd (hall (seq+1) (by omega) (by omega)) (by simp [hf])
    | false =>
      simp only [sendLoop, hf, Bool.false_eq_true, if_false, Option.isSome_map, ih]
      constructor
      · intro hall k hlt hle
        rcases Nat.lt_or_ge (seq+1) k with hk | hk
        · exact hall k hk (by omega)
        · obtain rfl : k = seq+1 := by omega
          exact hf
      · exact fun hall k hlt hle => hall k (by omega) (by omega)

/-- A bot returns `Ok` exactly if neither the connect nor a send fails. -/
theorem run_isSome (serde : ServerMsg → String) (id msgCount : ℕ) (i : Input) :
    (run serde id msgCount i).isSome = true ↔ ∀ k ≤ msgCount, i.fails k = false := by
  cases hf : i.fails 0 with
  | true =>
    simp only [run, hf, if_true, Option.isSome_none, Bool.false_eq_true, false_iff]
    exact fun hall => absurd (hall 0 (Nat.zero_le _)) (by simp [hf])
  | false =>
    simp only [run, hf, Bool.false_eq_true, if_false, Option.isSome_map, sendLoop_isSome, Nat.zero_add]
    constructor
    · intro hall k hle
      rcases Nat.eq_zero_or_pos k with rfl | hk
      · exact hf
      · exact hall k hk hle
    · exact fun hall k _ hle => hall k hle

/-- A bot reads out of each echo the number of the message echoed, and counts
its round trip from the time stamped on that message and from no other. Both
kinds of bots come to that point exactly if they can connect and send. -/
theorem echo_paired_with_its_send (serde : ServerMsg → String) (percentages : Counts → List (List Char))
    (hdoc : Documented serde percentages) :
    (∀ id seq sender sentAt clientTs, seq < u64Bound →
      extractSeq (serde (.chat sender none (chatText id seq) sentAt clientTs)) (target id) = some seq ∧
      spammerExtractSeq (serde (.chat sender none (chatText id seq) sentAt clientTs)) (target id) = some seq) ∧
    (∀ id msgCount i,
      ((run serde id msgCount i).isSome = true ↔ ∀ k ≤ msgCount, i.fails k = false) ∧
      ((spammerRun serde id msgCount i).isSome = true ↔ ∀ k ≤ msgCount, i.fails k = false)) ∧
    ∀ id msgCount i outcome, (∀ seq ∈ echoes id i.heard, seq < u64Bound) →
      run serde id msgCount i = some outcome ∨ spammerRun serde id msgCount i = some outcome →
      outcome.sent = (List.range msgCount).map (fun k => .chat (chatText id k) (i.sentAt k)) ∧
      outcome.rtts = ((echoes id i.heard).take outcome.received.count).zipIdx.filterMap fun x =>
        if x.1 < msgCount ∧ i.sentAt x.1 ≤ i.matchedAt x.2 then some (i.matchedAt x.2-i.sentAt x.1)
        else none := by
  refine ⟨fun id seq sender sentAt clientTs hseq => ?_,fun id msgCount i => ?_,
    fun id msgCount i outcome hseq hrun => ?_⟩
  · have hchat := extractSeq_chat serde percentages hdoc id seq sender sentAt clientTs hseq
    exact ⟨hchat,hchat⟩
  · exact ⟨run_isSome serde id msgCount i,run_isSome serde id msgCount i⟩
  · have hnormal : run serde id msgCount i = some outcome := hrun.elim (fun h => h) (fun h => h)
    simp only [run] at hnormal
    split_ifs at hnormal
    obtain ⟨sent,hsent,rfl⟩ := Option.map_eq_some_iff.mp hnormal
    refine ⟨?_,?_⟩
    · rw [sendLoop_texts id i 0 msgCount sent hsent, List.range_eq_range']
    · have hpairs := filterMap_zipIdx_bind _ _ (fun line => extractSeq line (target id))
        (fun j seq => (((List.range msgCount).map i.sentAt)[seq]?).bind fun sendTs =>
          if sendTs ≤ i.matchedAt j then some (i.matchedAt j-sendTs) else none)
        (matched_echoes serde percentages hdoc id msgCount i hseq _ rfl)
      refine hpairs.trans (List.filterMap_congr fun x _ => ?_)
      rw [List.getElem?_map]
      by_cases hx : x.1 < msgCount
      · rw [List.getElem?_range hx]
        simp [hx]
      · rw [List.getElem?_eq_none (by simpa using hx)]
        simp [hx]

def crossed : Input :=
  ⟨fun _ => false,fun seq => 10*seq+5,fun _ => 100,[.chat 12 1 3 7 0,.chat 1 0 3 7 0,.chat 12 0 3 8 0],.timeout⟩

def crossedOutcome : Outcome := (run printed 12 2 crossed).get (by decide +kernel)

def crossedSpam : Outcome := (spammerRun printed 12 2 crossed).get (by decide +kernel)

theorem crossed_echoes_paired :
    (spammerRun printed 12 2 crossed).isSome = true ∧ crossedOutcome.rtts = [85,95] ∧
      crossedSpam.rtts = [85,95] := by
  obtain ⟨_,hok,hpaired⟩ := echo_paired_with_its_send printed zeroPercentages printed_documented
  have hnormal := hpaired 12 2 crossed crossedOutcome (by decide) (Or.inl (Option.some_get _).symm)
  have hspam := hpaired 12 2 crossed crossedSpam (by decide) (Or.inr (Option.some_get _).symm)
  refine ⟨(hok 12 2 crossed).2.mpr fun _ _ => rfl,?_,?_⟩
  · rw [hnormal.2]
    decide +kernel
  · rw [hspam.2]
    decide +kernel

end RustChat.EchoTimes
