import RustChat.LossCheck
import RustChat.MixedScenario

/-!
# The scenarios of a single mode

`run_single_scenario` from the name of its mode to its report. What the bots
meet is an input, and so is the order in which their tasks come to an end.
-/

set_option autoImplicit false

namespace RustChat.Scenario
open Fickle (BotType FickleResult)
open Protocol Ratio Allocation VoteIntegrity SnapshotPick LossCheck
open MixedScenario hiding Outcome
open Plurality (Iteration)

/-- What the normal bots and the spammers meet, how the tasks of the others
end, and the results of the fickle bots, by the ids of the bots. -/
structure Crew where
  chats : ℕ → Input
  ending : ℕ → MixedScenario.Outcome
  result : ℕ → FickleResult

/-- The arm of `match mode.as_str()`. The names are those of `from_str`. -/
def arm (mode : String) : Option BotType :=
  match fromStr mode with
  | .ok botType => some botType
  | .error _ => none

def outcome (serde : ServerMsg → String) (w : Crew) (mode : String) (msgPerBot id : ℕ) :
    MixedScenario.Outcome :=
  match arm mode with
  | some .normal | some .spammer => if (run serde id msgPerBot (w.chats id)).isSome then .ok else .err
  | some _ => w.ending id
  | none => .ok

def rtts (serde : ServerMsg → String) (w : Crew) (mode : String) (msgPerBot id : ℕ) : List ℕ :=
  match arm mode with
  | some .normal | some .spammer =>
    ((run serde id msgPerBot (w.chats id)).map LossCheck.Outcome.rtts).getD []
  | _ => []

def pushes (w : Crew) (mode : String) (id : ℕ) : Option FickleResult :=
  match arm mode,w.ending id with
  | some .fickle,.ok => some (w.result id)
  | _,_ => none

def joinHandles : List MixedScenario.Outcome → ℕ × ℕ → ℕ × ℕ
  | [], counts => counts
  | .ok::handles, (successCount,failureCount) => joinHandles handles (successCount+1,failureCount)
  | .err::handles, (successCount,failureCount) => joinHandles handles (successCount,failureCount+1)
  | .panic::handles, (successCount,failureCount) => joinHandles handles (successCount,failureCount+1)

/-- Why there is no report: the assertion of the loss check, or a fault. -/
inductive Stopped where
  | lost (expected received : ℕ)
  | fault (f : Fault)
  deriving DecidableEq, Repr

def checkLoss (count msgPerBot received : ℕ) : Except Stopped Unit :=
  if count*msgPerBot < u64Bound then
    if lossCheck count msgPerBot received then .ok () else .error (.lost (count*msgPerBot) received)
  else .error (.fault .overflow)

/-- The tasks push in the order in which they end. -/
def fickleResults (ended : Iteration ℕ) (w : Crew) (mode : String) (count : ℕ) : List FickleResult :=
  (ended.order (List.range count)).filterMap (pushes w mode)

def runSingleScenario (serde : ServerMsg → String) (it : Iteration (Sigma fun _ : Counts => ℕ))
    (ended : Iteration ℕ) (w : Crew) (mode : String) (count msgPerBot : ℕ) :
    Except Stopped ScenarioReport := do
  let (successCount,failureCount) :=
    joinHandles ((List.range count).map (outcome serde w mode msgPerBot)) (0,0)
  if mode = "normal" then
    checkLoss count msgPerBot (recvCounter serde msgPerBot w.chats (ended.order (List.range count)))
  let rttCounter := ((ended.order (List.range count)).flatMap (rtts serde w mode msgPerBot)).foldl
    RttCounter.record ⟨0,0⟩
  let integrity ←
    if mode = "fickle" then (voteIntegrity it (fickleResults ended w mode count)).mapError .fault
    else .ok none
  return ⟨mode,count,successCount,failureCount,rttCounter.average,integrity⟩

/-! ## The parts of the report -/

theorem joinHandles_eq (handles : List MixedScenario.Outcome) (successCount failureCount : ℕ) :
    joinHandles handles (successCount,failureCount) =
      (successCount+handles.count .ok,failureCount+(handles.length-handles.count .ok)) := by
  induction handles generalizing successCount failureCount with
  | nil => simp [joinHandles]
  | cons o handles ih =>
    have hle := List.count_le_length (a := MixedScenario.Outcome.ok) (l := handles)
    cases o <;> simp [joinHandles, ih] <;> omega

theorem record_fold (times : List ℕ) (c : RttCounter) (hs : c.sumMs < u64Bound) (hc : c.count < u64Bound) :
    times.foldl RttCounter.record c =
      ⟨(c.sumMs+times.sum)%u64Bound,(c.count+times.length)%u64Bound⟩ := by
  have hpos : 0 < u64Bound := Nat.lt_of_le_of_lt (Nat.zero_le _) hs
  induction times generalizing c with
  | nil => simp [Nat.mod_eq_of_lt hs, Nat.mod_eq_of_lt hc]
  | cons t times ih =>
    rw [List.foldl_cons, ih _ (Nat.mod_lt _ hpos) (Nat.mod_lt _ hpos), List.sum_cons, List.length_cons]
    simp only [RttCounter.record, Nat.mod_add_mod]
    rw [Nat.add_assoc, Nat.add_assoc, Nat.add_comm 1]

theorem average_eq (times : List ℕ) (hs : times.sum < u64Bound) (hc : times.length < u64Bound) :
    (times.foldl RttCounter.record ⟨0,0⟩).average =
      if times = [] then none else some (times.sum/times.length) := by
  have hpos : 0 < u64Bound := Nat.lt_of_le_of_lt (Nat.zero_le _) hs
  rw [record_fold times ⟨0,0⟩ hpos hpos, RttCounter.average]
  simp only [Nat.zero_add, Nat.mod_eq_of_lt hs, Nat.mod_eq_of_lt hc, List.length_eq_zero_iff]

def succeeded (serde : ServerMsg → String) (w : Crew) (mode : String) (count msgPerBot : ℕ) : ℕ :=
  (List.range count).countP fun id => outcome serde w mode msgPerBot id = .ok

theorem joinHandles_succeeded (serde : ServerMsg → String) (w : Crew) (mode : String)
    (count msgPerBot : ℕ) :
    joinHandles ((List.range count).map (outcome serde w mode msgPerBot)) (0,0) =
        (succeeded serde w mode count msgPerBot,count-succeeded serde w mode count msgPerBot) ∧
      succeeded serde w mode count msgPerBot ≤ count := by
  have hcount : ((List.range count).map (outcome serde w mode msgPerBot)).count .ok =
      succeeded serde w mode count msgPerBot := by
    rw [List.count_eq_countP, List.countP_map]
    exact List.countP_congr fun id _ => by simp
  have hle : succeeded serde w mode count msgPerBot ≤ count := by
    have h := List.countP_le_length (l := List.range count)
      (p := fun id => decide (outcome serde w mode msgPerBot id = .ok))
    rwa [List.length_range] at h
  rw [joinHandles_eq, hcount, List.length_map, List.length_range, Nat.zero_add, Nat.zero_add]
  exact ⟨rfl,hle⟩

theorem single_ok (serde : ServerMsg → String) (it : Iteration (Sigma fun _ : Counts => ℕ))
    (ended : Iteration ℕ) (w : Crew) (mode : String) (count msgPerBot : ℕ) (report : ScenarioReport) :
    runSingleScenario serde it ended w mode count msgPerBot = .ok report ↔
      (mode = "normal" → checkLoss count msgPerBot
        (recvCounter serde msgPerBot w.chats (ended.order (List.range count))) = .ok ()) ∧
      ∃ integrity,
        (if mode = "fickle" then voteIntegrity it (fickleResults ended w mode count) else .ok none) =
          .ok integrity ∧
        report = ⟨mode,count,succeeded serde w mode count msgPerBot,
          count-succeeded serde w mode count msgPerBot,
          (((ended.order (List.range count)).flatMap (rtts serde w mode msgPerBot)).foldl
            RttCounter.record ⟨0,0⟩).average,integrity⟩ := by
  rw [runSingleScenario, (joinHandles_succeeded serde w mode count msgPerBot).1]
  by_cases hn : mode = "normal"
  · cases hcheck : checkLoss count msgPerBot
        (recvCounter serde msgPerBot w.chats (ended.order (List.range count))) with
    | error e => simp [hn, bind, Except.bind]
    | ok u => simp [hn, bind, Except.bind, pure, Except.pure, eq_comm]
  · by_cases hf : mode = "fickle"
    · cases hv : voteIntegrity it (fickleResults ended w mode count) with
      | error e => simp [hf, bind, Except.bind, Except.mapError]
      | ok v => simp [hf, bind, Except.bind, Except.mapError, pure, Except.pure, eq_comm]
    · simp [hn, hf, bind, Except.bind, pure, Except.pure, eq_comm]

theorem pushes_isSome (serde : ServerMsg → String) (w : Crew) (msgPerBot id : ℕ) :
    (pushes w "fickle" id).isSome = decide (outcome serde w "fickle" msgPerBot id = .ok) := by
  have harm : arm "fickle" = some .fickle := rfl
  simp only [pushes, outcome, harm]
  cases w.ending id <;> rfl

theorem fickleResults_length (serde : ServerMsg → String) (ended : Iteration ℕ) (w : Crew)
    (count msgPerBot : ℕ) :
    (fickleResults ended w "fickle" count).length = succeeded serde w "fickle" count msgPerBot := by
  rw [fickleResults, List.length_filterMap_eq_countP, (ended.perm _).countP_eq, succeeded]
  exact List.countP_congr fun id _ => by rw [pushes_isSome serde w msgPerBot id]

def allRtts (serde : ServerMsg → String) (w : Crew) (mode : String) (count msgPerBot : ℕ) : List ℕ :=
  (List.range count).flatMap (rtts serde w mode msgPerBot)

theorem ended_average (serde : ServerMsg → String) (ended : Iteration ℕ) (w : Crew) (mode : String)
    (count msgPerBot : ℕ) (hs : (allRtts serde w mode count msgPerBot).sum < u64Bound)
    (hc : (allRtts serde w mode count msgPerBot).length < u64Bound) :
    (((ended.order (List.range count)).flatMap (rtts serde w mode msgPerBot)).foldl
        RttCounter.record ⟨0,0⟩).average =
      if allRtts serde w mode count msgPerBot = [] then none
      else some ((allRtts serde w mode count msgPerBot).sum/
        (allRtts serde w mode count msgPerBot).length) := by
  have hperm : ((ended.order (List.range count)).flatMap (rtts serde w mode msgPerBot)).Perm
      (allRtts serde w mode count msgPerBot) := (ended.perm _).flatMap_right _
  have hnil : (ended.order (List.range count)).flatMap (rtts serde w mode msgPerBot) = [] ↔
      allRtts serde w mode count msgPerBot = [] := by
    rw [← List.length_eq_zero_iff, hperm.length_eq, List.length_eq_zero_iff]
  rw [average_eq _ (by rwa [hperm.sum_eq]) (by rwa [hperm.length_eq]), hperm.sum_eq, hperm.length_eq]
  simp only [hnil]

theorem ownRead_ok (serde : ServerMsg → String) (w : Crew) (msgPerBot id seq : ℕ)
    (h : seq ∈ ownRead serde msgPerBot id (w.chats id)) : outcome serde w "normal" msgPerBot id = .ok := by
  have harm : arm "normal" = some .normal := rfl
  unfold ownRead at h
  simp only [outcome, harm]
  cases hrun : run serde id msgPerBot (w.chats id) with
  | none => simp [hrun] at h
  | some out => rfl

/-! ## The whole scenario -/

/-- What a report says of the bots. -/
structure Accounts (serde : ServerMsg → String) (w : Crew) (mode : String) (count msgPerBot : ℕ)
    (report : ScenarioReport) : Prop where
  name : report.mode = mode
  total : report.totalBots = count
  success : report.successCount = succeeded serde w mode count msgPerBot
  sum : report.successCount+report.failureCount = count
  verdict : report.voteIntegrity.isSome = true ↔ mode = "fickle" ∧ 0 < report.successCount
  fickle : ∀ v, report.voteIntegrity = some v → v.fickleCount = report.successCount
  rtt : (allRtts serde w mode count msgPerBot).sum < u64Bound →
    (allRtts serde w mode count msgPerBot).length < u64Bound →
    report.avgRttMs = if allRtts serde w mode count msgPerBot = [] then none
      else some ((allRtts serde w mode count msgPerBot).sum/(allRtts serde w mode count msgPerBot).length)

theorem single_accounts (serde : ServerMsg → String) (it : Iteration (Sigma fun _ : Counts => ℕ))
    (ended : Iteration ℕ) (w : Crew) (mode : String) (count msgPerBot : ℕ) (report : ScenarioReport)
    (h : runSingleScenario serde it ended w mode count msgPerBot = .ok report) :
    Accounts serde w mode count msgPerBot report := by
  obtain ⟨_,integrity,hint,rfl⟩ := (single_ok serde it ended w mode count msgPerBot report).mp h
  have hle := (joinHandles_succeeded serde w mode count msgPerBot).2
  refine ⟨rfl,rfl,rfl,by simp only; omega,?_,?_,fun hs hc =>
    ended_average serde ended w mode count msgPerBot hs hc⟩
  · by_cases hf : mode = "fickle"
    · subst hf
      rw [if_pos rfl] at hint
      have hcount := (voteIntegrity_count it _ integrity hint).1
      rw [fickleResults_length serde ended w count msgPerBot] at hcount
      simpa using hcount
    · rw [if_neg hf] at hint
      cases hint
      simp [hf]
  · intro v hv
    by_cases hf : mode = "fickle"
    · subst hf
      rw [if_pos rfl] at hint
      rw [(voteIntegrity_count it _ integrity hint).2 v hv,
        fickleResults_length serde ended w count msgPerBot]
    · rw [if_neg hf] at hint
      cases hint
      cases hv

theorem all_succeeded (serde : ServerMsg → String) (w : Crew) (mode : String) (count msgPerBot : ℕ)
    (h : ∀ id < count, outcome serde w mode msgPerBot id = .ok) :
    succeeded serde w mode count msgPerBot = count := by
  have hlen := List.countP_eq_length (l := List.range count)
    (p := fun id => decide (outcome serde w mode msgPerBot id = .ok))
  rw [List.length_range] at hlen
  exact hlen.mpr fun id hid => by simpa using h id (List.mem_range.mp hid)

/-- For every mode, any number of bots, whatever they meet and in whatever
order they end. A report accounts for every bot, and a mode of another name
fails none. In mode `normal` there is a report exactly if every bot has read
all of its own messages, so it shows no failure unless nothing was to be sent.
Apart from the loss check only a tie of snapshots that overflows can prevent a
report. -/
theorem single_scenario_accounts (serde : ServerMsg → String) (floats : Counts → List (List Char))
    (hdoc : ServerLine.Documented serde floats) (it : Iteration (Sigma fun _ : Counts => ℕ))
    (ended : Iteration ℕ) (w : Crew) (mode : String) (count msgPerBot : ℕ) :
    (∀ report, runSingleScenario serde it ended w mode count msgPerBot = .ok report →
      Accounts serde w mode count msgPerBot report ∧ (arm mode = none → report.failureCount = 0)) ∧
    (mode = "normal" → count*msgPerBot < u64Bound →
      (∀ id < count, EchoedOnce msgPerBot id (w.chats id).heard) →
      ((∃ report, runSingleScenario serde it ended w mode count msgPerBot = .ok report) ↔
        ∀ id < count, ∀ seq < msgPerBot, seq ∈ ownRead serde msgPerBot id (w.chats id)) ∧
      (0 < msgPerBot → ∀ report, runSingleScenario serde it ended w mode count msgPerBot = .ok report →
        report.failureCount = 0)) ∧
    (mode ≠ "normal" → TiesFit (fickleResults ended w mode count) →
      ∃ report, runSingleScenario serde it ended w mode count msgPerBot = .ok report) := by
  have hnone : (∀ id < count, outcome serde w mode msgPerBot id = .ok) → ∀ report,
      runSingleScenario serde it ended w mode count msgPerBot = .ok report → report.failureCount = 0 := by
    intro hok report hr
    have hacc := single_accounts serde it ended w mode count msgPerBot report hr
    have hsum := hacc.sum
    rw [hacc.success, all_succeeded serde w mode count msgPerBot hok] at hsum
    omega
  refine ⟨fun report hr => ?_,fun hn hfit honce => ?_,fun hn hties => ?_⟩
  · exact ⟨single_accounts serde it ended w mode count msgPerBot report hr,
      fun harm => hnone (fun id _ => by simp [outcome, harm]) report hr⟩
  · subst hn
    have hcheck : checkLoss count msgPerBot
          (recvCounter serde msgPerBot w.chats (ended.order (List.range count))) = .ok () ↔
        ∀ id < count, ∀ seq < msgPerBot, seq ∈ ownRead serde msgPerBot id (w.chats id) := by
      rw [← (loss_check_exact serde floats hdoc count msgPerBot hfit w.chats honce _ (ended.perm _)).2.2.2,
        checkLoss, if_pos hfit]
      split_ifs with hloss <;> simp [hloss]
    refine ⟨⟨?_,fun hread => ?_⟩,fun hpos report hr => hnone (fun id hid => ?_) report hr⟩
    · rintro ⟨report,hr⟩
      exact hcheck.mp (((single_ok serde it ended w _ count msgPerBot report).mp hr).1 rfl)
    · exact ⟨_,(single_ok serde it ended w _ count msgPerBot _).mpr
        ⟨fun _ => hcheck.mpr hread,none,if_neg (by decide),rfl⟩⟩
    · have hread := hcheck.mp (((single_ok serde it ended w _ count msgPerBot report).mp hr).1 rfl)
      exact ownRead_ok serde w msgPerBot id 0 (hread id hid 0 hpos)
  · have hint : ∃ integrity,
        (if mode = "fickle" then voteIntegrity it (fickleResults ended w mode count) else .ok none) =
          .ok integrity := by
      by_cases hf : mode = "fickle"
      · rw [if_pos hf]
        exact voteIntegrity_fits it _ hties
      · exact ⟨none,if_neg hf⟩
    obtain ⟨integrity,hint⟩ := hint
    exact ⟨_,(single_ok serde it ended w _ count msgPerBot _).mpr ⟨fun h => absurd h hn,integrity,hint,rfl⟩⟩

def twoNormal : Crew := ⟨twoBots,fun _ => .ok,fun _ => ⟨none,none⟩⟩

theorem two_bots_reported :
    ∃ report, runSingleScenario printed ⟨id,.refl⟩ ⟨List.reverse,List.reverse_perm⟩ twoNormal "normal" 2 1 =
        .ok report ∧ report.successCount+report.failureCount = 2 ∧ report.failureCount = 0 := by
  have honce : ∀ id < 2, EchoedOnce 1 id (twoNormal.chats id).heard := by
    unfold EchoedOnce
    decide
  obtain ⟨hacc,hnormal,_⟩ := single_scenario_accounts printed zeroPercentages printed_documented ⟨id,.refl⟩
    ⟨List.reverse,List.reverse_perm⟩ twoNormal "normal" 2 1
  obtain ⟨hiff,hzero⟩ := hnormal rfl (by decide) honce
  obtain ⟨report,hr⟩ := hiff.mpr (by decide +kernel)
  exact ⟨report,hr,(hacc report hr).1.sum,hzero Nat.one_pos report hr⟩

end RustChat.Scenario
