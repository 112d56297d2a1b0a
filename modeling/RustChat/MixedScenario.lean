import RustChat.SnapshotPick

/-!
# The mixed scenario

`run_mixed_scenario` from the ratio to its report. What the bots do is an
input: how each task ends, what it returns, the round trips it records and the
order in which the tasks come to their end.
-/

set_option autoImplicit false

namespace RustChat.MixedScenario
open Fickle (BotType FickleResult fickleCount)
open Ratio Allocation VoteIntegrity SnapshotPick
open Plurality (Iteration)

structure Task where
  id : ℕ
  botType : BotType
  deriving DecidableEq, Repr

def spawnType (botType : BotType) : ℕ → ℕ × List Task → ℕ × List Task
  | 0, s => s
  | n+1, (botId,handles) => spawnType botType n (botId+1,handles++[⟨botId,botType⟩])

def spawnAll : List (BotType × ℕ) → ℕ × List Task → ℕ × List Task
  | [], s => s
  | (botType,n)::allocation, s => spawnAll allocation (spawnType botType n s)

inductive Outcome where
  | ok
  | err
  | panic
  deriving DecidableEq, Repr

/-- What the bots do, by their ids. The results are those of fickle bots. -/
structure Bots where
  outcome : ℕ → Outcome
  result : ℕ → FickleResult
  rtts : ℕ → List ℕ

structure RttCounter where
  sumMs : ℕ
  count : ℕ
  deriving DecidableEq, Repr

/-- Both `fetch_add` wrap around. -/
def RttCounter.record (c : RttCounter) (rttMs : ℕ) : RttCounter :=
  ⟨(c.sumMs+rttMs)%u64Bound,(c.count+1)%u64Bound⟩

def RttCounter.average (c : RttCounter) : Option ℕ := if c.count = 0 then none else some (c.sumMs/c.count)

/-- What a task pushes to `fickle_results`. -/
def pushed (w : Bots) (task : Task) : Option FickleResult :=
  match task.botType,w.outcome task.id with
  | .fickle,.ok => some (w.result task.id)
  | _,_ => none

def joinAll (w : Bots) : List Task → ℕ × ℕ → ℕ × ℕ
  | [], counts => counts
  | task::handles, (successCount,failureCount) =>
    match w.outcome task.id with
    | .ok => joinAll w handles (successCount+1,failureCount)
    | .err | .panic => joinAll w handles (successCount,failureCount+1)

/-- The time elapsed is left out. -/
structure ScenarioReport where
  mode : String
  totalBots : ℕ
  successCount : ℕ
  failureCount : ℕ
  avgRttMs : Option ℕ
  voteIntegrity : Option VoteIntegrityResult
  deriving DecidableEq

/-- Why there is no report: an error returned, or a panic. -/
inductive Failure where
  | invalidRatio (msg : String)
  | unwrapped (msg : String)
  | fault (f : Fault)
  deriving DecidableEq, Repr

def ratioSpec : Option String → Except Failure RatioSpec
  | some r => (parse r).mapError fun e => .invalidRatio ("유효하지 않은 ratio: "++e)
  | none => (parse defaultRatio).mapError .unwrapped

structure Launched where
  allocation : List (BotType × ℕ)
  barrierSize : ℕ
  handles : List Task
  deriving DecidableEq, Repr

/-- Up to the loop over the handles. -/
def launch (count : ℕ) (ratio : Option String) : Except Failure Launched := do
  let spec ← ratioSpec ratio
  let allocation ← (allocate count spec).mapError .fault
  return ⟨allocation,max (fickleCount allocation) 1,(spawnAll allocation (0,[])).2⟩

/-- The tasks push in the order in which they end. -/
def fickleResults (ended : Iteration Task) (w : Bots) (handles : List Task) : List FickleResult :=
  (ended.order handles).filterMap (pushed w)

def runMixedScenario (it : Iteration (Sigma fun _ : Protocol.Counts => ℕ)) (ended : Iteration Task) (w : Bots)
    (count : ℕ) (ratio : Option String) : Except Failure ScenarioReport := do
  let launched ← launch count ratio
  let (successCount,failureCount) := joinAll w launched.handles (0,0)
  let rttCounter := ((ended.order launched.handles).flatMap fun task => w.rtts task.id).foldl
    RttCounter.record ⟨0,0⟩
  let integrity ← (voteIntegrity it (fickleResults ended w launched.handles)).mapError .fault
  return ⟨"mixed",count,successCount,failureCount,rttCounter.average,integrity⟩

/-! ## The tasks -/

theorem spawnType_eq (botType : BotType) (n botId : ℕ) (handles : List Task) :
    spawnType botType n (botId,handles) =
      (botId+n,handles++(List.range' botId n).map fun id => ⟨id,botType⟩) := by
  induction n generalizing botId handles with
  | zero => simp [spawnType]
  | succ n ih =>
    rw [spawnType, ih, List.range'_succ, List.map_cons, Prod.mk.injEq]
    exact ⟨by omega,by simp⟩

theorem spawnAll_tasks (allocation : List (BotType × ℕ)) (botId : ℕ) (handles : List Task) :
    (spawnAll allocation (botId,handles)).2.map Task.id =
        handles.map Task.id++List.range' botId (allocation.map Prod.snd).sum ∧
      (spawnAll allocation (botId,handles)).2.map Task.botType =
        handles.map Task.botType++allocation.flatMap fun x => List.replicate x.2 x.1 := by
  induction allocation generalizing botId handles with
  | nil => simp [spawnAll]
  | cons x allocation ih =>
    obtain ⟨botType,n⟩ := x
    rw [spawnAll, spawnType_eq]
    obtain ⟨hids,htypes⟩ := ih (botId+n) (handles++(List.range' botId n).map fun id => ⟨id,botType⟩)
    rw [hids, htypes]
    constructor
    · rw [List.map_append, List.map_map, show Task.id ∘ (fun id => Task.mk id botType) = id from rfl,
        List.map_id, List.append_assoc, List.map_cons, List.sum_cons, ← List.range'_append_1]
    · rw [List.map_append, List.map_map, List.flatMap_cons, List.append_assoc]
      simp [Function.comp_def, List.map_const']

/-! ## The report -/

theorem joinAll_eq (w : Bots) (handles : List Task) (successCount failureCount : ℕ) :
    (joinAll w handles (successCount,failureCount)).1 =
        successCount+handles.countP (fun task => w.outcome task.id = .ok) ∧
      (joinAll w handles (successCount,failureCount)).1+(joinAll w handles (successCount,failureCount)).2 =
        successCount+failureCount+handles.length := by
  induction handles generalizing successCount failureCount with
  | nil => simp [joinAll]
  | cons task handles ih =>
    rw [joinAll]
    cases ho : w.outcome task.id with
    | ok =>
      obtain ⟨hok,hall⟩ := ih (successCount+1) failureCount
      rw [hall, hok, List.countP_cons_of_pos (by simp [ho]), List.length_cons]
      omega
    | err | panic =>
      obtain ⟨hok,hall⟩ := ih successCount (failureCount+1)
      rw [hall, hok, List.countP_cons_of_neg (by simp [ho]), List.length_cons]
      omega

def fickleOk (w : Bots) (task : Task) : Bool :=
  decide (task.botType = .fickle) && decide (w.outcome task.id = .ok)

theorem pushed_isSome (w : Bots) (task : Task) : (pushed w task).isSome = fickleOk w task := by
  unfold pushed fickleOk
  cases task.botType <;> cases w.outcome task.id <;> rfl

theorem fickleResults_length (ended : Iteration Task) (w : Bots) (handles : List Task) :
    (fickleResults ended w handles).length = handles.countP (fickleOk w) := by
  rw [fickleResults, List.length_filterMap_eq_countP, (ended.perm handles).countP_eq]
  exact List.countP_congr fun task _ => by rw [pushed_isSome]

theorem voteIntegrity_count (it : Iteration (Sigma fun _ : Protocol.Counts => ℕ))
    (results : List FickleResult) (verdict : Option VoteIntegrityResult)
    (h : voteIntegrity it results = .ok verdict) :
    (verdict.isSome = true ↔ 0 < results.length) ∧
      ∀ v, verdict = some v → v.fickleCount = results.length := by
  unfold voteIntegrity at h
  split_ifs at h with hnil
  · cases h
    simp [hnil]
  · cases hp : pickActualSnapshot it results with
    | error f => simp [hp, bind, Except.bind] at h
    | ok actual =>
      simp only [hp, bind, Except.bind] at h
      obtain rfl := Except.ok.inj h
      refine ⟨by simpa using List.length_pos_iff.mpr hnil,fun v hv => ?_⟩
      cases hv
      rfl

theorem voteIntegrity_fits (it : Iteration (Sigma fun _ : Protocol.Counts => ℕ))
    (results : List FickleResult) (hfit : TiesFit results) :
    ∃ verdict, voteIntegrity it results = .ok verdict := by
  by_cases hsome : ∃ r ∈ results, r.lastSnapshot ≠ none
  · obtain ⟨actual,hpick,_⟩ := pick_leading it results hfit hsome
    exact ⟨_,voteIntegrity_pick it results actual hpick⟩
  · push Not at hsome
    exact ⟨_,voteIntegrity_pick it results _ (pick_none it results hsome)⟩

theorem ratioSpec_accepted (ratio : Option String) (spec : RatioSpec) (h : ratioSpec ratio = .ok spec) :
    spec.entries ≠ [] ∧ ∀ entry ∈ spec.entries, 1 ≤ entry.2 := by
  have haccepted : ∃ s, parse s = .ok spec := by
    cases ratio with
    | none =>
      refine ⟨defaultRatio,?_⟩
      cases hp : parse defaultRatio with
      | error e => simp [ratioSpec, hp, Except.mapError] at h
      | ok found => simpa [ratioSpec, hp, Except.mapError] using h
    | some s =>
      refine ⟨s,?_⟩
      cases hp : parse s with
      | error e => simp [ratioSpec, hp, Except.mapError] at h
      | ok found => simpa [ratioSpec, hp, Except.mapError] using h
  obtain ⟨s,hs⟩ := haccepted
  obtain ⟨hne,hrange⟩ := parse_accepted s spec hs
  exact ⟨hne,fun entry hentry => (hrange entry hentry).1⟩

/-! ## The whole scenario -/

theorem launch_eq (count : ℕ) (ratio : Option String) (spec : RatioSpec) (h : ratioSpec ratio = .ok spec)
    (hover : allocate count spec ≠ .error .overflow) :
    ∃ allocation, launch count ratio =
        .ok ⟨allocation,max (fickleCount allocation) 1,(spawnAll allocation (0,[])).2⟩ ∧
      allocation.map Prod.fst = spec.entries.map Prod.fst ∧ (allocation.map Prod.snd).sum = count := by
  obtain ⟨hne,hpos⟩ := ratioSpec_accepted ratio spec h
  obtain ⟨hsum,hprod⟩ := (allocate_fits_or_overflows count spec.entries hne hpos).resolve_right hover
  obtain ⟨allocation,hok,htotal,hget⟩ := allocate_eq count spec.entries hne hpos hsum hprod
  refine ⟨allocation,?_,List.ext_getElem? fun i => ?_,htotal⟩
  · simp only [launch, h, hok, bind, Except.bind, Except.mapError]
    rfl
  · rw [List.getElem?_map, hget i, List.getElem?_map]
    cases spec.entries[i]? <;> rfl

/-- What a report says of the bots. -/
structure Accounts (w : Bots) (handles : List Task) (count : ℕ) (report : ScenarioReport) : Prop where
  total : report.totalBots = count
  sum : report.successCount+report.failureCount = report.totalBots
  success : report.successCount = handles.countP fun task => w.outcome task.id = .ok
  present : report.voteIntegrity.isSome = true ↔ ∃ task ∈ handles, fickleOk w task = true
  fickle : ∀ v, report.voteIntegrity = some v → v.fickleCount = handles.countP (fickleOk w)

theorem report_accounts (it : Iteration (Sigma fun _ : Protocol.Counts => ℕ)) (ended : Iteration Task)
    (w : Bots) (count : ℕ) (ratio : Option String) (launched : Launched)
    (hlaunch : launch count ratio = .ok launched) (hlen : launched.handles.length = count)
    (report : ScenarioReport) (h : runMixedScenario it ended w count ratio = .ok report) :
    Accounts w launched.handles count report := by
  simp only [runMixedScenario, hlaunch, bind, Except.bind] at h
  have hcount := fickleResults_length ended w launched.handles
  obtain ⟨hok,hall⟩ := joinAll_eq w launched.handles 0 0
  cases hv : voteIntegrity it (fickleResults ended w launched.handles) with
  | error f => simp [hv, Except.mapError] at h
  | ok verdict =>
    simp only [hv, Except.mapError] at h
    obtain rfl := Except.ok.inj h
    obtain ⟨hsome,hfickle⟩ := voteIntegrity_count it _ verdict hv
    rw [hcount] at hsome hfickle
    exact {
      total := rfl
      sum := by rw [hall, hlen, Nat.zero_add]
      success := by rw [hok, Nat.zero_add]
      present := hsome.trans List.countP_pos_iff
      fickle := hfickle }

/-- For every count, every accepted ratio that can be allocated and every way
the tasks can end: the bots get the ids from zero on, each once, in groups that
follow the entries; the barrier waits for as many as there are fickle bots; and
the report accounts for every bot. There is a report unless a tie between
snapshots overflows. -/
theorem mixed_scenario_accounts (it : Iteration (Sigma fun _ : Protocol.Counts => ℕ))
    (ended : Iteration Task) (w : Bots) (count : ℕ) (ratio : Option String) (spec : RatioSpec)
    (h : ratioSpec ratio = .ok spec) (hover : allocate count spec ≠ .error .overflow) :
    ∃ launched, launch count ratio = .ok launched ∧
      launched.handles.map Task.id = List.range count ∧
      launched.allocation.map Prod.fst = spec.entries.map Prod.fst ∧
      launched.handles.map Task.botType = (launched.allocation.flatMap fun x => List.replicate x.2 x.1) ∧
      (0 < (launched.handles.countP fun task => task.botType = .fickle) →
        (launched.handles.countP fun task => task.botType = .fickle) = launched.barrierSize) ∧
      (∀ report, runMixedScenario it ended w count ratio = .ok report →
        Accounts w launched.handles count report) ∧
      (TiesFit (fickleResults ended w launched.handles) →
        ∃ report, runMixedScenario it ended w count ratio = .ok report) := by
  obtain ⟨allocation,hlaunch,hfst,htotal⟩ := launch_eq count ratio spec h hover
  obtain ⟨hids,htypes⟩ := spawnAll_tasks allocation 0 []
  rw [htotal, List.map_nil, List.nil_append, ← List.range_eq_range'] at hids
  rw [List.map_nil, List.nil_append] at htypes
  have hlen : (spawnAll allocation (0,[])).2.length = count := by
    rw [← List.length_map (f := Task.id), hids, List.length_range]
  have hfickle : (spawnAll allocation (0,[])).2.countP (fun task => decide (task.botType = .fickle)) =
      fickleCount allocation := by
    rw [← Fickle.count_fickle, ← htypes, List.count, List.countP_map]
    exact List.countP_congr fun task _ => by simp
  refine ⟨_,hlaunch,hids,hfst,htypes,fun hpos => ?_,
    report_accounts it ended w count ratio _ hlaunch hlen,fun hfit => ?_⟩
  · rw [hfickle] at hpos ⊢
    exact (Nat.max_eq_left hpos).symm
  · obtain ⟨verdict,hv⟩ := voteIntegrity_fits it _ hfit
    simp only [runMixedScenario, hlaunch, bind, Except.bind, hv, Except.mapError]
    exact ⟨_,rfl⟩

def oneFailsOnePanics : Bots where
  outcome id := if id = 2 then .err else if id = 3 then .panic else .ok
  result _ := ⟨some 1,some ![0,2,0,0]⟩
  rtts id := [id]

theorem five_bots_accounted :
    ∃ report, runMixedScenario ⟨id,.refl⟩ ⟨List.reverse,List.reverse_perm⟩ oneFailsOnePanics 5
        (some "fickle:1, normal:2,fickle:1") = .ok report ∧
      report.successCount = 3 ∧ report.successCount+report.failureCount = 5 := by
  obtain ⟨launched,hlaunch,_,_,_,_,haccounts,hreport⟩ := mixed_scenario_accounts ⟨id,.refl⟩
    ⟨List.reverse,List.reverse_perm⟩ oneFailsOnePanics 5 (some "fickle:1, normal:2,fickle:1")
    ⟨[(.fickle,1),(.normal,2),(.fickle,1)]⟩ (by decide) (by decide)
  obtain ⟨report,hrun⟩ := hreport <| sumsFit_ties _ fun r hr s hs => by
    obtain ⟨task,_,hpushed⟩ := List.mem_filterMap.mp hr
    unfold pushed at hpushed
    split at hpushed
    · cases hpushed
      cases hs
      decide
    · cases hpushed
  have hacc := haccounts report hrun
  have hlaunched : launch 5 (some "fickle:1, normal:2,fickle:1") =
      .ok ⟨[(.fickle,1),(.normal,3),(.fickle,1)],2,
        [⟨0,.fickle⟩,⟨1,.normal⟩,⟨2,.normal⟩,⟨3,.normal⟩,⟨4,.fickle⟩]⟩ := by decide
  obtain rfl := Except.ok.inj (hlaunched.symm.trans hlaunch)
  exact ⟨report,hrun,hacc.success.trans (by decide),hacc.sum.trans hacc.total⟩

end RustChat.MixedScenario
