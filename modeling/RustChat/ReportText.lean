import RustChat.MixedScenario
import RustChat.Numeral

/-!
# The text of a report

`Display` of a `ScenarioReport`, and the parser the tests of the repository
read it with. The seconds elapsed are a text here: they are a float, printed
with two digits.
-/

set_option autoImplicit false

namespace RustChat.ReportText
open Protocol Text Numeral Allocation SnapshotPick MixedScenario

/-! ## Printing -/

/-- `{:?}` of an array of counts. -/
def debugCounts (counts : Counts) : List Char :=
  "[".toList++(List.intercalate ", ".toList ((List.ofFn counts).map decimal)++"]".toList)

def rttText : Option ℕ → List Char
  | some ms => decimal ms++"ms".toList
  | none => "N/A".toList

def integrityText : Option VoteIntegrityResult → List Char
  | some vi => (if vi.passed then "PASS" else "FAIL").toList++" (expected=".toList++
      debugCounts vi.expected++", actual=".toList++debugCounts vi.actual++
      ", fickle_bots=".toList++decimal vi.fickleCount++")".toList
  | none => "N/A".toList

def reportLines (r : ScenarioReport) (elapsedSecs : List Char) : List (List Char) :=
  ["=== Scenario Report ===".toList,
   "mode: ".toList++r.mode.toList,
   "total_bots: ".toList++decimal r.totalBots,
   "success: ".toList++decimal r.successCount,
   "failure: ".toList++decimal r.failureCount,
   "elapsed: ".toList++(elapsedSecs++"s".toList),
   "avg_rtt: ".toList++rttText r.avgRttMs,
   "vote_integrity: ".toList++integrityText r.voteIntegrity]

def display (r : ScenarioReport) (elapsedSecs : List Char) : String :=
  String.ofList (['\n'].intercalate (reportLines r elapsedSecs))

/-! ## Reading -/

/-- One carriage return less at the end. -/
def stripCr (line : List Char) : List Char := if line.getLast? = some '\r' then line.dropLast else line

/-- `str::lines`: a carriage return before a line break is part of it, and
nothing after the last one is no line. -/
def lines (s : String) : List (List Char) :=
  let parts := s.toList.splitOn '\n'
  parts.dropLast.map stripCr++parts.getLast?.toList.filter (· ≠ [])

/-- The variables of `parse_report_display`. -/
structure Fields where
  mode : Option (List Char)
  totalBots : Option ℕ
  success : Option ℕ
  failure : Option ℕ
  elapsed : Option (List Char)
  avgRtt : Option (List Char)
  deriving DecidableEq

/-- `if let Some(v) = line.strip_prefix(start)`. -/
def ifPrefix (start line : List Char) (yes : List Char → Option Fields) (no : Option Fields) :
    Option Fields :=
  match stripPrefix start line with
  | some v => yes v
  | none => no

/-- One round of the loop, left at a number that does not parse. -/
def readLine (f : Fields) (line : List Char) : Option Fields :=
  ifPrefix "mode: ".toList line (fun v => some { f with mode := some v }) <|
  ifPrefix "total_bots: ".toList line
    (fun v => (parseUnsigned u64Bound v).map fun n => { f with totalBots := some n }) <|
  ifPrefix "success: ".toList line
    (fun v => (parseUnsigned u64Bound v).map fun n => { f with success := some n }) <|
  ifPrefix "failure: ".toList line
    (fun v => (parseUnsigned u64Bound v).map fun n => { f with failure := some n }) <|
  ifPrefix "elapsed: ".toList line (fun v => some { f with elapsed := some v }) <|
  ifPrefix "avg_rtt: ".toList line (fun v => some { f with avgRtt := some v }) (some f)

def readLines : Fields → List (List Char) → Option Fields
  | f, [] => some f
  | f, line::rest => (readLine f line).bind fun f => readLines f rest

structure Parsed where
  mode : List Char
  totalBots : ℕ
  success : ℕ
  failure : ℕ
  elapsed : List Char
  avgRtt : List Char
  deriving DecidableEq

def parseReportDisplay (s : String) : Option Parsed := do
  let f ← readLines ⟨none,none,none,none,none,none⟩ (lines s)
  return ⟨← f.mode,← f.totalBots,← f.success,← f.failure,← f.elapsed,← f.avgRtt⟩

/-! ## Lines -/

theorem stripCr_of_ne (line : List Char) (h : line.getLast? ≠ some '\r') : stripCr line = line := if_neg h

theorem stripCr_eq_self (line : List Char) : stripCr line = line ↔ line.getLast? ≠ some '\r' := by
  refine ⟨fun h hlast => ?_,stripCr_of_ne line⟩
  rw [stripCr, if_pos hlast] at h
  have hlen := congrArg List.length h
  have hpos : line ≠ [] := by
    rintro rfl
    cases hlast
  have := List.length_pos_of_ne_nil hpos
  rw [List.length_dropLast] at hlen
  omega

theorem stripCr_append (start line : List Char) (h : start.getLast? ≠ some '\r') :
    stripCr (start++line) = start++stripCr line := by
  rcases List.eq_nil_or_concat' line with rfl | ⟨before,c,rfl⟩
  · simp [stripCr, h]
  · have hlast : ∀ s : List Char, (s++[c]).getLast? = some c := fun s => by simp
    rw [← List.append_assoc, stripCr, stripCr, hlast, hlast]
    split_ifs
    · rw [List.dropLast_concat, List.dropLast_concat]
    · rw [List.append_assoc]

theorem stripCr_subset (line : List Char) : stripCr line ⊆ line := by
  unfold stripCr
  split_ifs
  · exact List.dropLast_subset line
  · exact List.Subset.refl _

theorem splitOn_without (c : Char) (cs part : List Char) (h : part ∈ cs.splitOn c) : c ∉ part := by
  induction cs generalizing part with
  | nil =>
    obtain rfl : part = [] := by simpa [List.splitOn_nil] using h
    simp
  | cons x cs ih =>
    rw [List.splitOn_cons_eq_if_modifyHead] at h
    split_ifs at h with hx
    · rcases List.mem_cons.mp h with rfl | h
      · simp
      · exact ih part h
    · cases hs : cs.splitOn c with
      | nil => exact absurd hs (List.splitOn_ne_nil c cs)
      | cons first rest =>
        rw [hs, List.modifyHead_cons] at h
        rcases List.mem_cons.mp h with rfl | h
        · have hfirst := ih first (by simp [hs])
          have hne : c ≠ x := fun heq => hx (by simp [heq])
          simp [hfirst, hne]
        · exact ih part (by simp [hs, h])

theorem lines_unbroken (s : String) (line : List Char) (h : line ∈ lines s) : '\n' ∉ line := by
  have hparts := splitOn_without '\n' s.toList
  rcases List.mem_append.mp h with h | h
  · obtain ⟨part,hpart,rfl⟩ := List.mem_map.mp h
    exact fun hm => hparts part (List.dropLast_subset _ hpart) (stripCr_subset part hm)
  · have hlast := (List.mem_filter.mp h).1
    exact hparts line (List.mem_of_getLast? (Option.mem_toList.mp hlast))

theorem lines_intercalate (before : List (List Char)) (last : List Char) (hne : last ≠ [])
    (h : ∀ line ∈ before++[last], '\n' ∉ line) :
    lines (String.ofList (['\n'].intercalate (before++[last]))) = before.map stripCr++[last] := by
  rw [lines, String.toList_ofList, List.splitOn_intercalate '\n' h (by simp)]
  simp [hne]

/-! ## The fields -/

theorem stripPrefix_nil (line : List Char) : stripPrefix [] line = some line := stripPrefix_append [] line

theorem stripPrefix_cons (c d : Char) (start line : List Char) :
    stripPrefix (c::start) (d::line) = if c = d then stripPrefix start line else none := by
  simp [stripPrefix, List.cons_prefix_cons, ← ite_and]

theorem ifPrefix_induction (P : Option Fields → Prop) (start line : List Char)
    (yes : List Char → Option Fields) (no : Option Fields) (hyes : ∀ v, v ⊆ line → P (yes v)) (hno : P no) :
    P (ifPrefix start line yes no) := by
  unfold ifPrefix stripPrefix
  split_ifs
  · exact hyes _ (List.drop_subset _ _)
  · exact hno

/-- What a line leaves of the mode. -/
def ModeFrom (f : Fields) (line : List Char) (read : Option Fields) : Prop :=
  ∀ g, read = some g → g.mode = f.mode ∨ ∃ v, g.mode = some v ∧ v ⊆ line

theorem readLine_modeFrom (f : Fields) (line : List Char) : ModeFrom f line (readLine f line) := by
  have hsame : ∀ (update : ℕ → Fields), (∀ n, (update n).mode = f.mode) → ∀ v : List Char,
      ModeFrom f line ((parseUnsigned u64Bound v).map update) := by
    rintro update hmode v g hg
    obtain ⟨n,-,rfl⟩ := Option.map_eq_some_iff.mp hg
    exact Or.inl (hmode n)
  have hkept : ∀ g : Fields, g.mode = f.mode → ModeFrom f line (some g) := by
    rintro g hmode _ ⟨⟩
    exact Or.inl hmode
  refine ifPrefix_induction _ _ _ _ _ (fun v hv => ?_) <|
    ifPrefix_induction _ _ _ _ _ (fun v _ => hsame (fun n => { f with totalBots := some n }) (by simp) v) <|
    ifPrefix_induction _ _ _ _ _ (fun v _ => hsame (fun n => { f with success := some n }) (by simp) v) <|
    ifPrefix_induction _ _ _ _ _ (fun v _ => hsame (fun n => { f with failure := some n }) (by simp) v) <|
    ifPrefix_induction _ _ _ _ _ (fun v _ => hkept _ rfl) <|
    ifPrefix_induction _ _ _ _ _ (fun v _ => hkept _ rfl) (hkept f rfl)
  rintro _ ⟨⟩
  exact Or.inr ⟨v,rfl,hv⟩

theorem readLines_mode (f g : Fields) (ls : List (List Char)) (hf : ∀ m, f.mode = some m → '\n' ∉ m)
    (hls : ∀ line ∈ ls, '\n' ∉ line) (h : readLines f ls = some g) (m : List Char) (hm : g.mode = some m) :
    '\n' ∉ m := by
  induction ls generalizing f with
  | nil =>
    obtain rfl := Option.some.inj h
    exact hf m hm
  | cons line ls ih =>
    obtain ⟨f',hread,h⟩ := Option.bind_eq_some_iff.mp h
    refine ih f' (fun m' hm' => ?_) (fun l hl => hls l (List.mem_cons_of_mem _ hl)) h
    rcases readLine_modeFrom f line f' hread with hsame | ⟨v,hv,hsub⟩
    · exact hf m' (hsame ▸ hm')
    · obtain rfl : v = m' := Option.some.inj (hv.symm.trans hm')
      exact fun hmem => hls line List.mem_cons_self (hsub hmem)

/-- One line each: the title and the integrity leave the fields alone. -/
theorem readLines_report (mode elapsed rtt integrity : List Char) (total success failure : ℕ)
    (htotal : total < u64Bound) (hsuccess : success < u64Bound) (hfailure : failure < u64Bound) :
    readLines ⟨none,none,none,none,none,none⟩
      ["=== Scenario Report ===".toList, "mode: ".toList++mode, "total_bots: ".toList++decimal total,
        "success: ".toList++decimal success, "failure: ".toList++decimal failure,
        "elapsed: ".toList++elapsed, "avg_rtt: ".toList++rtt, "vote_integrity: ".toList++integrity] =
      some ⟨some mode,some total,some success,some failure,some elapsed,some rtt⟩ := by
  simp [readLines, readLine, ifPrefix, stripPrefix_nil, stripPrefix_cons, parseUnsigned_decimal,
    htotal, hsuccess, hfailure]

/-! ## The text of the fields -/

/-- No line ends in it, nor does it end one. -/
def Inline (cs : List Char) : Prop := ∀ c ∈ cs, c ≠ '\n' ∧ c ≠ '\r'

instance (cs : List Char) : Decidable (Inline cs) := List.decidableBAll (fun c => c ≠ '\n' ∧ c ≠ '\r') cs

theorem Inline.append (as bs : List Char) (ha : Inline as) (hb : Inline bs) : Inline (as++bs) := fun c hc =>
  (List.mem_append.mp hc).elim (ha c) (hb c)

theorem inline_decimal (n : ℕ) : Inline (decimal n) := fun c hc => by
  have hd := decimal_isDigit n c hc
  constructor <;>
  · rintro rfl
    revert hd
    decide

theorem inline_intercalate (sep : List Char) (texts : List (List Char)) (hsep : Inline sep)
    (h : ∀ text ∈ texts, Inline text) : Inline (sep.intercalate texts) := by
  induction texts with
  | nil => simp [Inline]
  | cons text texts ih =>
    have hrest := ih fun t ht => h t (List.mem_cons_of_mem text ht)
    cases texts with
    | nil => simpa using h text List.mem_cons_self
    | cons next texts =>
      rw [List.intercalate_cons_cons]
      exact ((h text List.mem_cons_self).append _ _ hsep).append _ _ hrest

theorem inline_debugCounts (counts : Counts) : Inline (debugCounts counts) := by
  refine Inline.append _ _ (by decide) (Inline.append _ _ ?_ (by decide))
  refine inline_intercalate _ _ (by decide) fun text htext => ?_
  obtain ⟨n,-,rfl⟩ := List.mem_map.mp htext
  exact inline_decimal n

theorem inline_rttText (rtt : Option ℕ) : Inline (rttText rtt) := by
  cases rtt with
  | none => simp [rttText, Inline]
  | some ms => exact (inline_decimal ms).append _ _ (by decide)

theorem inline_integrityText (vi : Option VoteIntegrityResult) : Inline (integrityText vi) := by
  cases vi with
  | none => simp [integrityText, Inline]
  | some vi =>
    have hstatus : Inline (if vi.passed then "PASS" else "FAIL").toList := by
      cases vi.passed <;> decide
    have hexpected := (hstatus.append _ " (expected=".toList (by decide)).append _ _
      (inline_debugCounts vi.expected)
    have hactual := (hexpected.append _ ", actual=".toList (by decide)).append _ _
      (inline_debugCounts vi.actual)
    have hcount := (hactual.append _ ", fickle_bots=".toList (by decide)).append _ _
      (inline_decimal vi.fickleCount)
    have hall := hcount.append _ ")".toList (by decide)
    simpa [integrityText, List.append_assoc] using hall

/-! ## The way back -/

theorem Inline.not_mem (cs : List Char) (h : Inline cs) : '\n' ∉ cs := fun hmem => (h '\n' hmem).1 rfl

theorem Inline.stripCr (cs : List Char) (h : Inline cs) : stripCr cs = cs :=
  stripCr_of_ne cs fun hlast => (h '\r' (List.mem_of_getLast? hlast)).2 rfl

theorem lines_display (r : ScenarioReport) (elapsedSecs : List Char) (hmode : '\n' ∉ r.mode.toList)
    (helapsed : '\n' ∉ elapsedSecs) :
    lines (display r elapsedSecs) =
      ["=== Scenario Report ===".toList, "mode: ".toList++stripCr r.mode.toList,
        "total_bots: ".toList++decimal r.totalBots, "success: ".toList++decimal r.successCount,
        "failure: ".toList++decimal r.failureCount, "elapsed: ".toList++(elapsedSecs++"s".toList),
        "avg_rtt: ".toList++rttText r.avgRttMs,
        "vote_integrity: ".toList++integrityText r.voteIntegrity] := by
  have hkey : ∀ key n, Inline key → Inline (key++decimal n) := fun key n hk =>
    hk.append _ _ (inline_decimal n)
  have htotal := hkey "total_bots: ".toList r.totalBots (by decide)
  have hsuccess := hkey "success: ".toList r.successCount (by decide)
  have hfailure := hkey "failure: ".toList r.failureCount (by decide)
  have hrtt : Inline ("avg_rtt: ".toList++rttText r.avgRttMs) :=
    Inline.append _ _ (by decide) (inline_rttText r.avgRttMs)
  have hintegrity : Inline ("vote_integrity: ".toList++integrityText r.voteIntegrity) :=
    Inline.append _ _ (by decide) (inline_integrityText r.voteIntegrity)
  have hunit : stripCr ("elapsed: ".toList++(elapsedSecs++"s".toList)) =
      "elapsed: ".toList++(elapsedSecs++"s".toList) :=
    stripCr_of_ne _ (by rw [← List.append_assoc, List.getLast?_append]; exact nofun)
  have hlines := lines_intercalate ((reportLines r elapsedSecs).take 7)
    ("vote_integrity: ".toList++integrityText r.voteIntegrity) (by simp) (by
      simp only [reportLines, List.take_succ_cons, List.take_zero, List.cons_append, List.nil_append,
        List.forall_mem_cons]
      refine ⟨by decide,?_,htotal.not_mem,hsuccess.not_mem,hfailure.not_mem,?_,hrtt.not_mem,
        hintegrity.not_mem,by simp⟩
      · simpa using hmode
      · simpa using helapsed)
  rw [display]
  refine hlines.trans ?_
  simp only [reportLines, List.take_succ_cons, List.take_zero, List.map_cons, List.map_nil,
    List.cons_append, List.nil_append]
  rw [htotal.stripCr, hsuccess.stripCr, hfailure.stripCr, hrtt.stripCr, hunit,
    stripCr_append "mode: ".toList r.mode.toList (by decide)]
  rfl

theorem parse_mode (s : String) (p : Parsed) (h : parseReportDisplay s = some p) :
    ∃ g, readLines ⟨none,none,none,none,none,none⟩ (lines s) = some g ∧ g.mode = some p.mode := by
  simp only [parseReportDisplay, Option.bind_eq_bind, Option.bind_eq_some_iff, Option.pure_def,
    Option.some.injEq] at h
  obtain ⟨g,hread,m,hm,_,_,_,_,_,_,_,_,_,_,rfl⟩ := h
  exact ⟨g,hread,hm⟩

/-- What a report prints is read back, field by field, exactly when its mode
has no line break and does not end in a carriage return. -/
theorem report_read_back (r : ScenarioReport) (elapsedSecs : List Char) (htotal : r.totalBots < u64Bound)
    (hsuccess : r.successCount < u64Bound) (hfailure : r.failureCount < u64Bound)
    (helapsed : '\n' ∉ elapsedSecs) :
    parseReportDisplay (display r elapsedSecs) =
        some ⟨r.mode.toList,r.totalBots,r.successCount,r.failureCount,elapsedSecs++"s".toList,
          rttText r.avgRttMs⟩ ↔
      '\n' ∉ r.mode.toList ∧ r.mode.toList.getLast? ≠ some '\r' := by
  by_cases hmode : '\n' ∈ r.mode.toList
  · refine ⟨fun h => ?_,fun h => absurd hmode h.1⟩
    obtain ⟨g,hread,hm⟩ := parse_mode _ _ h
    have hnone : ∀ m, (⟨none,none,none,none,none,none⟩ : Fields).mode = some m → '\n' ∉ m := nofun
    exact absurd hmode (readLines_mode _ g _ hnone (lines_unbroken _) hread _ hm)
  · have hparsed : parseReportDisplay (display r elapsedSecs) =
        some ⟨stripCr r.mode.toList,r.totalBots,r.successCount,r.failureCount,elapsedSecs++"s".toList,
          rttText r.avgRttMs⟩ := by
      rw [parseReportDisplay, lines_display r elapsedSecs hmode helapsed,
        readLines_report _ _ _ _ _ _ _ htotal hsuccess hfailure]
      rfl
    rw [hparsed, Option.some.injEq, Parsed.mk.injEq, stripCr_eq_self]
    simp [hmode]

/-- The report of the mixed test in full. -/
theorem mixed_report_read_back :
    parseReportDisplay (display ⟨"mixed",4,3,1,some 12,some ⟨true,fun _ => 0,fun _ => 0,2⟩⟩ "1.50".toList) =
      some ⟨"mixed".toList,4,3,1,"1.50s".toList,"12ms".toList⟩ :=
  (report_read_back ⟨"mixed",4,3,1,some 12,some ⟨true,fun _ => 0,fun _ => 0,2⟩⟩ "1.50".toList
    (by decide) (by decide) (by decide) (by decide)).mpr (by decide)

end RustChat.ReportText
