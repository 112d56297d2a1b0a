import Mathlib.Algebra.BigOperators.Fin
import Mathlib.Algebra.Order.BigOperators.Group.Finset
import RustChat.SnapshotOrder

/-!
# A snapshot taken while votes move

`snapshot` loads the counters one after another. The steps of the hub are
followed from its first load to its last, with a count for each handler of how
often the loads done so far have met its vote.
-/

set_option autoImplicit false

namespace RustChat.VoteObserver
open Runs TaskPool Protocol Handler HandlerSteps Hub VoteConservation SnapshotOrder

/-- The counters that a handler in the middle of `snapshot` has loaded. -/
def loadedOf (c : Conn) : Option (List ℕ) :=
  match c.phase with
  | .loading loaded _ _ => some loaded
  | _ => none

def loadedBy (s : State) (reader : ℕ) : Option (List ℕ) := (s.tasks[reader]?).bind loadedOf

/-- `seen` is history: for each handler, what its vote has added to the
counters loaded so far. -/
structure Watch where
  hub : State
  seen : List ℤ

def opened (s : State) : Watch := ⟨s,s.tasks.map fun _ => 0⟩

def isTurn (reader : ℕ) : Action → Bool
  | .conn k (.go _) => k = reader
  | _ => false

/-- The counts after the next load, while there is one. -/
def seenAfter (reader : ℕ) (w : Watch) (t : State) (a : Action) : Option (List ℤ) :=
  if isTurn reader a then
    (loadedBy w.hub reader).bind fun loaded =>
      if h : loaded.length < nOptions then
        some (w.seen.zipWith (· + ·) (w.hub.tasks.map fun c => account c ⟨loaded.length,h⟩))
      else none
  else some (w.seen++List.replicate (t.tasks.length-w.hub.tasks.length) 0)

/-- A step of the hub while the snapshot runs: `reader` only loads. -/
def watch (cap reader : ℕ) (w : Watch) (a : Action) : Option Watch :=
  (step cap w.hub a).bind fun t => (seenAfter reader w t a).map fun seen => ⟨t,seen⟩

/-! ## The votes followed -/

/-- The vote a handler has, from the first `fetch_add` of the call on. -/
def standing (c : Conn) : Option ℕ :=
  match c.phase with
  | .voting option | .voted option => some option
  | _ => c.currentVote

def holds (c : Conn) : Bool := (standing c).any fun option => option < nOptions

def held (start : List Conn) (k : ℕ) : Bool := (start[k]?).any holds

/-- It is neither withdrawing its vote nor changing it to an option there is not. -/
def stays (c : Conn) : Bool :=
  match c.phase with
  | .voting option | .voted option => option < nOptions
  | .unvoting _ _ => false
  | _ => true

def Staying (start : List Conn) (w : Watch) (_ : Action) : Prop :=
  ∀ k ∈ List.range start.length, held start k = true → ∀ c ∈ w.hub.tasks[k]?, stays c = true

/-- Between its two `fetch_add`: the option the vote leaves and the new one. -/
def moving (c : Conn) : Option (ℕ × ℕ) :=
  match c.phase,c.currentVote with
  | .voting next,some prev => some (prev,next)
  | _,_ => none

def position (s : State) (reader : ℕ) : ℕ := ((loadedBy s reader).getD []).length

/-- No vote that no load has met yet is taken off an option still to be loaded
after it was put on one loaded already. -/
def NoneMissed (start : List Conn) (reader : ℕ) (w : Watch) : Action → Prop
  | .conn k (.go _) =>
    held start k = true → ∀ c ∈ w.hub.tasks[k]?, ∀ m ∈ moving c, ∀ n ∈ w.seen[k]?,
      ¬(n = 0 ∧ position w.hub reader ≤ m.1 ∧ m.2 < position w.hub reader)
  | _ => True

/-! ## What is still to be loaded -/

/-- What the loads from `pos` on would find of an account. -/
def rest (v : Fin nOptions → ℤ) (pos : ℕ) : ℤ := ∑ i : Fin nOptions, if pos ≤ i.val then v i else 0

theorem rest_mono (v w : Fin nOptions → ℤ) (pos : ℕ) (h : ∀ i, v i ≤ w i) : rest v pos ≤ rest w pos := by
  refine Finset.sum_le_sum fun i _ => ?_
  split_ifs
  · exact h i
  · exact Int.le_refl 0

theorem rest_add (v w : Fin nOptions → ℤ) (pos : ℕ) : rest (v+w) pos = rest v pos+rest w pos := by
  rw [rest, rest, rest, ← Finset.sum_add_distrib]
  refine Finset.sum_congr rfl fun i _ => ?_
  split_ifs <;> simp

theorem rest_votes (vote : Option ℕ) (pos : ℕ) :
    rest (votes vote) pos = if vote.any fun option => pos ≤ option ∧ option < nOptions then 1 else 0 := by
  cases vote with
  | none => simp [rest, votes]
  | some option =>
    by_cases hlt : option < nOptions
    · rw [rest, Finset.sum_eq_single (⟨option,hlt⟩ : Fin nOptions)]
      · by_cases hpos : pos ≤ option <;> simp [votes, hpos, hlt]
      · intro i _ hi
        have hne : option ≠ i.val := fun e => hi (Fin.ext e.symm)
        simp [votes, hne]
      · simp
    · have hz : ∀ i : Fin nOptions, option ≠ i.val := fun i e => hlt (e ▸ i.isLt)
      simp [rest, votes, hz, hlt]

theorem rest_succ (v : Fin nOptions → ℤ) (pos : ℕ) (h : pos < nOptions) :
    rest v pos = v ⟨pos,h⟩+rest v (pos+1) := by
  rw [rest, rest, ← Finset.add_sum_erase Finset.univ _ (Finset.mem_univ (⟨pos,h⟩ : Fin nOptions)),
    ← Finset.add_sum_erase Finset.univ (fun i : Fin nOptions => if pos+1 ≤ i.val then v i else 0)
      (Finset.mem_univ (⟨pos,h⟩ : Fin nOptions))]
  rw [if_pos (Nat.le_refl pos), if_neg (by simp), zero_add]
  congr 1
  refine Finset.sum_congr rfl fun i hi => ?_
  have hne : pos ≠ i.val := fun e => (Finset.mem_erase.mp hi).1 (Fin.ext e.symm)
  exact if_congr (by omega) rfl rfl

theorem rest_end (v : Fin nOptions → ℤ) : rest v nOptions = 0 :=
  Finset.sum_eq_zero fun i _ => if_neg (Nat.not_le.mpr i.isLt)

/-! ## A vote on the move -/

theorem account_voting (c : Conn) (option : ℕ) (h : c.phase = .voting option) :
    account c = votes c.currentVote+votes (some option) := by
  funext i
  simp [account, inProgress, h]

theorem account_voted (c : Conn) (option : ℕ) (h : c.phase = .voted option) :
    account c = votes (some option) := by
  funext i
  simp [account, inProgress, h]

/-- A handler that stays keeps its vote in sight: some load has met it or some
load is still to meet it. -/
theorem handler_rest (sh : Shared) (c : Conn) (i : Input) (e : Effect) (c' : Conn)
    (h : HandlerStep sh c i e c') (pos : ℕ) (n : ℤ) (hn : 0 ≤ n) (hs : stays c = true)
    (hm : ∀ m ∈ moving c, ¬(n = 0 ∧ pos ≤ m.1 ∧ m.2 < pos)) (hw : 1 ≤ n+rest (account c) pos) :
    1 ≤ n+rest (account c') pos := by
  have hacc := handler_account sh c i e c' h
  have hgrow : (∀ j, 0 ≤ boardChange e j) → 1 ≤ n+rest (account c') pos := fun hd => by
    have hle : rest (account c) pos ≤ rest (account c') pos := by
      refine rest_mono _ _ pos fun j => ?_
      rw [hacc, Pi.add_apply]
      have h0 := hd j
      omega
    omega
  cases h with
  | replace clock option h =>
    rw [account_voting c option h, rest_add, rest_votes, rest_votes] at hw
    rw [account_voted _ option rfl, rest_votes]
    simp only [stays, h, decide_eq_true_eq] at hs
    cases hv : c.currentVote with
    | none => simpa [hv] using hw
    | some prev =>
      have hmiss := hm (prev,option) (by simp [moving, h, hv])
      simp only [hv, Option.any_some, Bool.decide_and, Bool.and_eq_true, decide_eq_true_eq] at hw ⊢
      split_ifs at hw ⊢ <;> omega
  | unvote clock prev after h => simp [stays, h] at hs
  | add clock option h =>
    refine hgrow fun j => ?_
    simp only [boardChange]
    split_ifs <;> decide
  | _ => exact hgrow fun j => Int.le_refl 0

/-! ## One step while the snapshot runs -/

/-- The votes met and the votes still to be met, for a snapshot begun when the
handlers were `start`. -/
structure Covered (start : List Conn) (reader : ℕ) (w : Watch) : Prop where
  conserved : Conserved w.hub
  lengths : w.seen.length = w.hub.tasks.length
  older : start.length ≤ w.hub.tasks.length
  nonneg : ∀ n ∈ w.seen, 0 ≤ n
  total : ∃ loaded, loadedBy w.hub reader = some loaded ∧ (loaded.sum : ℤ) = w.seen.sum
  worth : ∀ (k : ℕ) c n, held start k = true → w.hub.tasks[k]? = some c → w.seen[k]? = some n →
    1 ≤ n+rest (account c) (position w.hub reader)

theorem loadedOf_some (c : Conn) (loaded : List ℕ) (h : loadedOf c = some loaded) :
    ∃ asOf after, c.phase = .loading loaded asOf after := by
  unfold loadedOf at h
  split at h
  · rename_i l asOf after hp
    cases h
    exact ⟨asOf,after,hp⟩
  · cases h

theorem loadedBy_other (cap reader : ℕ) (s t : State) (a : Action) (loaded : List ℕ)
    (h : step cap s a = some t) (ha : isTurn reader a = false) (hl : loadedBy s reader = some loaded) :
    loadedBy t reader = some loaded := by
  obtain ⟨c,hc,hload⟩ := Option.bind_eq_some_iff.mp hl
  obtain ⟨c',hc',hm⟩ := conn_forward cap s t a h reader c hc
  refine Option.bind_eq_some_iff.mpr ⟨c',hc',?_⟩
  rcases hm with ⟨rfl,_⟩ | ⟨i,rfl,⟨e,hs⟩ | hw⟩
  · exact hload
  · obtain ⟨asOf,after,hp⟩ := loadedOf_some c loaded hload
    cases hs <;> simp_all [isTurn]
  · obtain ⟨_,hp,_⟩ := writer_frame cap s.shared c i c' hw
    rw [loadedOf, hp]
    exact hload

theorem other_covered (cap reader : ℕ) (start : List Conn) (w : Watch) (t : State) (a : Action)
    (hw : Covered start reader w) (hs : Staying start w a) (hm : NoneMissed start reader w a)
    (ha : isTurn reader a = false) (h : step cap w.hub a = some t) :
    Covered start reader
      ⟨t,w.seen++List.replicate (t.tasks.length-w.hub.tasks.length) 0⟩ := by
  obtain ⟨loaded,hl,hsum⟩ := hw.total
  have hle := step_length cap w.hub t a h
  have hl' := loadedBy_other cap reader w.hub t a loaded h ha hl
  refine ⟨step_conserved cap w.hub a t hw.conserved h,?_,hw.older.trans hle,?_,
    ⟨loaded,hl',by simp [hsum]⟩,?_⟩
  · have hlen := hw.lengths
    simp only [List.length_append, List.length_replicate]
    omega
  · intro n hn
    rcases List.mem_append.mp hn with hn | hn
    · exact hw.nonneg n hn
    · rw [List.eq_of_mem_replicate hn]
  · intro k c' n hk hc' hn
    have hlt : k < start.length := by
      obtain ⟨c0,hc0,_⟩ := (Option.any_eq_true _ _).mp hk
      exact (List.getElem?_eq_some_iff.mp hc0).1
    rw [List.getElem?_append_left (by rw [hw.lengths]; exact hlt.trans_le hw.older)] at hn
    rw [show position t reader = position w.hub reader by rw [position, position, hl, hl']]
    rcases conn_backward cap w.hub t a h k c' hc' with ⟨c,hc,hmove⟩ | ⟨_,hkl,_⟩
    · have hworth := hw.worth k c n hk hc hn
      rcases hmove with ⟨rfl,_⟩ | ⟨i,rfl,⟨e,hstep⟩ | hwrite⟩
      · exact hworth
      · have hstay := hs k (List.mem_range.mpr hlt) hk c hc
        refine handler_rest w.hub.shared c i e c' hstep _ n (hw.nonneg n (List.mem_of_getElem? hn))
          hstay ?_ hworth
        intro m hmv
        cases i with
        | go clock => exact hm hk c hc m hmv n hn
        | _ => cases hstep <;> simp_all [moving]
      · obtain ⟨_,hp,hv,_⟩ := writer_frame cap w.hub.shared c i c' hwrite
        have hacc : account c' = account c := by
          funext j
          simp [account, inProgress, hp, hv]
        rwa [hacc]
    · have ho := hw.older
      omega

theorem load_step (cap reader clock : ℕ) (s t : State) (loaded : List ℕ)
    (hl : loadedBy s reader = some loaded) (hlt : loaded.length < nOptions)
    (h : step cap s (.conn reader (.go clock)) = some t) :
    t.shared = s.shared ∧ t.tasks.map account = s.tasks.map account ∧
      loadedBy t reader = some (loaded++[VoteBoard.load s.shared.counts ⟨loaded.length,hlt⟩]) := by
  obtain ⟨d,hd,hload⟩ := Option.bind_eq_some_iff.mp hl
  obtain ⟨asOf,after,hp⟩ := loadedOf_some d loaded hload
  cases step_hub cap s _ t h with
  | handler k i c c' e hc hstep =>
    obtain rfl : d = c := Option.some.inj (hd.symm.trans hc)
    cases hstep with
    | load clock l asOf' after' h' hl' =>
      obtain ⟨rfl,rfl,rfl⟩ := Phase.loading.inj (hp.symm.trans h')
      refine ⟨rfl,map_set_same account s.tasks reader d _ hc ?_,?_⟩
      · funext j
        simp [account, inProgress, hp]
      · rw [loadedBy, getElem?_set_same s.tasks reader d _ hc]
        rfl
    | publish clock l asOf' after' h' hl' =>
      obtain ⟨rfl,rfl,rfl⟩ := Phase.loading.inj (hp.symm.trans h')
      omega
    | _ => simp_all
  | writer k i c c' hc hwrite => cases hwrite with | stop i hi h0 => simp at hi

/-- A load adds to each count what the vote of that handler has on the counter. -/
theorem load_covered (cap reader clock : ℕ) (start : List Conn) (w : Watch) (t : State) (seen : List ℤ)
    (hw : Covered start reader w) (h : step cap w.hub (.conn reader (.go clock)) = some t)
    (hs : seenAfter reader w t (.conn reader (.go clock)) = some seen) :
    Covered start reader ⟨t,seen⟩ := by
  obtain ⟨loaded,hl,hsum⟩ := hw.total
  simp only [seenAfter, isTurn, decide_true, if_true, hl, Option.bind_some] at hs
  split_ifs at hs with hlt
  cases hs
  obtain ⟨hshared,hacc,hl'⟩ := load_step cap reader clock w.hub t loaded hl hlt h
  have hlen : t.tasks.length = w.hub.tasks.length := by simpa using congrArg List.length hacc
  have hpos : position w.hub reader = loaded.length := by rw [position, hl, Option.getD_some]
  have hpos' : position t reader = loaded.length+1 := by
    rw [position, hl', Option.getD_some, List.length_append, List.length_singleton]
  have hlens : w.seen.length = (w.hub.tasks.map fun c => account c ⟨loaded.length,hlt⟩).length := by
    rw [hw.lengths, List.length_map]
  refine ⟨step_conserved cap w.hub _ t hw.conserved h,?_,by rw [hlen]; exact hw.older,?_,
    ⟨_,hl',?_⟩,?_⟩
  · rw [List.length_zipWith, ← hlens, Nat.min_self, hw.lengths, hlen]
  · intro m hm
    obtain ⟨n,hn,v,hv,rfl⟩ : ∃ n ∈ w.seen, ∃ c ∈ w.hub.tasks, m = n+account c ⟨loaded.length,hlt⟩ := by
      obtain ⟨j,hj⟩ := List.mem_iff_getElem?.mp hm
      rw [List.getElem?_zipWith_eq_some] at hj
      obtain ⟨n,v,hn,hv,rfl⟩ := hj
      rw [List.getElem?_map] at hv
      obtain ⟨c,hc,rfl⟩ := Option.map_eq_some_iff.mp hv
      exact ⟨n,List.mem_of_getElem? hn,c,List.mem_of_getElem? hc,rfl⟩
    have h1 := hw.nonneg n hn
    have h2 := account_nonneg v ⟨loaded.length,hlt⟩
    omega
  · have hload := VoteBoard.load_of_nonneg w.hub.shared.counts ⟨loaded.length,hlt⟩
      (conserved_nonneg w.hub hw.conserved _)
    rw [List.sum_append, List.sum_singleton, Nat.cast_add, hsum, hload, hw.conserved, account_sum_apply]
    exact List.sum_add_sum_eq_sum_zipWith_of_length_eq _ _ hlens
  · intro k c' n hk hc' hn
    rw [List.getElem?_zipWith_eq_some] at hn
    obtain ⟨m,v,hm,hv,rfl⟩ := hn
    rw [List.getElem?_map] at hv
    obtain ⟨c,hc,rfl⟩ := Option.map_eq_some_iff.mp hv
    have hsame : account c' = account c := by
      have hk' := congrArg (·[k]?) hacc
      simpa [hc, hc'] using hk'
    have hworth := hw.worth k c m hk hc hm
    rw [hpos, rest_succ _ _ hlt] at hworth
    rw [hpos', hsame]
    omega

theorem watch_cases (cap reader : ℕ) (w w' : Watch) (a : Action) (h : watch cap reader w a = some w') :
    step cap w.hub a = some w'.hub ∧ seenAfter reader w w'.hub a = some w'.seen := by
  obtain ⟨t,ht,hs⟩ := Option.bind_eq_some_iff.mp h
  obtain ⟨seen,hseen,rfl⟩ := Option.map_eq_some_iff.mp hs
  exact ⟨ht,hseen⟩

theorem watch_covered (cap reader : ℕ) (start : List Conn) (w w' : Watch) (a : Action)
    (hw : Covered start reader w) (hs : Staying start w a) (hm : NoneMissed start reader w a)
    (h : watch cap reader w a = some w') : Covered start reader w' := by
  obtain ⟨ht,hseen⟩ := watch_cases cap reader w w' a h
  cases hturn : isTurn reader a with
  | true =>
    obtain ⟨k,clock,rfl⟩ : ∃ k clock, a = .conn k (.go clock) := by
      unfold isTurn at hturn
      split at hturn
      · exact ⟨_,_,rfl⟩
      · cases hturn
    obtain rfl : k = reader := by simpa [isTurn] using hturn
    exact load_covered cap k clock start w w'.hub w'.seen hw ht hseen
  | false =>
    rw [seenAfter, hturn, if_neg Bool.false_ne_true] at hseen
    have hcov := other_covered cap reader start w w'.hub a hw hs hm hturn ht
    rwa [Option.some.inj hseen] at hcov

/-! ## A whole snapshot -/

/-- A vote is on the board from the first `fetch_add` of its call on. -/
theorem standing_account (c : Conn) (i : Fin nOptions) : votes (standing c) i ≤ account c i := by
  have hv := votes_nonneg c.currentVote i
  unfold standing account inProgress
  cases c.phase with
  | unvoting prev after =>
    have hp := votes_nonneg (some prev) i
    simp only
    omega
  | voting option | voted option =>
    simp only
    omega
  | _ => simp

theorem opened_covered (s : State) (reader : ℕ) (hs : Conserved s) (hl : loadedBy s reader = some []) :
    Covered s.tasks reader (opened s) := by
  refine ⟨hs,by simp [opened],Nat.le_refl _,by simp [opened],⟨[],hl,by simp [opened]⟩,?_⟩
  intro k c n hk hc hn
  have hpos : position (opened s).hub reader = 0 := by rw [opened, position, hl]; rfl
  have hzero : n = 0 := by
    simp only [opened, List.getElem?_map] at hn
    obtain ⟨_,_,rfl⟩ := Option.map_eq_some_iff.mp hn
    rfl
  have hc' : s.tasks[k]? = some c := hc
  rw [held, hc', Option.any_some] at hk
  have hle := rest_mono _ _ 0 (standing_account c)
  rw [rest_votes] at hle
  simp only [Nat.zero_le, true_and] at hle
  unfold holds at hk
  rw [if_pos hk] at hle
  rw [hpos, hzero]
  omega

theorem countP_le_sum (cs : List Conn) (ns : List ℤ) (hlen : cs.length ≤ ns.length)
    (h0 : ∀ n ∈ ns, 0 ≤ n)
    (h1 : ∀ (k : ℕ) n, held cs k = true → ns[k]? = some n → 1 ≤ n) :
    (cs.countP holds : ℤ) ≤ ns.sum := by
  induction cs generalizing ns with
  | nil =>
    rw [List.countP_nil]
    exact List.sum_nonneg h0
  | cons c cs ih =>
    cases ns with
    | nil => simp at hlen
    | cons n ns =>
      have hn := h0 n (by simp)
      have hrest := ih ns (by simpa using hlen) (fun m hm => h0 m (by simp [hm]))
        fun k m hk hm => h1 (k+1) m (by simpa [held] using hk) (by simpa using hm)
      rw [List.countP_cons, List.sum_cons]
      split_ifs with hc
      · have hone := h1 0 n (by simpa [held] using hc) rfl
        omega
      · omega

/-- A snapshot of handler `reader`, from its first load to its last, with the
steps of all other handlers in between. If the clients that have a valid vote
when it starts only move it to valid options, and no move slips past the
loads, the counts add up to no less than there are such clients. -/
theorem snapshot_covers (cap reader : ℕ) (as bs : List Action) (s : State) (w : Watch)
    (loaded : List ℕ) (hs : run (step cap) as init = some s) (hstart : loadedBy s reader = some [])
    (hw : run (watch cap reader) bs (opened s) = some w)
    (hstay : Guarded (watch cap reader) (Staying s.tasks) bs (opened s))
    (hmiss : Guarded (watch cap reader) (NoneMissed s.tasks reader) bs (opened s))
    (hend : loadedBy w.hub reader = some loaded) (hlen : loaded.length = nOptions) :
    s.tasks.countP holds ≤ loaded.sum := by
  have hcov : Covered s.tasks reader w :=
    guarded_invariant (fun w a => Staying s.tasks w a ∧ NoneMissed s.tasks reader w a)
      (Covered s.tasks reader)
      (fun m a m' hc hg hm => watch_covered cap reader s.tasks m m' a hc hg.1 hg.2 hm) bs (opened s) w
      (opened_covered s reader (run_conserved cap as s hs) hstart)
      ((guarded_and _ _ bs (opened s)).mpr ⟨hstay,hmiss⟩) hw
  obtain ⟨l,hl,hsum⟩ := hcov.total
  obtain rfl : loaded = l := Option.some.inj (hend.symm.trans hl)
  have hpos : position w.hub reader = nOptions := by rw [position, hend, Option.getD_some, hlen]
  have hle := countP_le_sum s.tasks w.seen (by rw [hcov.lengths]; exact hcov.older) hcov.nonneg
    fun k n hk hn => by
      have hlt : k < w.hub.tasks.length := by
        rw [← hcov.lengths]
        exact (List.getElem?_eq_some_iff.mp hn).1
      have hworth := hcov.worth k _ n hk (List.getElem?_eq_getElem hlt) hn
      rwa [hpos, rest_end, add_zero] at hworth
  omega

instance (start : List Conn) (w : Watch) (a : Action) : Decidable (Staying start w a) := by
  unfold Staying
  infer_instance

instance (start : List Conn) (reader : ℕ) (w : Watch) (a : Action) :
    Decidable (NoneMissed start reader w a) := by
  unfold NoneMissed
  rcases a with - | ⟨_,_ | _⟩ | - | - <;> infer_instance

def beforeSnapshot : List Action :=
  enter 0++castVote 0 3++[.conn 0 (.go 1000)]++List.replicate 4 (.throttle 0 1000)++
  [.conn 0 (.go 1000)]++enter 1++[.conn 1 (.line (some (.vote 0)))]++
  List.replicate 3 (.conn 1 (.go 1000))++[.conn 0 (.line (some (.vote 0)))]

def beforeSnapshotEnd : State := (run (step 16) beforeSnapshot init).get (by decide +kernel)

def overCount : List Action :=
  [.conn 0 (.go 1000),.conn 1 (.go 1000),.conn 0 (.go 1000),.conn 1 (.go 1000),.conn 1 (.go 1000),
   .conn 1 (.go 1000)]

def overCountEnd : Watch :=
  (run (watch 16 1) overCount (opened beforeSnapshotEnd)).get (by decide +kernel)

theorem over_count_covers :
    loadedBy overCountEnd.hub 1 = some [2,0,0,0] ∧ beforeSnapshotEnd.tasks.countP holds = 2 ∧
      beforeSnapshotEnd.tasks.countP holds ≤ [2,0,0,0].sum := by
  have hrun : run (step 16) beforeSnapshot init = some beforeSnapshotEnd := (Option.some_get _).symm
  have hwatch : run (watch 16 1) overCount (opened beforeSnapshotEnd) = some overCountEnd :=
    (Option.some_get _).symm
  exact ⟨by decide +kernel,by decide +kernel,
    snapshot_covers 16 1 beforeSnapshot overCount beforeSnapshotEnd overCountEnd [2,0,0,0] hrun
      (by decide +kernel) hwatch (by decide +kernel) (by decide +kernel) (by decide +kernel) rfl⟩

/-! ## A vote that slips past -/

/-- The same move, right after the load of option 0 and before that of option 3. -/
def underCount : List Action :=
  [.conn 1 (.go 1000),.conn 0 (.go 1000),.conn 0 (.go 1000),.conn 1 (.go 1000),.conn 1 (.go 1000),
   .conn 1 (.go 1000)]

def underCountEnd : Watch :=
  (run (watch 16 1) underCount (opened beforeSnapshotEnd)).get (by decide +kernel)

theorem under_count_misses :
    ¬ ∀ (cap reader : ℕ) (as bs : List Action) (s : State) (w : Watch) (loaded : List ℕ),
      run (step cap) as init = some s → loadedBy s reader = some [] →
      run (watch cap reader) bs (opened s) = some w →
      Guarded (watch cap reader) (Staying s.tasks) bs (opened s) →
      loadedBy w.hub reader = some loaded → loaded.length = nOptions →
      s.tasks.countP holds ≤ loaded.sum := by
  intro hcovers
  have hrun : run (step 16) beforeSnapshot init = some beforeSnapshotEnd := (Option.some_get _).symm
  have hwatch : run (watch 16 1) underCount (opened beforeSnapshotEnd) = some underCountEnd :=
    (Option.some_get _).symm
  have hle := hcovers 16 1 beforeSnapshot underCount beforeSnapshotEnd underCountEnd [1,0,0,0] hrun
    (by decide +kernel) hwatch (by decide +kernel) (by decide +kernel) rfl
  exact absurd hle (by decide +kernel)

end RustChat.VoteObserver
