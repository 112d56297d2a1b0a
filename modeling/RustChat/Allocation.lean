import RustChat.Apportion
import RustChat.Ratio
import RustChat.TaskPool

/-!
# The bots of each type

`allocate`, with every machine operation that can fail: sums and products that
overflow, a division by zero, an index out of range. A build with checks
panics at each of them; one without wraps around and goes on.
-/

set_option autoImplicit false

namespace RustChat.Allocation
open TaskPool Fickle Ratio Apportion

inductive Fault where
  | overflow
  | divisionByZero
  | outOfRange
  deriving DecidableEq, Repr

def u64Bound : ℕ := 2^64

/-- `Iterator::sum`, the first argument being the sum so far. -/
def checkedSum (bound : ℕ) : ℕ → List ℕ → Except Fault ℕ
  | sum, [] => .ok sum
  | sum, n::ns => if sum+n < bound then checkedSum bound (sum+n) ns else .error .overflow

structure Row where
  botType : BotType
  allocated : ℕ
  ratio : ℕ
  deriving DecidableEq, Repr

/-- `(total as u64 * *r as u64 / ratio_sum as u64) as usize`. -/
def share (total ratioSum ratio : ℕ) : Except Fault ℕ :=
  if total*ratio < u64Bound then
    if ratioSum = 0 then .error .divisionByZero else .ok (total*ratio/ratioSum)
  else .error .overflow

def floorRows (total ratioSum : ℕ) : List (BotType × ℕ) → Except Fault (List Row)
  | [] => .ok []
  | (botType,ratio)::entries => do
    let allocated ← share total ratioSum ratio
    let rows ← floorRows total ratioSum entries
    return ⟨botType,allocated,ratio⟩::rows

/-- The positions by descending ratio, by a stable sort. -/
def sortedIndices (rows : List Row) : List ℕ :=
  order (fun i => (rows.map Row.ratio).getD i 0) (List.range rows.length)

/-- The loop that hands out the remainder, from position `idx` of `indices` on. -/
def handOut (indices : List ℕ) : ℕ → ℕ → List Row → Except Fault (List Row)
  | 0, _, rows => .ok rows
  | remainder+1, idx, rows =>
    match indices[idx]? with
    | none => .error .outOfRange
    | some i =>
      match rows[i]? with
      | none => .error .outOfRange
      | some row =>
        if row.allocated+1 < u64Bound then
          handOut indices remainder ((idx+1)%indices.length)
            (rows.set i { row with allocated := row.allocated+1 })
        else .error .overflow

def allocate (total : ℕ) (spec : RatioSpec) : Except Fault (List (BotType × ℕ)) :=
  if spec.entries = [] then .ok []
  else do
    let ratioSum ← checkedSum u32Bound 0 (spec.entries.map Prod.snd)
    let rows ← floorRows total ratioSum spec.entries
    let allocatedSum ← checkedSum u64Bound 0 (rows.map Row.allocated)
    let rows ← handOut (sortedIndices rows) (total-allocatedSum) 0 rows
    return rows.map fun row => (row.botType,row.allocated)

/-! ## The steps one by one -/

theorem checkedSum_eq (bound sum : ℕ) (ns : List ℕ) (h : sum < bound) :
    checkedSum bound sum ns =
      if sum+ns.sum < bound then .ok (sum+ns.sum) else .error .overflow := by
  induction ns generalizing sum with
  | nil => simp [checkedSum, h]
  | cons n ns ih =>
    rw [checkedSum, List.sum_cons]
    split_ifs with h1 h2 h2
    · rw [ih (sum+n) h1, if_pos (by omega), Nat.add_assoc]
    · rw [ih (sum+n) h1, if_neg (by omega)]
    · omega
    · rfl

def floorRow (total ratioSum : ℕ) (entry : BotType × ℕ) : Row :=
  ⟨entry.1,total*entry.2/ratioSum,entry.2⟩

theorem floorRows_eq (total ratioSum : ℕ) (entries : List (BotType × ℕ)) (hpos : 0 < ratioSum)
    (hprod : ∀ entry ∈ entries, total*entry.2 < u64Bound) :
    floorRows total ratioSum entries = .ok (entries.map (floorRow total ratioSum)) := by
  induction entries with
  | nil => rfl
  | cons entry entries ih =>
    have hfirst := hprod entry (by simp)
    have hrest := ih fun e he => hprod e (by simp [he])
    simp only [floorRows, share, hfirst, if_true, Nat.ne_of_gt hpos, if_false, hrest]
    rfl

theorem floorRows_overflow (total ratioSum : ℕ) (entries : List (BotType × ℕ)) (hpos : 0 < ratioSum)
    (h : ∃ entry ∈ entries, ¬ total*entry.2 < u64Bound) :
    floorRows total ratioSum entries = .error .overflow := by
  induction entries with
  | nil =>
    obtain ⟨entry,hentry,_⟩ := h
    cases hentry
  | cons entry entries ih =>
    by_cases hfirst : total*entry.2 < u64Bound
    · obtain ⟨e,he,hlarge⟩ := h
      have hrest := ih ⟨e,(List.mem_cons.mp he).resolve_left fun heq => hlarge (heq ▸ hfirst),hlarge⟩
      simp only [floorRows, share, hfirst, if_true, Nat.ne_of_gt hpos, if_false, hrest]
      rfl
    · simp only [floorRows, share, hfirst, if_false]
      rfl

def Row.bump (row : Row) : Row := { row with allocated := row.allocated+1 }

/-- While there are indices left the loop gives one more to each row in turn. -/
theorem handOut_spec (indices : List ℕ) (hnodup : indices.Nodup) (n idx : ℕ) (rows : List Row)
    (hidx : idx+n < indices.length) (hrange : ∀ i ∈ indices, i < rows.length)
    (hsum : (rows.map Row.allocated).sum+n < u64Bound) :
    ∃ rows', handOut indices n idx rows = .ok rows' ∧
      (rows'.map Row.allocated).sum = (rows.map Row.allocated).sum+n ∧
      ∀ j : ℕ, rows'[j]? =
        (rows[j]?).map fun row => if j ∈ (indices.drop idx).take n then row.bump else row := by
  induction n generalizing idx rows with
  | zero => exact ⟨rows,rfl,by simp,fun j => by simp⟩
  | succ n ih =>
    have hlt : idx < indices.length := by omega
    obtain ⟨i,hi⟩ : ∃ i, indices[idx]? = some i := ⟨_,List.getElem?_eq_getElem hlt⟩
    have himem := List.mem_of_getElem? hi
    obtain ⟨row,hrow⟩ : ∃ row, rows[i]? = some row :=
      ⟨_,List.getElem?_eq_getElem (hrange i himem)⟩
    have hle : row.allocated ≤ (rows.map Row.allocated).sum :=
      List.le_sum_of_mem (List.mem_map_of_mem (List.mem_of_getElem? hrow))
    have hset := sum_map_set Row.allocated rows i row row.bump hrow
    have hmod : (idx+1)%indices.length = idx+1 := Nat.mod_eq_of_lt (by omega)
    obtain ⟨rows',hok,hsum',hget⟩ := ih (idx+1) (rows.set i row.bump) (by omega)
      (by simpa using hrange) (by simp only [Row.bump] at hset ⊢; omega)
    have hdrop : indices.drop idx = i::indices.drop (idx+1) := by
      rw [List.drop_eq_getElem_cons hlt]
      congr 1
      exact (List.getElem?_eq_some_iff.mp hi).2
    have hfresh : i ∉ indices.drop (idx+1) := by
      have hn := (List.drop_sublist idx indices).nodup hnodup
      rw [hdrop] at hn
      exact (List.nodup_cons.mp hn).1
    refine ⟨rows',?_,by simp only [Row.bump] at hset hsum'; omega,fun j => ?_⟩
    · rw [handOut, hi]
      simp only [hrow]
      rw [if_pos (by omega), hmod]
      exact hok
    · rw [hget j, hdrop, List.take_succ_cons]
      by_cases hji : j = i
      · subst hji
        rw [getElem?_set_same rows j row _ hrow, hrow]
        have hrest : j ∉ (indices.drop (idx+1)).take n := fun hj => hfresh (List.mem_of_mem_take hj)
        simp [hrest]
      · rw [List.getElem?_set_ne (Ne.symm hji)]
        simp [hji]

theorem sortedIndices_floor (total ratioSum : ℕ) (entries : List (BotType × ℕ)) :
    sortedIndices (entries.map (floorRow total ratioSum)) =
      order (fun i => (entries.map Prod.snd).getD i 0) (List.range entries.length) := by
  unfold sortedIndices
  rw [List.map_map, List.length_map]
  rfl

theorem floorRows_allocated (total : ℕ) (entries : List (BotType × ℕ)) :
    (entries.map (floorRow total (entries.map Prod.snd).sum)).map Row.allocated =
      floors total (entries.map Prod.snd) := by
  rw [floors, List.map_map, List.map_map]
  rfl

/-! ## The whole allocation -/

def extra (total : ℕ) (entries : List (BotType × ℕ)) (i : ℕ) : ℕ :=
  if rank (fun j => (entries.map Prod.snd).getD j 0) entries.length i <
    leftover total (entries.map Prod.snd) then 1 else 0

theorem ratio_sum_pos (entries : List (BotType × ℕ)) (hne : entries ≠ [])
    (hpos : ∀ entry ∈ entries, 1 ≤ entry.2) : 0 < (entries.map Prod.snd).sum := by
  obtain ⟨entry,hentry⟩ := List.exists_mem_of_ne_nil entries hne
  have hle := List.le_sum_of_mem (List.mem_map_of_mem (f := Prod.snd) hentry)
  have h1 := hpos entry hentry
  omega

theorem allocate_eq (total : ℕ) (entries : List (BotType × ℕ)) (hne : entries ≠ [])
    (hpos : ∀ entry ∈ entries, 1 ≤ entry.2) (hsum : (entries.map Prod.snd).sum < u32Bound)
    (hprod : ∀ entry ∈ entries, total*entry.2 < u64Bound) :
    ∃ result, allocate total ⟨entries⟩ = .ok result ∧ (result.map Prod.snd).sum = total ∧
      ∀ (i : ℕ), result[i]? = (entries[i]?).map fun entry =>
        (entry.1,total*entry.2/(entries.map Prod.snd).sum+extra total entries i) := by
  have hs := ratio_sum_pos entries hne hpos
  have htotal : total < u64Bound := by
    obtain ⟨entry,hentry⟩ := List.exists_mem_of_ne_nil entries hne
    exact (Nat.le_mul_of_pos_right total (hpos entry hentry)).trans_lt (hprod entry hentry)
  have hle := sum_floors_le total (entries.map Prod.snd) hs
  have hleft := leftover_lt total (entries.map Prod.snd) hs
  have hperm := order_perm (fun i => (entries.map Prod.snd).getD i 0) entries.length
  obtain ⟨rows,hok,hrsum,hget⟩ := handOut_spec
    (order (fun i => (entries.map Prod.snd).getD i 0) (List.range entries.length))
    (hperm.nodup_iff.mpr List.nodup_range) (leftover total (entries.map Prod.snd)) 0
    (entries.map (floorRow total (entries.map Prod.snd).sum))
    (by rw [hperm.length_eq, List.length_range]; simpa using hleft)
    (fun i hi => by simpa using hperm.mem_iff.mp hi)
    (by rw [floorRows_allocated, leftover]; omega)
  rw [floorRows_allocated] at hrsum
  refine ⟨rows.map fun row => (row.botType,row.allocated),?_,?_,fun i => ?_⟩
  · have h1 := checkedSum_eq u32Bound 0 (entries.map Prod.snd) (by decide)
    have h2 := floorRows_eq total _ entries hs hprod
    have h3 := checkedSum_eq u64Bound 0 (floors total (entries.map Prod.snd)) (by decide)
    rw [Nat.zero_add, if_pos hsum] at h1
    rw [Nat.zero_add, if_pos (hle.trans_lt htotal)] at h3
    simp only [allocate, hne, if_false, h1, bind, Except.bind, h2, floorRows_allocated, h3,
      sortedIndices_floor]
    rw [show total-(floors total (entries.map Prod.snd)).sum =
      leftover total (entries.map Prod.snd) from rfl, hok]
    rfl
  · rw [List.map_map, show Prod.snd ∘ (fun row : Row => (row.botType,row.allocated)) = Row.allocated
      from rfl, hrsum, leftover]
    omega
  · rw [List.getElem?_map, hget i, List.getElem?_map, List.drop_zero]
    cases he : entries[i]? with
    | none => rfl
    | some entry =>
      have hi := (List.getElem?_eq_some_iff.mp he).1
      simp only [Option.map_some, mem_take_order _ entries.length _ i hi, extra]
      split_ifs <;> rfl

/-- For any total and any non-empty list of positive ratios, types repeated or
not, whose sum and products fit. Every entry keeps its place and its type and
gets its exact share rounded down; less is left over than there are entries,
and it goes one each to the first entries by descending ratio, the earlier of
equal ones first. The counts add up to the total, and a higher ratio never
gets fewer. -/
theorem allocate_rule (total : ℕ) (entries : List (BotType × ℕ)) (hne : entries ≠ [])
    (hpos : ∀ entry ∈ entries, 1 ≤ entry.2) (hsum : (entries.map Prod.snd).sum < u32Bound)
    (hprod : ∀ entry ∈ entries, total*entry.2 < u64Bound) :
    ∃ result, allocate total ⟨entries⟩ = .ok result ∧
      result.map Prod.fst = entries.map Prod.fst ∧ (result.map Prod.snd).sum = total ∧
      leftover total (entries.map Prod.snd) < entries.length ∧
      (∀ (i : ℕ) entry, entries[i]? = some entry →
        result[i]? = some (entry.1,total*entry.2/(entries.map Prod.snd).sum+
          if rank (fun j => (entries.map Prod.snd).getD j 0) entries.length i <
            leftover total (entries.map Prod.snd) then 1 else 0)) ∧
      ∀ (i j : ℕ) e f x y, entries[i]? = some e → entries[j]? = some f → f.2 < e.2 →
        result[i]? = some x → result[j]? = some y → y.2 ≤ x.2 := by
  obtain ⟨result,hok,htotal,hget⟩ := allocate_eq total entries hne hpos hsum hprod
  have hleft := leftover_lt total (entries.map Prod.snd) (ratio_sum_pos entries hne hpos)
  refine ⟨result,hok,List.ext_getElem? fun i => ?_,htotal,by simpa using hleft,fun i entry he => ?_,
    fun i j e f x y he hf hlt hx hy => ?_⟩
  · rw [List.getElem?_map, hget i, List.getElem?_map]
    cases entries[i]? <;> rfl
  · rw [hget i, he]
    rfl
  · have hx' := (hget i).symm.trans hx
    have hy' := (hget j).symm.trans hy
    rw [he, Option.map_some, Option.some.injEq] at hx'
    rw [hf, Option.map_some, Option.some.injEq] at hy'
    subst hx' hy'
    have hfloor : total*f.2/(entries.map Prod.snd).sum ≤ total*e.2/(entries.map Prod.snd).sum :=
      Nat.div_le_div_right (Nat.mul_le_mul_left total (Nat.le_of_lt hlt))
    have hbefore : Before (fun n => (entries.map Prod.snd).getD n 0) i j := by
      refine Or.inl ?_
      simpa [List.getD, he, hf] using hlt
    have hrank := rank_mono _ entries.length i j hbefore
    have hextra : extra total entries j ≤ extra total entries i := by
      unfold extra
      split_ifs <;> omega
    exact Nat.add_le_add hfloor hextra

theorem allocate_rule_nine :
    allocate 9 ⟨[(.normal,2),(.ghost,3),(.normal,2)]⟩ = .ok [(.normal,3),(.ghost,4),(.normal,2)] ∧
      ∃ result, allocate 9 ⟨[(.normal,2),(.ghost,3),(.normal,2)]⟩ = .ok result ∧
        (result.map Prod.snd).sum = 9 := by
  obtain ⟨result,hok,_,hsum,_⟩ := allocate_rule 9 [(.normal,2),(.ghost,3),(.normal,2)] (by decide)
    (by decide) (by decide) (by decide)
  exact ⟨by decide,result,hok,hsum⟩

/-! ## Which ratios can be allocated -/

/-- The only fault of positive ratios is an overflow. -/
theorem allocate_fits_or_overflows (total : ℕ) (entries : List (BotType × ℕ)) (hne : entries ≠ [])
    (hpos : ∀ entry ∈ entries, 1 ≤ entry.2) :
    ((entries.map Prod.snd).sum < u32Bound ∧ ∀ entry ∈ entries, total*entry.2 < u64Bound) ∨
      allocate total ⟨entries⟩ = .error .overflow := by
  have hsum := checkedSum_eq u32Bound 0 (entries.map Prod.snd) (by decide)
  rw [Nat.zero_add] at hsum
  by_cases hlt : (entries.map Prod.snd).sum < u32Bound
  · by_cases hprod : ∀ entry ∈ entries, total*entry.2 < u64Bound
    · exact Or.inl ⟨hlt,hprod⟩
    · right
      push Not at hprod
      have hrows := floorRows_overflow total _ entries (ratio_sum_pos entries hne hpos)
        (hprod.imp fun e he => ⟨he.1,Nat.not_lt.mpr he.2⟩)
      rw [if_pos hlt] at hsum
      simp only [allocate, hne, if_false, hsum, bind, Except.bind, hrows]
  · right
    rw [if_neg hlt] at hsum
    simp only [allocate, hne, if_false, hsum, bind, Except.bind]

/-- An accepted ratio is allocated, without a fault and to the full total, if
and only if the sum of its numbers fits 32 bits and each of its products with
the total fits 64. -/
theorem allocate_accepted_iff (s : String) (spec : RatioSpec) (total : ℕ) (h : parse s = .ok spec) :
    (∃ result, allocate total spec = .ok result ∧ (result.map Prod.snd).sum = total) ↔
      (spec.entries.map Prod.snd).sum < u32Bound ∧
        ∀ entry ∈ spec.entries, total*entry.2 < u64Bound := by
  obtain ⟨entries⟩ := spec
  obtain ⟨hne,hrange⟩ := parse_accepted s ⟨entries⟩ h
  have hpos := fun entry he => (hrange entry he).1
  constructor
  · rintro ⟨result,hok,_⟩
    rcases allocate_fits_or_overflows total entries hne hpos with hfit | hover
    · exact hfit
    · rw [hover] at hok
      cases hok
  · rintro ⟨hsum,hprod⟩
    obtain ⟨result,hok,htotal,_⟩ := allocate_eq total entries hne hpos hsum hprod
    exact ⟨result,hok,htotal⟩

theorem allocate_accepted_default :
    allocate 501 ⟨[(.normal,40),(.spammer,20),(.fickle,20),(.ghost,10),(.quitter,10)]⟩ =
      .ok [(.normal,201),(.spammer,100),(.fickle,100),(.ghost,50),(.quitter,50)] ∧
    ∃ result,
      allocate 501 ⟨[(.normal,40),(.spammer,20),(.fickle,20),(.ghost,10),(.quitter,10)]⟩ = .ok result ∧
        (result.map Prod.snd).sum = 501 :=
  ⟨by decide,(allocate_accepted_iff defaultRatio _ 501 (by decide)).mpr (by decide)⟩

/-- Two accepted numbers whose sum is 2^32: the sum overflows for any total. -/
theorem ratio_sum_overflows :
    ¬ ∀ (s : String) (spec : RatioSpec) (total : ℕ), parse s = .ok spec → total < u64Bound →
      ∃ result, allocate total spec = .ok result ∧ (result.map Prod.snd).sum = total := by
  intro hallocates
  obtain ⟨result,hok,_⟩ := hallocates "normal:4294967295,fickle:1" ⟨[(.normal,4294967295),(.fickle,1)]⟩ 10
    (by decide) (by decide)
  have hfault : allocate 10 ⟨[(.normal,4294967295),(.fickle,1)]⟩ = .error .overflow := by decide
  rw [hfault] at hok
  cases hok

end RustChat.Allocation
