import Mathlib.Data.List.Infix
import RustChat.LineReader

/-!
# The lines a stream holds

The reference splits the whole stream at the newlines and knows nothing of
chunks, buffer or flag. The invariant of the read loop says what buffer and
flag are after any bytes of a line, so a boundary may fall anywhere in it.
-/

set_option autoImplicit false

namespace RustChat.LineFraming
open Utf8 LineReader

/-- One carriage return less, if the segment ends in one. -/
def withoutReturn (seg : List UInt8) : List UInt8 :=
  match seg.reverse with
  | 0x0D::front => front.reverse
  | _ => seg

/-- A segment that ended with a newline. -/
def terminated (maxLen : ℕ) (seg : List UInt8) : String :=
  if maxLen < seg.length then "" else fromUtf8Lossy (withoutReturn seg)

/-- What stands after the last newline, at the end of the stream. -/
def unterminated (maxLen : ℕ) (seg : List UInt8) : Option String :=
  if seg = [] then none else if maxLen < seg.length then some "" else some (fromUtf8Lossy seg)

/-- Every line of the stream. -/
def reference (maxLen : ℕ) (bytes : List UInt8) : List String :=
  (bytes.splitOn newline).dropLast.map (terminated maxLen)++
    (unterminated maxLen ((bytes.splitOn newline).getLastD [])).toList

theorem reference_cons (maxLen : ℕ) (seg bytes : List UInt8) (h : newline ∉ seg) :
    reference maxLen (seg++newline::bytes) = terminated maxLen seg::reference maxLen bytes := by
  have hne := List.splitOn_ne_nil newline bytes
  obtain ⟨a,l,hl⟩ := List.exists_cons_of_ne_nil hne
  simp [reference, List.splitOn_append_cons_self_of_not_mem h, hl]

theorem reference_tail (maxLen : ℕ) (seg : List UInt8) (h : newline ∉ seg) :
    reference maxLen seg = (unterminated maxLen seg).toList := by
  simp [reference, List.splitOn_eq_singleton h]

theorem withoutReturn_return (seg : List UInt8) : withoutReturn (seg++[0x0D]) = seg := by
  simp [withoutReturn]

theorem withoutReturn_other (seg : List UInt8) (b : UInt8) (hb : b ≠ 0x0D) :
    withoutReturn (seg++[b]) = seg++[b] := by
  rw [withoutReturn, List.reverse_append, List.reverse_singleton, List.singleton_append]
  split
  · next front heq => exact absurd (List.cons.inj heq).1 hb
  · rfl

theorem dropCarriageReturn_eq (seg : List UInt8) : dropCarriageReturn seg = withoutReturn seg := by
  rcases List.eq_nil_or_concat' seg with rfl | ⟨front,b,rfl⟩
  · rfl
  · by_cases hb : b = 0x0D
    · subst hb
      have hlast : (front++[0x0D]).getLast? = some carriageReturn := List.getLast?_concat
      rw [withoutReturn_return, dropCarriageReturn, if_pos hlast, List.dropLast_concat]
    · have hlast : (front++[b]).getLast? ≠ some carriageReturn := by
        rw [List.getLast?_concat]
        exact fun h => hb (Option.some.inj h)
      rw [withoutReturn_other front b hb, dropCarriageReturn, if_neg hlast]

/-! ## One line -/

/-- The buffer holds what fits of the bytes seen, and the flag says whether
some did not. -/
theorem absorb_seen (maxLen : ℕ) (seen part : List UInt8) :
    absorb maxLen (seen.take maxLen) (decide (maxLen < seen.length)) part =
      ((seen++part).take maxLen,decide (maxLen < (seen++part).length)) := by
  by_cases hov : maxLen < seen.length
  · have htake : (seen++part).take maxLen = seen.take maxLen :=
      List.take_append_of_le_length (Nat.le_of_lt hov)
    have hlen : maxLen < seen.length+part.length := by omega
    simp [absorb, hov, htake, hlen]
  · have hfull : seen.take maxLen = seen := List.take_of_length_le (Nat.le_of_not_lt hov)
    have htake : (seen++part).take maxLen = seen++part.take (maxLen-seen.length) := by
      rw [List.take_append, hfull]
    have hmin : part.take (min part.length (maxLen-seen.length)) = part.take (maxLen-seen.length) :=
      List.take_eq_take_iff.mpr (by omega)
    have hlen : (maxLen-seen.length < part.length) ↔ maxLen < (seen++part).length := by
      rw [List.length_append]
      omega
    simp only [absorb, hov, hfull, htake, hmin, decide_false, Bool.false_eq_true, if_false,
      hlen]

theorem findIdx?_no_newline (chunk : List UInt8) (h : newline ∉ chunk) :
    chunk.findIdx? (· = newline) = none :=
  List.findIdx?_eq_none_iff.mpr fun _ hx => decide_eq_false fun e => h (e ▸ hx)

theorem findIdx?_newline (pre post : List UInt8) (h : newline ∉ pre) :
    (pre++newline::post).findIdx? (· = newline) = some pre.length := by
  simp [List.findIdx?_append, List.findIdx?_cons, findIdx?_no_newline pre h]

theorem readRound_newline (maxLen : ℕ) (seen pre post : List UInt8) (h : newline ∉ pre) :
    readRound maxLen (seen.take maxLen) (decide (maxLen < seen.length)) (pre++newline::post) =
      .done (some (terminated maxLen (seen++pre))) (pre.length+1) := by
  have htake : (pre++newline::post).take pre.length = pre := List.take_left
  simp only [readRound, List.append_eq_nil_iff, reduceCtorEq, and_false, if_false,
    findIdx?_newline pre post h, htake, absorb_seen, terminated, dropCarriageReturn_eq, decide_eq_true_eq]
  split_ifs with hov
  · rfl
  · rw [List.take_of_length_le (Nat.le_of_not_lt hov)]

theorem readRound_no_newline (maxLen : ℕ) (seen chunk : List UInt8) (hne : chunk ≠ [])
    (h : newline ∉ chunk) :
    readRound maxLen (seen.take maxLen) (decide (maxLen < seen.length)) chunk =
      .more ((seen++chunk).take maxLen) (decide (maxLen < (seen++chunk).length)) chunk.length := by
  simp only [readRound, hne, if_false, findIdx?_no_newline chunk h, absorb_seen]

theorem readRound_end (maxLen : ℕ) (seen : List UInt8) :
    readRound maxLen (seen.take maxLen) (decide (maxLen < seen.length)) [] =
      .done (unterminated maxLen seen) 0 := by
  simp only [readRound, unterminated, if_true, decide_eq_true_eq, decide_eq_false_iff_not]
  by_cases hov : maxLen < seen.length
  · have hne : seen ≠ [] := List.length_pos_iff.mp (by omega)
    simp [hov, hne]
  · simp only [hov, List.take_of_length_le (Nat.le_of_not_lt hov), not_false_eq_true, and_true,
      if_false]
    split_ifs <;> rfl

theorem line_cases (bytes : List UInt8) :
    (∃ seg more, newline ∉ seg ∧ bytes = seg++newline::more) ∨ newline ∉ bytes := by
  by_cases h : newline ∈ bytes
  · obtain ⟨seg,more,hb,hseg⟩ := List.eq_append_cons_of_mem h
    exact Or.inl ⟨seg,more,hseg,hb⟩
  · exact Or.inr h

theorem readLoop_unfold (maxLen : ℕ) (r : Reader) (buf : List UInt8) (overflow : Bool) :
    readLoop maxLen r buf overflow =
      match readRound maxLen buf overflow (fillBuf r) with
      | .done line n => (line,consume r n)
      | .more buf overflow n => readLoop maxLen (consume r n) buf overflow := by
  rw [readLoop]
  split <;> rename_i h <;> rw [h]

/-- The invariant of the loop, for a line of which some bytes are already in:
the line comes out whole and the stream is left right behind it. -/
theorem readLoop_line (maxLen : ℕ) (r : Reader) (seen seg more : List UInt8)
    (hseg : newline ∉ seg) (hr : r.rest = seg++newline::more) :
    (readLoop maxLen r (seen.take maxLen) (decide (maxLen < seen.length))).1 =
        some (terminated maxLen (seen++seg)) ∧
      (readLoop maxLen r (seen.take maxLen) (decide (maxLen < seen.length))).2.rest = more := by
  induction hn : r.rest.length using Nat.strong_induction_on generalizing r seen seg with
  | _ n ih =>
    rw [readLoop_unfold]
    rcases Nat.lt_or_ge (r.sizes 0) seg.length with hk | hk
    · -- the chunk ends before the newline
      have hchunk : fillBuf r = seg.take (r.sizes 0+1) := by
        rw [fillBuf, hr, List.take_append_of_le_length hk]
      have hsplit : r.rest.drop (r.sizes 0+1) = seg.drop (r.sizes 0+1)++newline::more := by
        rw [hr, List.drop_append_of_le_length hk]
      have hlen : (seg.take (r.sizes 0+1)).length = r.sizes 0+1 := by
        rw [List.length_take]
        omega
      have hne : seg.take (r.sizes 0+1) ≠ [] := List.length_pos_iff.mp (by omega)
      rw [hchunk, readRound_no_newline maxLen seen _ hne fun h => hseg (List.mem_of_mem_take h), hlen]
      have hrest := ih _ (by
        rw [consume, List.length_drop, ← hn, hr, List.length_append, List.length_cons]
        omega) (consume r (r.sizes 0+1)) (seen++seg.take (r.sizes 0+1)) (seg.drop (r.sizes 0+1))
        (fun h => hseg (List.mem_of_mem_drop h)) hsplit rfl
      rwa [List.append_assoc, List.take_append_drop] at hrest
    · -- the newline is in the chunk
      have hchunk : fillBuf r = seg++newline::more.take (r.sizes 0-seg.length) := by
        rw [fillBuf, hr, List.take_append, List.take_of_length_le (by omega)]
        congr 1
        rw [show r.sizes 0+1-seg.length = r.sizes 0-seg.length+1 by omega, List.take_succ_cons]
      rw [hchunk, readRound_newline maxLen seen seg _ hseg]
      refine ⟨rfl,?_⟩
      simp [consume, hr]

theorem readLoop_tail (maxLen : ℕ) (r : Reader) (seen : List UInt8) (hr : newline ∉ r.rest) :
    (readLoop maxLen r (seen.take maxLen) (decide (maxLen < seen.length))).1 =
        unterminated maxLen (seen++r.rest) ∧
      (readLoop maxLen r (seen.take maxLen) (decide (maxLen < seen.length))).2.rest = [] := by
  induction hn : r.rest.length using Nat.strong_induction_on generalizing r seen with
  | _ n ih =>
    rw [readLoop_unfold]
    by_cases hend : r.rest = []
    · rw [show fillBuf r = [] by simp [fillBuf, hend], readRound_end]
      simp [consume, hend]
    · have hne : fillBuf r ≠ [] := by
        simpa [fillBuf] using hend
      have hpos := List.length_pos_iff.mpr hne
      have hle : (fillBuf r).length ≤ r.rest.length := by
        rw [fillBuf, List.length_take]
        omega
      rw [readRound_no_newline maxLen seen _ hne fun h => hr (List.mem_of_mem_take h)]
      have hsplit : fillBuf r++(consume r (fillBuf r).length).rest = r.rest := by
        simp only [consume, fillBuf, List.length_take]
        rcases Nat.le_total (r.sizes 0+1) r.rest.length with h | h
        · rw [Nat.min_eq_left h, List.take_append_drop]
        · rw [Nat.min_eq_right h, List.take_of_length_le h, List.drop_length, List.append_nil]
      have hrest := ih _ (by
        rw [consume, List.length_drop]
        omega) (consume r (fillBuf r).length) (seen++fillBuf r)
        (fun h => hr (List.mem_of_mem_drop h)) rfl
      rwa [List.append_assoc, hsplit] at hrest

theorem readLineBounded_line (maxLen : ℕ) (r : Reader) (seg more : List UInt8)
    (hseg : newline ∉ seg) (hr : r.rest = seg++newline::more) :
    (readLineBounded maxLen r).1 = some (terminated maxLen seg) ∧
      (readLineBounded maxLen r).2.rest = more := by
  simpa [readLineBounded] using readLoop_line maxLen r [] seg more hseg hr

theorem readLineBounded_tail (maxLen : ℕ) (r : Reader) (hr : newline ∉ r.rest) :
    (readLineBounded maxLen r).1 = unterminated maxLen r.rest ∧
      (readLineBounded maxLen r).2.rest = [] := by
  simpa [readLineBounded] using readLoop_tail maxLen r [] hr

/-! ## All lines -/

theorem readLineBounded_shrinks (maxLen : ℕ) (r : Reader) (line : String)
    (h : (readLineBounded maxLen r).1 = some line) :
    (readLineBounded maxLen r).2.rest.length < r.rest.length := by
  rcases line_cases r.rest with ⟨seg,more,hseg,hr⟩ | hr
  · rw [(readLineBounded_line maxLen r seg more hseg hr).2, hr]
    simp only [List.length_append, List.length_cons]
    omega
  · obtain ⟨hline,hrest⟩ := readLineBounded_tail maxLen r hr
    rw [hrest]
    apply List.length_pos_iff.mpr
    rintro hnil
    simp [hline, hnil, unterminated] at h

/-- Call after call until one returns `None`. -/
def readAll (maxLen : ℕ) (r : Reader) : List String :=
  match _h : (readLineBounded maxLen r).1 with
  | none => []
  | some line => line::readAll maxLen (readLineBounded maxLen r).2
termination_by r.rest.length
decreasing_by exact readLineBounded_shrinks maxLen r line _h

theorem readAll_unfold (maxLen : ℕ) (r : Reader) :
    readAll maxLen r =
      match (readLineBounded maxLen r).1 with
      | none => []
      | some line => line::readAll maxLen (readLineBounded maxLen r).2 := by
  rw [readAll]
  split <;> rename_i h <;> rw [h]

theorem readAll_reference (maxLen : ℕ) (r : Reader) : readAll maxLen r = reference maxLen r.rest := by
  induction hn : r.rest.length using Nat.strong_induction_on generalizing r with
  | _ n ih =>
    rw [readAll_unfold]
    rcases line_cases r.rest with ⟨seg,more,hseg,hr⟩ | hr
    · obtain ⟨hline,hrest⟩ := readLineBounded_line maxLen r seg more hseg hr
      have hlt := readLineBounded_shrinks maxLen r _ hline
      rw [hline, hr, reference_cons maxLen seg more hseg]
      simp only
      rw [ih _ (hn ▸ hlt) _ rfl, hrest]
    · obtain ⟨hline,hrest⟩ := readLineBounded_tail maxLen r hr
      rw [hline, reference_tail maxLen r.rest hr]
      cases hu : unterminated maxLen r.rest with
      | none => rfl
      | some line =>
        have hlt := readLineBounded_shrinks maxLen r line (hline.trans hu)
        simp only
        rw [ih _ (hn ▸ hlt) _ rfl, hrest]
        simp [reference, unterminated]

/-- For every stream, every limit and every way to split the stream into
chunks: reading to the end gives the reference lines, and a single call takes
the line in front with its newline and nothing of what follows. -/
theorem lines_independent_of_chunks (maxLen : ℕ) (r : Reader) :
    readAll maxLen r = reference maxLen r.rest ∧
    (∀ seg more, newline ∉ seg → r.rest = seg++newline::more →
      (readLineBounded maxLen r).1 = some (terminated maxLen seg) ∧
        (readLineBounded maxLen r).2.rest = more) ∧
    (newline ∉ r.rest →
      (readLineBounded maxLen r).1 = unterminated maxLen r.rest ∧
        (readLineBounded maxLen r).2.rest = []) :=
  ⟨readAll_reference maxLen r,fun seg more => readLineBounded_line maxLen r seg more,
    readLineBounded_tail maxLen r⟩

end RustChat.LineFraming
