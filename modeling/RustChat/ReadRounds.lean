import RustChat.LineFraming

/-!
# The rounds of one read

The loop of `read_line_bounded` round by round, over any chunks that
`fill_buf` offers one after the other, without end if need be. The value
returned does not show what the buffer holds on the way.
-/

set_option autoImplicit false

namespace RustChat.ReadRounds
open LineReader LineFraming

/-- The variables of the loop. `seen` is history: the bytes consumed so far. -/
structure Loop where
  buf : List UInt8
  overflow : Bool
  seen : List UInt8
  deriving DecidableEq, Repr

def next (maxLen : ℕ) (l : Loop) (chunk : List UInt8) : Option Loop :=
  match readRound maxLen l.buf l.overflow chunk with
  | .done _ _ => none
  | .more buf overflow n => some ⟨buf,overflow,l.seen++chunk.take n⟩

def rounds (maxLen : ℕ) (chunks : ℕ → List UInt8) : ℕ → Option Loop
  | 0 => some ⟨[],false,[]⟩
  | n+1 => (rounds maxLen chunks n).bind fun l => next maxLen l (chunks n)

def held (maxLen : ℕ) (seen : List UInt8) : Loop := ⟨seen.take maxLen,decide (maxLen < seen.length),seen⟩

def Inner (chunk : List UInt8) : Prop := chunk ≠ [] ∧ newline ∉ chunk

instance (chunk : List UInt8) : Decidable (Inner chunk) := inferInstanceAs (Decidable (_ ∧ _))

theorem inner_cases (chunk : List UInt8) :
    Inner chunk ∨ chunk = [] ∨ ∃ pre post, newline ∉ pre ∧ chunk = pre++newline::post := by
  rcases line_cases chunk with hline | hno
  · exact Or.inr (Or.inr hline)
  · by_cases hnil : chunk = []
    · exact Or.inr (Or.inl hnil)
    · exact Or.inl ⟨hnil,hno⟩

theorem readRound_cases (maxLen : ℕ) (seen chunk : List UInt8) :
    (Inner chunk ∧ readRound maxLen (held maxLen seen).buf (held maxLen seen).overflow chunk =
      .more (held maxLen (seen++chunk)).buf (held maxLen (seen++chunk)).overflow chunk.length) ∨
    (¬ Inner chunk ∧ ∃ line k,
      readRound maxLen (held maxLen seen).buf (held maxLen seen).overflow chunk = .done line k) := by
  rcases inner_cases chunk with hin | rfl | ⟨pre,post,hpre,rfl⟩
  · exact Or.inl ⟨hin,readRound_no_newline maxLen seen chunk hin.1 hin.2⟩
  · exact Or.inr ⟨fun h => h.1 rfl,_,_,readRound_end maxLen seen⟩
  · exact Or.inr ⟨fun h => h.2 (by simp),_,_,readRound_newline maxLen seen pre post hpre⟩

theorem next_held (maxLen : ℕ) (seen chunk : List UInt8) :
    next maxLen (held maxLen seen) chunk = if Inner chunk then some (held maxLen (seen++chunk)) else none := by
  unfold next
  rcases readRound_cases maxLen seen chunk with ⟨hin,hmore⟩ | ⟨hin,line,k,hdone⟩
  · rw [hmore, if_pos hin]
    simp only [List.take_length]
    rfl
  · rw [hdone, if_neg hin]

/-- The invariant of the loop: it holds what fits of all chunks so far, as long
as none of them has ended the line or the stream. -/
theorem rounds_formula (maxLen : ℕ) (chunks : ℕ → List UInt8) (n : ℕ) :
    rounds maxLen chunks n =
      if ∀ m < n, Inner (chunks m) then some (held maxLen ((List.range n).flatMap chunks)) else none := by
  induction n with
  | zero => simp [rounds, held]
  | succ n ih =>
    have hsplit : (∀ m < n+1, Inner (chunks m)) ↔ (∀ m < n, Inner (chunks m)) ∧ Inner (chunks n) := by
      simp only [Nat.lt_succ_iff_lt_or_eq, or_imp, forall_and, forall_eq]
    rw [rounds, ih]
    by_cases hall : ∀ m < n, Inner (chunks m)
    · rw [if_pos hall, Option.bind_some, next_held, List.range_succ, List.flatMap_append]
      by_cases hin : Inner (chunks n)
      · rw [if_pos hin, if_pos (hsplit.mpr ⟨hall,hin⟩)]
        simp
      · rw [if_neg hin, if_neg fun h => hin (hsplit.mp h).2]
    · rw [if_neg hall, if_neg fun h => hall (hsplit.mp h).1, Option.bind_none]

theorem rounds_some_iff (maxLen : ℕ) (chunks : ℕ → List UInt8) (n : ℕ) (l : Loop) :
    rounds maxLen chunks n = some l ↔
      (∀ m < n, Inner (chunks m)) ∧ l = held maxLen ((List.range n).flatMap chunks) := by
  rw [rounds_formula]
  split_ifs with h
  · rw [Option.some.injEq]
    exact ⟨fun hl => ⟨h,hl.symm⟩,fun hl => hl.2.symm⟩
  · simp [h]

theorem absorb_length_le (maxLen : ℕ) (seen part : List UInt8) :
    (absorb maxLen (held maxLen seen).buf (held maxLen seen).overflow part).1.length ≤ maxLen := by
  rw [held, absorb_seen, List.length_take]
  exact Nat.min_le_left _ _

/-! ## The reader whose rounds they are -/

def after (r : Reader) : ℕ → Reader
  | 0 => r
  | n+1 => consume (after r n) (fillBuf (after r n)).length

def chunksOf (r : Reader) (n : ℕ) : List UInt8 := fillBuf (after r n)

theorem readLineBounded_rounds (maxLen : ℕ) (r : Reader) (n : ℕ) (l : Loop)
    (h : rounds maxLen (chunksOf r) n = some l) :
    readLineBounded maxLen r = readLoop maxLen (after r n) l.buf l.overflow := by
  induction n generalizing l with
  | zero =>
    cases h
    rfl
  | succ n ih =>
    obtain ⟨m,hm,hnext⟩ := Option.bind_eq_some_iff.mp h
    rw [ih m hm, readLoop_unfold]
    obtain ⟨-,rfl⟩ := (rounds_some_iff maxLen (chunksOf r) n m).mp hm
    rw [next_held] at hnext
    split_ifs at hnext with hin
    cases hnext
    rw [show fillBuf (after r n) = chunksOf r n from rfl]
    rcases readRound_cases maxLen ((List.range n).flatMap (chunksOf r)) (chunksOf r n) with ⟨-,hmore⟩ | ⟨hno,-⟩
    · rw [hmore]
      rfl
    · exact absurd hin hno

/-- The memory of a read is bounded in every round, also of an endless stream
without a newline, and each round that does not return consumes a chunk. -/
theorem read_bounded_and_progressing (maxLen : ℕ) (chunks : ℕ → List UInt8) :
    (∀ n l, rounds maxLen chunks n = some l →
      l.seen = (List.range n).flatMap chunks ∧ newline ∉ l.seen ∧
      l.buf.length ≤ maxLen ∧ l.buf = l.seen.take (min maxLen l.seen.length) ∧
      (l.overflow = true ↔ maxLen < l.seen.length) ∧
      (∀ part, part <+: chunks n → (absorb maxLen l.buf l.overflow part).1.length ≤ maxLen) ∧
      ∀ buf overflow k, readRound maxLen l.buf l.overflow (chunks n) = .more buf overflow k →
        chunks n ≠ [] ∧ k = (chunks n).length) ∧
    (∀ n, (∃ l, rounds maxLen chunks n = some l) ↔ ∀ m < n, chunks m ≠ [] ∧ newline ∉ chunks m) ∧
    (∀ n, chunks n = [] ∨ newline ∈ chunks n →
      ∃ m ≤ n, ∃ l line k, rounds maxLen chunks m = some l ∧
        readRound maxLen l.buf l.overflow (chunks m) = .done line k) ∧
    ∀ r n l line k, rounds maxLen (chunksOf r) n = some l →
      readRound maxLen l.buf l.overflow (chunksOf r n) = .done line k →
      readLineBounded maxLen r = (line,consume (after r n) k) := by
  refine ⟨fun n l h => ?_,fun n => ?_,fun n hn => ?_,fun r n l line k h hdone => ?_⟩
  · obtain ⟨hall,rfl⟩ := (rounds_some_iff maxLen chunks n l).mp h
    refine ⟨rfl,fun hm => ?_,?_,?_,decide_eq_true_iff,fun part _ => absorb_length_le maxLen _ part,
      fun buf overflow k hmore => readRound_more maxLen _ _ _ buf overflow k hmore⟩
    · obtain ⟨m,hm,hnew⟩ := List.mem_flatMap.mp hm
      exact (hall m (List.mem_range.mp hm)).2 hnew
    · exact List.length_take_le _ _
    · exact List.take_eq_take_min
  · constructor
    · rintro ⟨l,h⟩
      exact ((rounds_some_iff maxLen chunks n l).mp h).1
    · intro hall
      exact ⟨_,(rounds_some_iff maxLen chunks n _).mpr ⟨hall,rfl⟩⟩
  · have hend : ∃ m, ¬ Inner (chunks m) := ⟨n,fun h => hn.elim h.1 h.2⟩
    -- the first chunk that ends the line or the stream
    have hbefore : ∀ m < Nat.find hend, Inner (chunks m) := fun m hm => by
      simpa using Nat.find_min hend hm
    refine ⟨Nat.find hend,Nat.find_min' hend fun h => hn.elim h.1 h.2,
      held maxLen ((List.range (Nat.find hend)).flatMap chunks),?_⟩
    rcases readRound_cases maxLen ((List.range (Nat.find hend)).flatMap chunks) (chunks (Nat.find hend)) with
      ⟨hin,-⟩ | ⟨-,line,k,hdone⟩
    · exact absurd hin (Nat.find_spec hend)
    · exact ⟨line,k,(rounds_some_iff maxLen chunks _ _).mpr ⟨hbefore,rfl⟩,hdone⟩
  · rw [readLineBounded_rounds maxLen r n l h, readLoop_unfold, show fillBuf (after r n) = chunksOf r n from rfl,
      hdone]

/-- The limit met just at the end of a chunk is no overflow, and one byte more is. -/
example : (rounds 2 (fun _ => [0x61]) 2).map Loop.overflow = some false ∧
    (rounds 2 (fun _ => [0x61]) 3).map Loop.overflow = some true := by decide

end RustChat.ReadRounds
