import Mathlib.Data.List.TakeWhile
import RustChat.Text

/-!
# Numerals

Which texts are read as an unsigned number, and as which one, and what is left
of a text when the white space around it is cut off.
-/

set_option autoImplicit false

namespace RustChat.Numeral
open Text

/-! ## White space around a text -/

def Blank (cs : List Char) : Prop := ∀ c ∈ cs, isWhitespace c = true

/-- The text with blanks before and behind it. -/
def Padded (core cs : List Char) : Prop := ∃ l r, cs = l++core++r ∧ Blank l ∧ Blank r

/-- There is no blank in it. -/
def Solid (cs : List Char) : Prop := ∀ c ∈ cs, isWhitespace c = false

theorem dropWhile_blank_append (l cs : List Char) (hl : Blank l) :
    (l++cs).dropWhile isWhitespace = cs.dropWhile isWhitespace := by
  induction l with
  | nil => rfl
  | cons c l ih =>
    rw [List.cons_append, List.dropWhile_cons_of_pos (hl c List.mem_cons_self)]
    exact ih fun d hd => hl d (List.mem_cons_of_mem c hd)

theorem blank_reverse (cs : List Char) (h : Blank cs) : Blank cs.reverse := fun c hc =>
  h c (List.mem_reverse.mp hc)

theorem blank_takeWhile (cs : List Char) : Blank (cs.takeWhile isWhitespace) := fun _ hc =>
  List.mem_takeWhile_imp hc

theorem trim_padded (cs : List Char) : Padded (trim cs) cs := by
  have hfront := List.takeWhile_append_dropWhile (p := isWhitespace) (l := cs)
  have hback := List.takeWhile_append_dropWhile (p := isWhitespace)
    (l := (cs.dropWhile isWhitespace).reverse)
  refine ⟨cs.takeWhile isWhitespace,((cs.dropWhile isWhitespace).reverse.takeWhile isWhitespace).reverse,
    ?_,blank_takeWhile cs,blank_reverse _ (blank_takeWhile _)⟩
  rw [trim, List.append_assoc, ← List.reverse_append, hback, List.reverse_reverse, hfront]

theorem trim_append_left (l cs : List Char) (hl : Blank l) : trim (l++cs) = trim cs := by
  rw [trim, dropWhile_blank_append l cs hl, trim]

theorem trim_append_right (cs r : List Char) (hr : Blank r) : trim (cs++r) = trim cs := by
  unfold trim
  by_cases hcs : Blank cs
  · have hnil : cs.dropWhile isWhitespace = [] := List.dropWhile_eq_nil_iff.mpr hcs
    have hnil' : r.dropWhile isWhitespace = [] := List.dropWhile_eq_nil_iff.mpr hr
    rw [dropWhile_blank_append cs r hcs, hnil, hnil']
  · have hne : cs.dropWhile isWhitespace ≠ [] := fun h => hcs (List.dropWhile_eq_nil_iff.mp h)
    rw [List.dropWhile_append, List.isEmpty_eq_false_iff.mpr hne, if_neg (by simp), List.reverse_append,
      dropWhile_blank_append _ _ (blank_reverse r hr)]

theorem dropWhile_solid (cs : List Char) (h : Solid cs) : cs.dropWhile isWhitespace = cs := by
  cases cs with
  | nil => rfl
  | cons c cs => exact List.dropWhile_cons_of_neg (by simp [h c List.mem_cons_self])

theorem trim_solid (cs : List Char) (h : Solid cs) : trim cs = cs := by
  rw [trim, dropWhile_solid cs h, dropWhile_solid _ fun c hc => h c (List.mem_reverse.mp hc),
    List.reverse_reverse]

theorem trim_length_le (cs : List Char) : (trim cs).length ≤ cs.length := by
  obtain ⟨l,r,hcs,-,-⟩ := trim_padded cs
  have hlen := congrArg List.length hcs
  simp only [List.length_append] at hlen
  omega

theorem trimmed_append_right (cs r : List Char) (hr : Blank r) (h : trim (cs++r) = cs++r) : r = [] := by
  have hlen := trim_length_le cs
  rw [← trim_append_right cs r hr, h, List.length_append] at hlen
  exact List.eq_nil_of_length_eq_zero (by omega)

theorem trim_eq_iff (core cs : List Char) (h : Solid core) : trim cs = core ↔ Padded core cs := by
  constructor
  · rintro rfl
    exact trim_padded cs
  · rintro ⟨l,r,rfl,hl,hr⟩
    rw [trim_append_right _ r hr, trim_append_left l core hl, trim_solid core h]

theorem padded_count (core cs : List Char) (c : Char) (hc : isWhitespace c = false)
    (h : Padded core cs) : cs.count c = core.count c := by
  obtain ⟨l,r,rfl,hl,hr⟩ := h
  have hnl : c ∉ l := fun hm => by simp [hl c hm] at hc
  have hnr : c ∉ r := fun hm => by simp [hr c hm] at hc
  rw [List.count_append, List.count_append, List.count_eq_zero.mpr hnl, List.count_eq_zero.mpr hnr,
    Nat.zero_add, Nat.add_zero]

/-! ## Splitting -/

theorem splitOnce_iff (sep : Char) (cs left right : List Char) :
    splitOnce sep cs = some (left,right) ↔ cs = left++sep::right ∧ sep ∉ left := by
  induction cs generalizing left with
  | nil => simp [splitOnce]
  | cons c cs ih =>
    unfold splitOnce
    split_ifs with hc
    · subst hc
      cases left with
      | nil => simp
      | cons d left =>
        simp only [Option.some.injEq, Prod.mk.injEq, List.cons_append, List.cons.injEq, List.mem_cons,
          not_or]
        constructor
        · rintro ⟨hcontra,-⟩
          cases hcontra
        · rintro ⟨⟨rfl,-⟩,hne,-⟩
          exact absurd rfl hne
    · cases left with
      | nil => simp [hc]
      | cons d left =>
        rw [Option.map_eq_some_iff, List.cons_append, List.cons.injEq, List.mem_cons, not_or]
        constructor
        · rintro ⟨⟨l,r⟩,hsplit,heq⟩
          obtain ⟨⟨rfl,rfl⟩,rfl⟩ : (c = d ∧ l = left) ∧ r = right := by simpa using heq
          obtain ⟨hcs,hl⟩ := (ih l).mp hsplit
          exact ⟨⟨rfl,hcs⟩,fun h => hc h.symm,hl⟩
        · rintro ⟨⟨rfl,hcs⟩,-,hl⟩
          exact ⟨(left,right),(ih left).mpr ⟨hcs,hl⟩,rfl⟩

theorem splitOnce_trim (sep : Char) (cs left right : List Char) (hsep : isWhitespace sep = false)
    (h : splitOnce sep cs = some (left,right)) :
    ∃ left' right', splitOnce sep (trim cs) = some (left',right') ∧ trim left' = trim left ∧
      trim right' = trim right := by
  obtain ⟨hcs,hleft⟩ := (splitOnce_iff sep cs left right).mp h
  obtain ⟨l,r,hpad,hl,hr⟩ := trim_padded cs
  have hnl : sep ∉ l := fun hm => by simp [hl sep hm] at hsep
  have hnr : sep ∉ r := fun hm => by simp [hr sep hm] at hsep
  have hmem : sep ∈ trim cs := by
    have hin : sep ∈ l++trim cs++r := hpad ▸ hcs ▸ by simp
    simpa [hnl, hnr] using hin
  cases hs : splitOnce sep (trim cs) with
  | none =>
    obtain ⟨a,b,ht,ha⟩ := List.eq_append_cons_of_mem hmem
    rw [(splitOnce_iff sep _ a b).mpr ⟨ht,ha⟩] at hs
    cases hs
  | some p =>
    obtain ⟨a,b⟩ := p
    obtain ⟨ht,ha⟩ := (splitOnce_iff sep _ a b).mp hs
    -- the first separator of the text is that of its core
    have hwhole : left++sep::right = (l++a)++sep::(b++r) := by
      rw [← hcs, hpad, ht]
      simp
    have hla : sep ∉ l++a := by simp [hnl, ha]
    have hfirst : splitOnce sep (left++sep::right) = some (l++a,b++r) :=
      (splitOnce_iff sep _ _ _).mpr ⟨hwhole,hla⟩
    rw [← hcs, h] at hfirst
    obtain ⟨rfl,rfl⟩ : left = l++a ∧ right = b++r := by simpa using hfirst
    exact ⟨a,b,rfl,(trim_append_left l a hl).symm,(trim_append_right b r hr).symm⟩

/-! ## Digits -/

/-- The text is a numeral of the number: digits, perhaps behind a plus. -/
def Denotes (cs : List Char) (n : ℕ) : Prop :=
  ∃ digits, (cs = digits ∨ cs = '+'::digits) ∧ digits ≠ [] ∧ (∀ c ∈ digits, c.isDigit = true) ∧
    Nat.ofDigitChars 10 digits 0 = n

theorem le_ofDigitChars (cs : List Char) (n : ℕ) : n ≤ Nat.ofDigitChars 10 cs n := by
  rw [Nat.ofDigitChars_eq_ofDigitChars_zero]
  exact (Nat.le_mul_of_pos_left n (Nat.pow_pos (by decide))).trans (Nat.le_add_right _ _)

/-- The check at each digit is one of the whole value. -/
theorem accumulate_iff (bound : ℕ) (cs : List Char) (n m : ℕ) (hn : n < bound) :
    accumulate bound n cs = some m ↔
      (∀ c ∈ cs, c.isDigit = true) ∧ Nat.ofDigitChars 10 cs n = m ∧ m < bound := by
  induction cs generalizing n with
  | nil =>
    simp only [accumulate, Nat.ofDigitChars_nil, Option.some.injEq]
    constructor
    · rintro rfl
      exact ⟨by simp,rfl,hn⟩
    · rintro ⟨-,rfl,-⟩
      rfl
  | cons c cs ih =>
    have hval : Nat.ofDigitChars 10 (c::cs) n = Nat.ofDigitChars 10 cs (n*10+(c.toNat-48)) := by
      rw [Nat.ofDigitChars_cons, Nat.mul_comm 10 n]
      rfl
    rw [hval, List.forall_mem_cons]
    unfold accumulate
    split_ifs with hc
    · rw [ih _ hc.2]
      simp [hc.1]
    · constructor
      · intro h
        cases h
      · rintro ⟨⟨hd,-⟩,rfl,hm⟩
        exact absurd ⟨hd,(le_ofDigitChars cs _).trans_lt hm⟩ hc

theorem parseDigits_iff (bound : ℕ) (cs : List Char) (n : ℕ) (hb : 0 < bound) :
    parseDigits bound cs = some n ↔
      cs ≠ [] ∧ (∀ c ∈ cs, c.isDigit = true) ∧ Nat.ofDigitChars 10 cs 0 = n ∧ n < bound := by
  unfold parseDigits
  split_ifs with hcs
  · simp [hcs]
  · rw [accumulate_iff bound cs 0 n hb]
    simp [hcs]

theorem plus_not_digit (cs : List Char) (h : ∀ c ∈ '+'::cs, c.isDigit = true) : False :=
  absurd (h '+' List.mem_cons_self) (by decide)

/-- A text is read as a number below the bound if and only if it is a numeral of it. -/
theorem parseUnsigned_iff (bound : ℕ) (cs : List Char) (n : ℕ) (hb : 0 < bound) :
    parseUnsigned bound cs = some n ↔ Denotes cs n ∧ n < bound := by
  unfold parseUnsigned
  split
  · rename_i ds
    rw [parseDigits_iff bound ds n hb]
    constructor
    · rintro ⟨hne,hd,hv,hlt⟩
      exact ⟨⟨ds,Or.inr rfl,hne,hd,hv⟩,hlt⟩
    · rintro ⟨⟨digits,rfl | heq,hne,hd,hv⟩,hlt⟩
      · exact absurd hd (plus_not_digit ds)
      · obtain rfl : ds = digits := by simpa using heq
        exact ⟨hne,hd,hv,hlt⟩
  · rename_i hplus
    rw [parseDigits_iff bound cs n hb]
    constructor
    · rintro ⟨hne,hd,hv,hlt⟩
      exact ⟨⟨cs,Or.inl rfl,hne,hd,hv⟩,hlt⟩
    · rintro ⟨⟨digits,rfl | rfl,hne,hd,hv⟩,hlt⟩
      · exact ⟨hne,hd,hv,hlt⟩
      · exact absurd rfl (hplus digits)

theorem denotes_unique (cs : List Char) (m n : ℕ) (hm : Denotes cs m) (hn : Denotes cs n) : m = n := by
  have hread := (parseUnsigned_iff (max m n+1) cs m (Nat.succ_pos _)).mpr ⟨hm,by omega⟩
  have hread' := (parseUnsigned_iff (max m n+1) cs n (Nat.succ_pos _)).mpr ⟨hn,by omega⟩
  exact Option.some.inj (hread.symm.trans hread')

theorem denotes_not_mem (cs : List Char) (n : ℕ) (c : Char) (h : Denotes cs n)
    (hd : c.isDigit = false) (hp : c ≠ '+') : c ∉ cs := by
  obtain ⟨digits,hcs,-,hdigits,-⟩ := h
  have hnd : c ∉ digits := fun hm => by simp [hdigits c hm] at hd
  rcases hcs with rfl | rfl
  · exact hnd
  · simp [hp, hnd]

theorem denotes_decimal (n : ℕ) : Denotes (decimal n) n :=
  ⟨decimal n,Or.inl rfl,Nat.toDigits_ne_nil,decimal_isDigit n,Nat.ofDigitChars_ten_toDigits⟩

theorem parseUnsigned_decimal (bound n : ℕ) (hn : n < bound) : parseUnsigned bound (decimal n) = some n :=
  (parseUnsigned_iff bound (decimal n) n (Nat.zero_lt_of_lt hn)).mpr ⟨denotes_decimal n,hn⟩

theorem digit_solid (c : Char) (h : c.isDigit = true) : isWhitespace c = false := by
  have hrange : 48 ≤ c.toNat ∧ c.toNat ≤ 57 := by
    simpa [Char.isDigit, UInt32.le_iff_toNat_le] using h
  simp only [isWhitespace, Bool.or_eq_false_iff, Bool.and_eq_false_iff, decide_eq_false_iff_not]
  omega

theorem denotes_solid (cs : List Char) (n : ℕ) (h : Denotes cs n) : Solid cs := by
  obtain ⟨digits,hcs,-,hd,-⟩ := h
  intro c hc
  rcases hcs with rfl | rfl
  · exact digit_solid c (hd c hc)
  · rcases List.mem_cons.mp hc with rfl | hc
    · decide
    · exact digit_solid c (hd c hc)

end RustChat.Numeral
