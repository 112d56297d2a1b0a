import Mathlib.Data.List.Basic
import Mathlib.Tactic.Common

/-!
# Texts

The operations of Rust's `str` that the program parses with, on lists of
characters: white space is what Unicode calls so, and a number is decimal.
-/

set_option autoImplicit false

namespace RustChat.Text

/-- `char::is_whitespace`: the property White_Space. -/
def isWhitespace (c : Char) : Bool :=
  (9 ≤ c.toNat && c.toNat ≤ 13) || c.toNat = 32 || c.toNat = 133 || c.toNat = 160 ||
  c.toNat = 5760 || (8192 ≤ c.toNat && c.toNat ≤ 8202) || c.toNat = 8232 || c.toNat = 8233 ||
  c.toNat = 8239 || c.toNat = 8287 || c.toNat = 12288

def trim (cs : List Char) : List Char :=
  ((cs.dropWhile isWhitespace).reverse.dropWhile isWhitespace).reverse

def splitOnce (sep : Char) : List Char → Option (List Char × List Char)
  | [] => none
  | c::cs => if c = sep then some ([],cs) else (splitOnce sep cs).map fun p => (c::p.1,p.2)

def stripPrefix (start cs : List Char) : Option (List Char) :=
  if start <+: cs then some (cs.drop start.length) else none

def accumulate (bound : ℕ) : ℕ → List Char → Option ℕ
  | n, [] => some n
  | n, c::cs =>
    if c.isDigit = true ∧ n*10+(c.toNat-48) < bound then accumulate bound (n*10+(c.toNat-48)) cs
    else none

def parseDigits (bound : ℕ) (cs : List Char) : Option ℕ := if cs = [] then none else accumulate bound 0 cs

/-- `str::parse` at an unsigned type with values below `bound`. A sign is
allowed if it is a plus and digits follow. -/
def parseUnsigned (bound : ℕ) : List Char → Option ℕ
  | '+'::cs => parseDigits bound cs
  | cs => parseDigits bound cs

theorem stripPrefix_append (start rest : List Char) : stripPrefix start (start++rest) = some rest := by
  rw [stripPrefix, if_pos (List.prefix_append start rest), List.drop_left]

theorem stripPrefix_none (start cs : List Char) (h : ¬ start <+: cs) : stripPrefix start cs = none :=
  if_neg h

theorem accumulate_lt (bound : ℕ) (cs : List Char) (n m : ℕ) (hn : n < bound)
    (h : accumulate bound n cs = some m) : m < bound := by
  induction cs generalizing n with
  | nil =>
    obtain rfl : n = m := Option.some.inj h
    exact hn
  | cons c cs ih =>
    simp only [accumulate] at h
    split_ifs at h with hc
    exact ih _ hc.2 h

theorem parseUnsigned_lt (bound : ℕ) (cs : List Char) (n : ℕ) (hb : 0 < bound)
    (h : parseUnsigned bound cs = some n) : n < bound := by
  have hdigits : ∀ ds, parseDigits bound ds = some n → n < bound := fun ds hd => by
    unfold parseDigits at hd
    split_ifs at hd
    exact accumulate_lt bound ds 0 n hb hd
  unfold parseUnsigned at h
  split at h
  · exact hdigits _ h
  · exact hdigits _ h

/-! ## Decimal numbers -/

/-- What `format!` prints for an unsigned number. -/
def decimal (n : ℕ) : List Char := Nat.toDigits 10 n

theorem decimal_isDigit (n : ℕ) (c : Char) (h : c ∈ decimal n) : c.isDigit = true :=
  Nat.isDigit_of_mem_toDigits (by decide) (by decide) h

theorem not_mem_decimal (n : ℕ) (c : Char) (hc : c.isDigit = false) : c ∉ decimal n := fun h => by
  rw [decimal_isDigit n c h] at hc
  cases hc

theorem decimal_injective (m n : ℕ) (h : decimal m = decimal n) : m = n := by
  have hm : Nat.ofDigitChars 10 (decimal m) 0 = m := Nat.ofDigitChars_ten_toDigits
  have hn : Nat.ofDigitChars 10 (decimal n) 0 = n := Nat.ofDigitChars_ten_toDigits
  rw [← hm, h, hn]

theorem takeWhile_decimal (n : ℕ) (c : Char) (t : List Char) (hc : c.isDigit = false) :
    (decimal n++c::t).takeWhile Char.isDigit = decimal n := by
  rw [List.takeWhile_append_of_pos (decimal_isDigit n), List.takeWhile_cons_of_neg (by simp [hc]),
    List.append_nil]

/-- A number ends where something follows that is no digit. -/
theorem decimal_prefix_iff (m n : ℕ) (c : Char) (s t : List Char) (hc : c.isDigit = false) :
    decimal m++c::s <+: decimal n++c::t ↔ m = n ∧ s <+: t := by
  constructor
  · rintro ⟨r,h⟩
    have hwhole : decimal m++c::(s++r) = decimal n++c::t := by simpa using h
    have hdigits : decimal m = decimal n := by
      rw [← takeWhile_decimal m c (s++r) hc, hwhole, takeWhile_decimal n c t hc]
    rw [hdigits] at hwhole
    have hrest := List.append_cancel_left hwhole
    exact ⟨decimal_injective m n hdigits,r,(List.cons.inj hrest).2⟩
  · rintro ⟨rfl,r,rfl⟩
    exact ⟨r,by simp⟩

/-! ## Occurrences -/

/-- What stands behind the first occurrence, as from `str::find` and a slice. -/
def behind (target : List Char) : List Char → Option (List Char)
  | [] => if target = [] then some [] else none
  | c::cs => if target <+: c::cs then some ((c::cs).drop target.length) else behind target cs

/-- A target occurs only where its first character does. -/
theorem infix_of_single (c : Char) (before rest t : List Char) (hb : c ∉ before) (hr : c ∉ rest) :
    c::t <:+: before++c::rest ↔ t <+: rest := by
  constructor
  · rintro ⟨l,r,h⟩
    have hsplit : before++c::rest = l++c::(t++r) := by simpa using h.symm
    obtain ⟨-,-,hrest⟩ := (List.append_cons_inj_of_notMem hb hr).mp hsplit
    exact ⟨r,hrest.symm⟩
  · rintro ⟨r,rfl⟩
    exact ⟨before,r,by simp⟩

theorem behind_first (c : Char) (t before rest : List Char) (hb : c ∉ before) :
    behind (c::t) (before++(c::t++rest)) = some rest := by
  induction before with
  | nil =>
    rw [List.nil_append, List.cons_append, behind, ← List.cons_append,
      if_pos (List.prefix_append (c::t) rest), List.drop_left]
  | cons d before ih =>
    have hne : ¬ c::t <+: d::(before++(c::t++rest)) := fun h =>
      hb (List.mem_cons.mpr (Or.inl (List.cons_prefix_cons.mp h).1))
    rw [List.cons_append, behind, if_neg hne]
    exact ih fun h => hb (List.mem_cons_of_mem d h)

theorem not_infix_of_not_mem (c : Char) (t cs : List Char) (h : c ∉ cs) : ¬ c::t <:+: cs := fun hi =>
  h (hi.subset List.mem_cons_self)

end RustChat.Text
