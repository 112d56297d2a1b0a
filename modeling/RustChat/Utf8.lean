import Mathlib.Data.List.Basic

/-!
# Lossy decoding of UTF-8

`String::from_utf8_lossy`: well-formed characters are decoded, and each
maximal ill-formed piece becomes one replacement character. Well-formedness
is that of the core decoder, and the length of an ill-formed piece follows
the published table of admissible second bytes.
-/

set_option autoImplicit false

namespace RustChat.Utf8

def asBytes (s : String) : List UInt8 := s.toByteArray.data.toList

def decodeFirst (bs : List UInt8) : Option Char := bs.toByteArray.utf8DecodeChar? 0

def isContinuation (b : UInt8) : Bool := 0x80 ≤ b && b ≤ 0xBF

/-- May `b` follow `a` at the start of a character of three or four bytes? -/
def secondOk (a b : UInt8) : Bool :=
  if a = 0xE0 then 0xA0 ≤ b && b ≤ 0xBF
  else if a = 0xED then 0x80 ≤ b && b ≤ 0x9F
  else if a = 0xF0 then 0x90 ≤ b && b ≤ 0xBF
  else if a = 0xF4 then 0x80 ≤ b && b ≤ 0x8F
  else isContinuation b

/-- How many bytes one replacement character stands for, when the text does
not start with a character. A byte past the end counts as zero. -/
def brokenLength (bs : List UInt8) : ℕ :=
  let a := bs.getD 0 0
  if 0xE0 ≤ a && a ≤ 0xEF then if secondOk a (bs.getD 1 0) then 2 else 1
  else if 0xF0 ≤ a && a ≤ 0xF4 then
    if secondOk a (bs.getD 1 0) then if isContinuation (bs.getD 2 0) then 3 else 2 else 1
  else 1

/-- Every round drops a byte at least, so the length of the text is fuel enough. -/
def lossyChars : ℕ → List UInt8 → List Char
  | 0, _ => []
  | _+1, [] => []
  | n+1, b::bs =>
    match decodeFirst (b::bs) with
    | some c => c::lossyChars n ((b::bs).drop c.utf8Size)
    | none => '\uFFFD'::lossyChars n ((b::bs).drop (brokenLength (b::bs)))

def fromUtf8Lossy (bs : List UInt8) : String := String.ofList (lossyChars bs.length bs)

theorem asBytes_ofList (cs : List Char) :
    asBytes (String.ofList cs) = cs.flatMap String.utf8EncodeChar := by
  simp [asBytes, String.toByteArray_ofList, List.utf8Encode]

theorem decodeFirst_encoded (c : Char) (bs : List UInt8) :
    decodeFirst (String.utf8EncodeChar c++bs) = some c := by
  rw [decodeFirst, List.toByteArray_append]
  exact ByteArray.utf8DecodeChar?_utf8EncodeChar_append

theorem lossyChars_encoded (cs : List Char) (n : ℕ)
    (hn : (cs.flatMap String.utf8EncodeChar).length ≤ n) :
    lossyChars n (cs.flatMap String.utf8EncodeChar) = cs := by
  induction cs generalizing n with
  | nil => cases n <;> rfl
  | cons c cs ih =>
    obtain ⟨b,bs,hb⟩ := List.exists_cons_of_ne_nil (String.utf8EncodeChar_ne_nil (c := c))
    have hd := decodeFirst_encoded c (cs.flatMap String.utf8EncodeChar)
    have hlen : (String.utf8EncodeChar c).length = c.utf8Size := String.length_utf8EncodeChar c
    have hdrop : (String.utf8EncodeChar c++cs.flatMap String.utf8EncodeChar).drop c.utf8Size =
        cs.flatMap String.utf8EncodeChar := by rw [← hlen, List.drop_left]
    rw [List.flatMap_cons] at hn ⊢
    rw [List.length_append] at hn
    rw [hb] at hd hdrop hlen hn ⊢
    cases n with
    | zero => simp at hn
    | succ n =>
      simp only [List.length_cons] at hn
      simp only [List.cons_append, lossyChars] at hd hdrop ⊢
      rw [hd]
      simp only [hdrop]
      rw [ih n (by omega)]

/-- On the bytes of a string the lossy decoding loses nothing. -/
theorem fromUtf8Lossy_asBytes (s : String) : fromUtf8Lossy (asBytes s) = s := by
  obtain ⟨cs,rfl⟩ := s.exists_eq_ofList
  rw [fromUtf8Lossy, asBytes_ofList, lossyChars_encoded cs _ (Nat.le_refl _)]

example : lossyChars 5 [0x61,0xF0,0x90,0x80,0x62] = ['a','\uFFFD','b'] := by decide

example : lossyChars 3 [0xED,0xA0,0x41] = ['\uFFFD','\uFFFD','A'] := by decide

end RustChat.Utf8
