import Mathlib.Data.List.TakeWhile
import Mathlib.Tactic.Common
import RustChat.Protocol
import RustChat.Utf8

/-!
# Bounded line reading

`read_line_bounded` over a buffered reader. How many bytes one `fill_buf`
offers is an input: any positive number at every call, so the stream may be
split anywhere, and differently after each `consume`. No read error occurs.
-/

set_option autoImplicit false

namespace RustChat.LineReader
open Utf8

def newline : UInt8 := 10
def carriageReturn : UInt8 := 13

/-- The bytes not yet consumed, and one less than what the calls of `fill_buf`
to come offer at most. -/
structure Reader where
  rest : List UInt8
  sizes : ℕ → ℕ

/-- The chunk is empty only at the end of the stream. -/
def fillBuf (r : Reader) : List UInt8 := r.rest.take (r.sizes 0+1)

def consume (r : Reader) (n : ℕ) : Reader := ⟨r.rest.drop n,fun i => r.sizes (i+1)⟩

/-- Append `part` to the buffer as far as `max_len` allows. -/
def absorb (maxLen : ℕ) (buf : List UInt8) (overflow : Bool) (part : List UInt8) :
    List UInt8 × Bool :=
  if overflow then (buf,true)
  else (buf++part.take (min part.length (maxLen-buf.length)),
    decide (maxLen-buf.length < part.length))

def dropCarriageReturn (buf : List UInt8) : List UInt8 :=
  if buf.getLast? = some carriageReturn then buf.dropLast else buf

/-- What one round of the loop does with a chunk: return a value after
consuming some bytes, or consume some and go round with buffer and flag. -/
inductive Round where
  | done (line : Option String) (consumed : ℕ)
  | more (buf : List UInt8) (overflow : Bool) (consumed : ℕ)

def readRound (maxLen : ℕ) (buf : List UInt8) (overflow : Bool) (chunk : List UInt8) : Round :=
  if chunk = [] then
    if buf = [] ∧ overflow = false then .done none 0
    else if overflow then .done (some "") 0
    else .done (some (fromUtf8Lossy buf)) 0
  else match chunk.findIdx? (· = newline) with
    | some pos =>
      let (buf,overflow) := absorb maxLen buf overflow (chunk.take pos)
      if overflow then .done (some "") (pos+1)
      else .done (some (fromUtf8Lossy (dropCarriageReturn buf))) (pos+1)
    | none =>
      let (buf,overflow) := absorb maxLen buf overflow chunk
      .more buf overflow chunk.length

theorem readRound_more (maxLen : ℕ) (buf : List UInt8) (overflow : Bool) (chunk : List UInt8)
    (buf' : List UInt8) (overflow' : Bool) (n : ℕ)
    (h : readRound maxLen buf overflow chunk = .more buf' overflow' n) :
    chunk ≠ [] ∧ n = chunk.length := by
  unfold readRound at h
  split_ifs at h with hc
  split at h
  · simp only at h
    split_ifs at h
  · cases h
    exact ⟨hc,rfl⟩

def readLoop (maxLen : ℕ) (r : Reader) (buf : List UInt8) (overflow : Bool) :
    Option String × Reader :=
  match _h : readRound maxLen buf overflow (fillBuf r) with
  | .done line n => (line,consume r n)
  | .more buf overflow n => readLoop maxLen (consume r n) buf overflow
termination_by r.rest.length
decreasing_by
  obtain ⟨hc,rfl⟩ := readRound_more maxLen _ _ _ _ _ n _h
  have hpos := List.length_pos_iff.mpr hc
  simp only [consume, List.length_drop, fillBuf, List.length_take] at *
  omega

def readLineBounded (maxLen : ℕ) (r : Reader) : Option String × Reader := readLoop maxLen r [] false

end RustChat.LineReader
