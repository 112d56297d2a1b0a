import RustChat.Fickle
import RustChat.Text

/-!
# The ratio of bot types

`RatioSpec::parse`, with the error text of every refusal. What it accepts has
at least one entry, and every ratio is a positive 32-bit number.
-/

set_option autoImplicit false

namespace RustChat.Ratio
open Fickle Text

def u32Bound : ℕ := 2^32

structure RatioSpec where
  entries : List (BotType × ℕ)
  deriving DecidableEq, Repr

def defaultRatio : String := "normal:40,spammer:20,fickle:20,ghost:10,quitter:10"

def fromStr (s : String) : Except String BotType :=
  match s with
  | "normal" => .ok .normal
  | "fickle" => .ok .fickle
  | "spammer" => .ok .spammer
  | "ghost" => .ok .ghost
  | "quitter" => .ok .quitter
  | other => .error ("유효하지 않은 봇 타입: '"++other++"'")

/-- The number of one entry; `typeStr` is for the text of the error. -/
def parseRatio (typeStr : String) (ratioStr : List Char) : Except String ℕ :=
  match parseUnsigned u32Bound ratioStr with
  | none => .error ("비율 값이 유효한 숫자가 아닙니다: '"++String.ofList ratioStr++"'")
  | some 0 => .error ("비율 값은 1 이상이어야 합니다: '"++typeStr++":0'")
  | some (n+1) => .ok (n+1)

def parsePair (typeStr ratioStr : List Char) : Except String (BotType × ℕ) :=
  match fromStr (String.ofList typeStr) with
  | .error e => .error e
  | .ok botType => (parseRatio (String.ofList typeStr) ratioStr).map (botType,·)

def parsePart (part : List Char) : Except String (BotType × ℕ) :=
  match splitOnce ':' part with
  | none => .error ("잘못된 형식: '"++String.ofList part++"' ('타입:숫자' 형식이어야 합니다)")
  | some (typeStr,ratioStr) => parsePair (trim typeStr) (trim ratioStr)

def parseParts : List (List Char) → Except String (List (BotType × ℕ))
  | [] => .ok []
  | part::parts =>
    match parsePart (trim part) with
    | .error e => .error e
    | .ok entry => (parseParts parts).map (entry::·)

def parseTrimmed (s : List Char) : Except String RatioSpec :=
  if s = [] then .error "비율 문자열이 비어 있습니다"
  else (parseParts (s.splitOn ',')).map RatioSpec.mk

def parse (s : String) : Except String RatioSpec := parseTrimmed (trim s.toList)

theorem parsePart_range (part : List Char) (entry : BotType × ℕ) (h : parsePart part = .ok entry) :
    1 ≤ entry.2 ∧ entry.2 < u32Bound := by
  unfold parsePart at h
  split at h
  · cases h
  · rename_i typeStr ratioStr _
    unfold parsePair at h
    split at h
    · cases h
    · rename_i botType _
      cases hr : parseRatio (String.ofList (trim typeStr)) (trim ratioStr) with
      | error e => simp [hr, Except.map] at h
      | ok n =>
        obtain rfl : (botType,n) = entry := by simpa [hr, Except.map] using h
        unfold parseRatio at hr
        split at hr
        · cases hr
        · cases hr
        · rename_i m hm
          cases hr
          exact ⟨Nat.succ_pos m,parseUnsigned_lt u32Bound _ _ (by decide) hm⟩

theorem parseParts_entries (parts : List (List Char)) (entries : List (BotType × ℕ))
    (h : parseParts parts = .ok entries) :
    entries.length = parts.length ∧ ∀ entry ∈ entries, 1 ≤ entry.2 ∧ entry.2 < u32Bound := by
  induction parts generalizing entries with
  | nil =>
    cases h
    simp
  | cons part parts ih =>
    simp only [parseParts] at h
    cases hp : parsePart (trim part) with
    | error e => simp [hp] at h
    | ok entry =>
      cases hps : parseParts parts with
      | error e => simp [hp, hps, Except.map] at h
      | ok rest =>
        obtain rfl : entry::rest = entries := by simpa [hp, hps, Except.map] using h
        obtain ⟨hlen,hall⟩ := ih rest hps
        refine ⟨by simp [hlen],fun x hx => ?_⟩
        rcases List.mem_cons.mp hx with rfl | hx
        · exact parsePart_range (trim part) x hp
        · exact hall x hx

/-- An accepted ratio has an entry, and each of its numbers is in range. -/
theorem parse_accepted (s : String) (spec : RatioSpec) (h : parse s = .ok spec) :
    spec.entries ≠ [] ∧ ∀ entry ∈ spec.entries, 1 ≤ entry.2 ∧ entry.2 < u32Bound := by
  unfold parse parseTrimmed at h
  split_ifs at h with hs
  cases hp : parseParts ((trim s.toList).splitOn ',') with
  | error e => simp [hp, Except.map] at h
  | ok entries =>
    obtain rfl : (⟨entries⟩ : RatioSpec) = spec := by simpa [hp, Except.map] using h
    obtain ⟨hlen,hall⟩ := parseParts_entries _ entries hp
    refine ⟨fun hnil => ?_,hall⟩
    rw [show entries = [] from hnil, List.length_nil] at hlen
    exact List.splitOn_ne_nil ',' _ (List.eq_nil_of_length_eq_zero hlen.symm)

example : parse " normal:40 , fickle:+07" = .ok ⟨[(.normal,40),(.fickle,7)]⟩ := by decide

end RustChat.Ratio
