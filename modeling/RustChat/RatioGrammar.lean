import RustChat.Numeral
import RustChat.Ratio

/-!
# The grammar of ratios

Which texts `RatioSpec::parse` accepts, and what the `Display` of a ratio is
read back as.
-/

set_option autoImplicit false

namespace RustChat.RatioGrammar
open Fickle Text Ratio Numeral

/-- `BotType::as_str`. -/
def asStr : BotType → String
  | .normal => "normal"
  | .fickle => "fickle"
  | .spammer => "spammer"
  | .ghost => "ghost"
  | .quitter => "quitter"

def display (spec : RatioSpec) : String :=
  ",".intercalate (spec.entries.map fun entry => asStr entry.1++":"++toString entry.2)

/-! ## The grammar -/

/-- The text of one entry: a name and a number in range, with blanks around each. -/
def Entry (part : List Char) (entry : BotType × ℕ) : Prop :=
  ∃ name number, part = name++ ':'::number ∧ Padded (asStr entry.1).toList name ∧
    (∃ numeral, Padded numeral number ∧ Denotes numeral entry.2) ∧ 1 ≤ entry.2 ∧ entry.2 < u32Bound

/-- A text with these entries. -/
def Grammar (s : String) (entries : List (BotType × ℕ)) : Prop :=
  trim s.toList ≠ [] ∧ List.Forall₂ Entry ((trim s.toList).splitOn ',') entries

theorem fromStr_iff (s : String) (botType : BotType) : fromStr s = .ok botType ↔ s = asStr botType := by
  constructor
  · intro h
    unfold fromStr at h
    split at h <;> cases h <;> rfl
  · rintro rfl
    cases botType <;> rfl

theorem asStr_solid (botType : BotType) : Solid (asStr botType).toList := by
  have hall : (asStr botType).toList.all (fun c => !isWhitespace c) = true := by
    cases botType <;> decide
  intro c hc
  simpa using List.all_eq_true.mp hall c hc

theorem not_mem_asStr (botType : BotType) (c : Char) (hc : c ∈ ":,-".toList) :
    c ∉ (asStr botType).toList := by
  have hall : ":,-".toList.all (fun c => !decide (c ∈ (asStr botType).toList)) = true := by
    cases botType <;> decide
  simpa using List.all_eq_true.mp hall c hc

theorem parseRatio_iff (typeStr : String) (ratioStr : List Char) (n : ℕ) :
    parseRatio typeStr ratioStr = .ok n ↔ Denotes ratioStr n ∧ 1 ≤ n ∧ n < u32Bound := by
  have hread := fun m => parseUnsigned_iff u32Bound ratioStr m (by decide)
  unfold parseRatio
  split
  · rename_i hnone
    constructor
    · intro h
      cases h
    · rintro ⟨hd,-,hlt⟩
      rw [(hread n).mpr ⟨hd,hlt⟩] at hnone
      cases hnone
  · rename_i hzero
    constructor
    · intro h
      cases h
    · rintro ⟨hd,hpos,hlt⟩
      rw [(hread n).mpr ⟨hd,hlt⟩, Option.some.injEq] at hzero
      omega
  · rename_i m hm
    constructor
    · intro h
      cases h
      obtain ⟨hd,hlt⟩ := (hread (m+1)).mp hm
      exact ⟨hd,Nat.succ_pos m,hlt⟩
    · rintro ⟨hd,-,hlt⟩
      rw [(hread n).mpr ⟨hd,hlt⟩, Option.some.injEq] at hm
      rw [hm]

theorem parsePair_iff (typeStr ratioStr : List Char) (entry : BotType × ℕ) :
    parsePair typeStr ratioStr = .ok entry ↔
      typeStr = (asStr entry.1).toList ∧ Denotes ratioStr entry.2 ∧ 1 ≤ entry.2 ∧ entry.2 < u32Bound := by
  have hname : fromStr (String.ofList typeStr) = .ok entry.1 ↔ typeStr = (asStr entry.1).toList := by
    rw [fromStr_iff, ← String.toList_inj, String.toList_ofList]
  rw [← hname, ← parseRatio_iff (String.ofList typeStr)]
  unfold parsePair
  cases fromStr (String.ofList typeStr) with
  | error e => simp
  | ok botType =>
    cases parseRatio (String.ofList typeStr) ratioStr with
    | error e => simp [Except.map]
    | ok n => simp [Except.map, Prod.ext_iff]

/-- Only the first colon separates. -/
theorem parsePart_iff (part : List Char) (entry : BotType × ℕ) :
    parsePart (trim part) = .ok entry ↔ Entry part entry := by
  constructor
  · intro h
    unfold parsePart at h
    split at h
    · cases h
    · rename_i name number hsplit
      obtain ⟨hname,hnumber,hrange⟩ := (parsePair_iff _ _ entry).mp h
      obtain ⟨hcore,-⟩ := (splitOnce_iff ':' (trim part) name number).mp hsplit
      obtain ⟨l,r,hpart,hl,hr⟩ := trim_padded part
      refine ⟨l++name,number++r,by rw [hpart, hcore]; simp,?_,⟨trim number,?_,hnumber⟩,hrange⟩
      · rw [← trim_eq_iff _ _ (asStr_solid entry.1), trim_append_left l name hl, hname]
      · rw [← trim_append_right number r hr]
        exact trim_padded (number++r)
  · rintro ⟨name,number,rfl,hname,⟨numeral,hnumber,hden⟩,hrange⟩
    rw [← trim_eq_iff _ _ (asStr_solid entry.1)] at hname
    rw [← trim_eq_iff _ _ (denotes_solid numeral entry.2 hden)] at hnumber
    have hcolon : ':' ∉ name := by
      rw [← List.count_eq_zero, padded_count _ name ':' (by decide) (trim_padded name), hname,
        List.count_eq_zero]
      exact not_mem_asStr entry.1 ':' (by decide)
    have hsplit := (splitOnce_iff ':' (name++ ':'::number) name number).mpr ⟨rfl,hcolon⟩
    obtain ⟨name',number',hsplit',hname',hnumber'⟩ := splitOnce_trim ':' _ name number (by decide) hsplit
    rw [parsePart, hsplit']
    exact (parsePair_iff _ _ entry).mpr
      ⟨hname'.trans hname,by rw [hnumber', hnumber]; exact hden,hrange⟩

theorem parseParts_iff (parts : List (List Char)) (entries : List (BotType × ℕ)) :
    parseParts parts = .ok entries ↔ List.Forall₂ Entry parts entries := by
  induction parts generalizing entries with
  | nil =>
    rw [List.forall₂_nil_left_iff, parseParts, Except.ok.injEq]
    exact eq_comm
  | cons part parts ih =>
    rw [parseParts, List.forall₂_cons_left_iff]
    constructor
    · intro h
      cases hp : parsePart (trim part) with
      | error e => simp [hp] at h
      | ok entry =>
        cases hps : parseParts parts with
        | error e => simp [hp, hps, Except.map] at h
        | ok rest =>
          obtain rfl : entry::rest = entries := by simpa [hp, hps, Except.map] using h
          exact ⟨entry,rest,(parsePart_iff part entry).mp hp,(ih rest).mp hps,rfl⟩
    · rintro ⟨entry,rest,hentry,hrest,rfl⟩
      rw [(parsePart_iff part entry).mpr hentry, (ih rest).mpr hrest]
      rfl

theorem parse_ok_iff (s : String) (spec : RatioSpec) : parse s = .ok spec ↔ Grammar s spec.entries := by
  obtain ⟨entries⟩ := spec
  rw [Grammar, ← parseParts_iff]
  unfold parse parseTrimmed
  split_ifs with hs
  · simp [hs]
  · cases parseParts ((trim s.toList).splitOn ',') with
    | error e => simp [Except.map]
    | ok found => simp [Except.map, hs]

/-! ## What is refused -/

/-- Shapes that no entry has: an empty one, one without a colon or with a second
one, a minus sign, an unknown name, and a number out of range. -/
inductive Malformed (part : List Char) : Prop
  | colons (h : part.count ':' ≠ 1)
  | minus (h : '-' ∈ part)
  | name (name number : List Char) (h : part = name++ ':'::number) (hcolon : ':' ∉ name)
    (hname : ∀ botType, ¬ Padded (asStr botType).toList name)
  | range (name number numeral : List Char) (n : ℕ) (h : part = name++ ':'::number) (hcolon : ':' ∉ name)
    (hpad : Padded numeral number) (hnumeral : Denotes numeral n) (hn : n = 0 ∨ u32Bound ≤ n)

theorem entry_count (part : List Char) (entry : BotType × ℕ) (c : Char) (hc : c ∈ ":,-".toList)
    (h : Entry part entry) : part.count c = [':'].count c := by
  have hlist : ∀ c ∈ ":,-".toList, isWhitespace c = false ∧ c.isDigit = false ∧ c ≠ '+' := by
    simp [isWhitespace]
  obtain ⟨hblank,hdigit,hplus⟩ := hlist c hc
  obtain ⟨name,number,rfl,hname,⟨numeral,hnumber,hden⟩,-⟩ := h
  have hzero := List.count_eq_zero.mpr (not_mem_asStr entry.1 c hc)
  have hzero' := List.count_eq_zero.mpr (denotes_not_mem numeral entry.2 c hden hdigit hplus)
  rw [List.append_cons, List.count_append, List.count_append, padded_count _ name c hblank hname, hzero,
    padded_count _ number c hblank hnumber, hzero', Nat.zero_add, Nat.add_zero]

theorem malformed_not_entry (part : List Char) (entry : BotType × ℕ) (hm : Malformed part) :
    ¬ Entry part entry := by
  intro h
  have hcount := entry_count part entry ':' (by decide) h
  obtain ⟨name,number,hpart,hname,⟨numeral,hnumber,hden⟩,hrange⟩ := id h
  have hcolon : ':' ∉ name := by
    rw [← List.count_eq_zero, padded_count _ name ':' (by decide) hname, List.count_eq_zero]
    exact not_mem_asStr entry.1 ':' (by decide)
  have hsplit := (splitOnce_iff ':' part name number).mpr ⟨hpart,hcolon⟩
  cases hm with
  | colons hne => exact hne hcount
  | minus hminus =>
    exact List.count_eq_zero.mp (entry_count part entry '-' (by decide) h) hminus
  | name name' number' hpart' hcolon' hunknown =>
    rw [(splitOnce_iff ':' part name' number').mpr ⟨hpart',hcolon'⟩] at hsplit
    obtain ⟨rfl,rfl⟩ : name' = name ∧ number' = number := by simpa using hsplit
    exact hunknown entry.1 hname
  | range name' number' numeral' n hpart' hcolon' hpad hdenotes hn =>
    rw [(splitOnce_iff ':' part name' number').mpr ⟨hpart',hcolon'⟩] at hsplit
    obtain ⟨rfl,rfl⟩ : name' = name ∧ number' = number := by simpa using hsplit
    have hsame : numeral' = numeral :=
      ((trim_eq_iff numeral' number' (denotes_solid _ _ hdenotes)).mpr hpad).symm.trans
        ((trim_eq_iff numeral number' (denotes_solid _ _ hden)).mpr hnumber)
    subst hsame
    have hvalue := denotes_unique numeral' n entry.2 hdenotes hden
    omega

/-- A text is accepted with just the entries that the grammar gives it, and
refused as a whole if it gives it none, as where one part is malformed. -/
theorem parse_accepts_grammar (s : String) :
    (∀ entries, parse s = .ok ⟨entries⟩ ↔ Grammar s entries) ∧
    ((∀ entries, ¬ Grammar s entries) → ∃ e, parse s = .error e) ∧
    (trim s.toList = [] ∨ (∃ part ∈ (trim s.toList).splitOn ',', Malformed part) →
      ∃ e, parse s = .error e) := by
  have hrefused : (∀ entries, ¬ Grammar s entries) → ∃ e, parse s = .error e := fun hnone => by
    cases hp : parse s with
    | error e => exact ⟨e,rfl⟩
    | ok spec => exact absurd ((parse_ok_iff s spec).mp hp) (hnone spec.entries)
  refine ⟨fun entries => parse_ok_iff s ⟨entries⟩,hrefused,fun hbad => hrefused ?_⟩
  rintro entries ⟨hne,hall⟩
  rcases hbad with hnil | ⟨part,hpart,hm⟩
  · exact hne hnil
  · obtain ⟨i,hi,rfl⟩ := List.mem_iff_getElem.mp hpart
    have hi' : i < entries.length := hall.length_eq ▸ hi
    exact malformed_not_entry _ entries[i] hm (hall.get hi hi')

/-! ## What is printed -/

def entryText (entry : BotType × ℕ) : List Char := (asStr entry.1).toList++ ':'::decimal entry.2

theorem display_toList (spec : RatioSpec) :
    (display spec).toList = [','].intercalate (spec.entries.map entryText) := by
  rw [display, String.toList_intercalate, List.map_map]
  refine congrArg _ (List.map_congr_left fun entry _ => ?_)
  simp [entryText, decimal]

theorem entryText_entry (entry : BotType × ℕ) (h : 1 ≤ entry.2 ∧ entry.2 < u32Bound) :
    Entry (entryText entry) entry := by
  have hpadded : ∀ cs, Padded cs cs := fun cs => ⟨[],[],by simp,by simp [Blank],by simp [Blank]⟩
  exact ⟨_,_,rfl,hpadded _,⟨_,hpadded _,denotes_decimal entry.2⟩,h⟩

theorem entryText_solid (entry : BotType × ℕ) : Solid (entryText entry) := by
  intro c hc
  rcases List.mem_append.mp hc with hname | hrest
  · exact asStr_solid entry.1 c hname
  · rcases List.mem_cons.mp hrest with rfl | hnumber
    · decide
    · exact digit_solid c (decimal_isDigit entry.2 c hnumber)

theorem not_mem_entryText (entry : BotType × ℕ) : ',' ∉ entryText entry := by
  have hname := not_mem_asStr entry.1 ',' (by decide)
  have hnumber := not_mem_decimal entry.2 ',' (by decide)
  simp [entryText, hname, hnumber]

theorem intercalate_solid (texts : List (List Char)) (h : ∀ text ∈ texts, Solid text) :
    Solid ([','].intercalate texts) := by
  induction texts with
  | nil => simp [Solid]
  | cons text texts ih =>
    have htext := h text List.mem_cons_self
    have hrest := ih fun t ht => h t (List.mem_cons_of_mem _ ht)
    cases texts with
    | nil => simpa using htext
    | cons text' texts =>
      intro c hc
      rw [List.intercalate_cons_cons] at hc
      rcases List.mem_append.mp hc with hc | hc
      · rcases List.mem_append.mp hc with hc | hc
        · exact htext c hc
        · obtain rfl := List.mem_singleton.mp hc
          decide
      · exact hrest c hc

theorem display_grammar (spec : RatioSpec) (hne : spec.entries ≠ [])
    (hrange : ∀ entry ∈ spec.entries, 1 ≤ entry.2 ∧ entry.2 < u32Bound) :
    Grammar (display spec) spec.entries := by
  have hparts : ∀ text ∈ spec.entries.map entryText, ',' ∉ text := fun text htext => by
    obtain ⟨entry,-,rfl⟩ := List.mem_map.mp htext
    exact not_mem_entryText entry
  have hsolid : Solid ([','].intercalate (spec.entries.map entryText)) :=
    intercalate_solid _ fun text htext => by
      obtain ⟨entry,-,rfl⟩ := List.mem_map.mp htext
      exact entryText_solid entry
  have hsplit := List.splitOn_intercalate ',' hparts (by simpa using hne)
  rw [Grammar, display_toList, trim_solid _ hsolid, hsplit]
  refine ⟨fun hnil => ?_,?_⟩
  · rw [hnil] at hsplit
    cases hentries : spec.entries with
    | nil => exact hne hentries
    | cons entry entries => simp [hentries, entryText] at hsplit
  · rw [List.forall₂_map_left_iff, List.forall₂_same]
    exact fun entry hentry => entryText_entry entry (hrange entry hentry)

/-- Parsing undoes printing, and printing what was parsed loses nothing. -/
theorem ratio_round_trip :
    (∀ spec : RatioSpec, spec.entries ≠ [] →
      (∀ entry ∈ spec.entries, 1 ≤ entry.2 ∧ entry.2 < u32Bound) → parse (display spec) = .ok spec) ∧
    ∀ s spec, parse s = .ok spec → spec.entries ≠ [] ∧ (∀ entry ∈ spec.entries, 1 ≤ entry.2) ∧
      parse (display spec) = .ok spec := by
  have hprinted : ∀ spec : RatioSpec, spec.entries ≠ [] →
      (∀ entry ∈ spec.entries, 1 ≤ entry.2 ∧ entry.2 < u32Bound) → parse (display spec) = .ok spec :=
    fun spec hne hrange => (parse_ok_iff _ spec).mpr (display_grammar spec hne hrange)
  refine ⟨hprinted,fun s spec h => ?_⟩
  obtain ⟨hne,hrange⟩ := parse_accepted s spec h
  exact ⟨hne,fun entry hentry => (hrange entry hentry).1,hprinted spec hne hrange⟩

end RustChat.RatioGrammar
