import RustChat.Text

/-!
# Compact JSON

The text of arrays and objects without white space, given the texts of their
elements, and of strings in which nothing has to be escaped.
-/

set_option autoImplicit false

namespace RustChat.Json

/-- Printed as it is: no quotation mark, no backslash, no control character. -/
def plain (c : Char) : Bool := decide (c ∉ "\"\\".toList ∧ 32 ≤ c.toNat)

def Plain (s : List Char) : Prop := s.all plain = true

def quote (s : List Char) : List Char := "\"".toList++s++"\"".toList

def commas : List (List Char) → List Char
  | [] => []
  | [x] => x
  | x::y::xs => x++",".toList++commas (y::xs)

def array (items : List (List Char)) : List Char := "[".toList++commas items++"]".toList

def member (name : String) (value : List Char) : List Char := quote name.toList++":".toList++value

def object (fields : List (String × List Char)) : List Char :=
  "\x7b".toList++commas (fields.map fun f => member f.1 f.2)++"\x7d".toList

/-- Everything that is printed besides names and values. -/
def punctuation : List Char := "\x7b\x7d[]\",:".toList

/-! ## Characters that do not occur -/

theorem ne_punctuation (c d : Char) (hc : c ∉ punctuation) (hd : d ∈ punctuation) : c ≠ d := fun h =>
  hc (h ▸ hd)

theorem not_mem_quote (c : Char) (s : List Char) (hc : c ∉ punctuation) (h : c ∉ s) : c ∉ quote s := by
  have hquote := ne_punctuation c '\"' hc (by decide)
  simp [quote, h, hquote]

theorem not_mem_member (c : Char) (name : String) (value : List Char) (hc : c ∉ punctuation)
    (hname : c ∉ name.toList) (hvalue : c ∉ value) : c ∉ member name value := by
  have hquoted := not_mem_quote c name.toList hc hname
  have hcolon := ne_punctuation c ':' hc (by decide)
  simp [member, hquoted, hcolon, hvalue]

theorem not_mem_commas (c : Char) (xs : List (List Char)) (hc : c ∉ punctuation)
    (h : ∀ x ∈ xs, c ∉ x) : c ∉ commas xs := by
  have hcomma := ne_punctuation c ',' hc (by decide)
  induction xs with
  | nil => exact List.not_mem_nil
  | cons x xs ih =>
    cases xs with
    | nil => exact h x List.mem_cons_self
    | cons y xs =>
      have hx := h x List.mem_cons_self
      have hrest := ih fun z hz => h z (List.mem_cons_of_mem _ hz)
      simp [commas, hx, hcomma, hrest]

theorem not_mem_array (c : Char) (items : List (List Char)) (hc : c ∉ punctuation)
    (h : ∀ x ∈ items, c ∉ x) : c ∉ array items := by
  have hitems := not_mem_commas c items hc h
  have hopen := ne_punctuation c '[' hc (by decide)
  have hclose := ne_punctuation c ']' hc (by decide)
  simp [array, hitems, hopen, hclose]

theorem not_mem_object (c : Char) (fields : List (String × List Char)) (hc : c ∉ punctuation)
    (h : ∀ f ∈ fields, c ∉ f.1.toList ∧ c ∉ f.2) : c ∉ object fields := by
  have hopen := ne_punctuation c '\x7b' hc (by decide)
  have hclose := ne_punctuation c '\x7d' hc (by decide)
  have hmembers : c ∉ commas (fields.map fun f => member f.1 f.2) := by
    refine not_mem_commas c _ hc fun x hx => ?_
    obtain ⟨f,hf,rfl⟩ := List.mem_map.mp hx
    exact not_mem_member c f.1 f.2 hc (h f hf).1 (h f hf).2
  simp only [object, List.mem_append, not_or]
  exact ⟨⟨by simpa using hopen,hmembers⟩,by simpa using hclose⟩

end RustChat.Json
