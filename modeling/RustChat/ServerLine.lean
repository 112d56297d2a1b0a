import RustChat.Json
import RustChat.Protocol

/-!
# The lines of the server

`serde_json::to_string` at `ServerMsg` is a parameter. What is relied on is
that it prints the derived layout: compact, the tag first, the fields in the
order of their declaration, texts without escapes where none is needed. The
layout decides which lines contain the target of a bot.
-/

set_option autoImplicit false

namespace RustChat.ServerLine
open Protocol Text Json

def chatText (id seq : ℕ) : String := "bot_"++toString id++"_msg_"++toString seq

def target (id : ℕ) : String := "bot_"++toString id++"_msg_"

/-- What a refused connection is told. -/
def fullMessage : String := "서버가 가득 찼습니다 (최대 500인)"

def contains (line target : String) : Bool := decide (target.toList <:+: line.toList)

/-- The layout that is derived for a message, given the texts of the percentages. -/
def layout (percentages : Counts → List (List Char)) : ServerMsg → List Char
  | .welcome peerCount =>
    object [("type",quote "welcome".toList),("peer_count",decimal peerCount)]
  | .chat sender nick text sentAt clientTs =>
    object [("type",quote "chat".toList),("from",decimal sender),
      ("nick",(nick.map fun name => quote name.toList).getD "null".toList),("text",quote text.toList),
      ("sent_at",decimal sentAt),("client_ts",decimal clientTs)]
  | .voteSnapshot counts =>
    object [("type",quote "vote_snapshot".toList),("counts",array ((List.ofFn counts).map decimal)),
      ("percentages",array (percentages counts))]
  | .presence id joined =>
    object [("type",quote "presence".toList),("id",decimal id),("joined",(toString joined).toList)]
  | .error msg => object [("type",quote "error".toList),("msg",quote msg.toList)]

/-- Its texts need no escapes. -/
def Printable : ServerMsg → Prop
  | .chat _ nick text _ _ => Plain text.toList ∧ ∀ name, nick = some name → Plain name.toList
  | .error msg => Plain msg.toList
  | _ => True

/-- What the bots rely on of `serde_json::to_string` at `ServerMsg`. A float is
a decimal fraction, with or without an exponent, or `null`. -/
structure Documented (serde : ServerMsg → String) (percentages : Counts → List (List Char)) : Prop where
  line : ∀ msg, Printable msg → (serde msg).toList = layout percentages msg
  float : ∀ counts, ∀ text ∈ percentages counts, ∀ c ∈ text, c.isDigit = true ∨ c ∈ ".-+enul".toList

/-- What a bot can hear: a message of a bot, or a line that is no chat. Nobody
in a scenario of normal bots has a nickname. -/
inductive Heard where
  | chat (bot seq sender sentAt clientTs : ℕ)
  | welcome (peerCount : ℕ)
  | presence (id : ℕ) (joined : Bool)
  | voteSnapshot (counts : Counts)
  | full

def Heard.msg : Heard → ServerMsg
  | .chat bot seq sender sentAt clientTs => .chat sender none (chatText bot seq) sentAt clientTs
  | .welcome peerCount => .welcome peerCount
  | .presence id joined => .presence id joined
  | .voteSnapshot counts => .voteSnapshot counts
  | .full => .error fullMessage

def ownSeq (id : ℕ) : Heard → Option ℕ
  | .chat bot seq _ _ _ => if bot = id then some seq else none
  | _ => none

/-! ## The texts -/

theorem chatText_toList (id seq : ℕ) :
    (chatText id seq).toList = "bot_".toList++decimal id++"_msg_".toList++decimal seq := by
  simp [chatText, decimal]

theorem target_toList (id : ℕ) : (target id).toList = "bot_".toList++decimal id++"_msg_".toList := by
  simp [target, decimal]

theorem digit_plain (c : Char) (h : c.isDigit = true) : plain c = true := by
  have hrange : 48 ≤ c.toNat ∧ c.toNat ≤ 57 := by
    simpa [Char.isDigit, UInt32.le_iff_toNat_le] using h
  refine decide_eq_true ⟨fun hm => ?_,by omega⟩
  have hcases : c.toNat = 34 ∨ c.toNat = 92 := by
    rcases List.mem_cons.mp hm with rfl | hm
    · exact Or.inl rfl
    · exact Or.inr (by rw [List.mem_singleton.mp hm]; rfl)
  omega

theorem plain_append (s t : List Char) (hs : Plain s) (ht : Plain t) : Plain (s++t) := by
  unfold Plain at *
  simp [List.all_append, hs, ht]

theorem plain_decimal (n : ℕ) : Plain (decimal n) :=
  List.all_eq_true.mpr fun c hc => digit_plain c (decimal_isDigit n c hc)

theorem heard_printable (h : Heard) : Printable h.msg := by
  cases h with
  | chat bot seq sender sentAt clientTs =>
    refine ⟨?_,fun name hname => by cases hname⟩
    rw [chatText_toList]
    have hbot : Plain "bot_".toList := by unfold Plain; decide
    have hmsg : Plain "_msg_".toList := by unfold Plain; decide
    exact plain_append _ _ (plain_append _ _ (plain_append _ _ hbot (plain_decimal _)) hmsg) (plain_decimal _)
  | full => unfold Heard.msg Printable Plain; decide
  | welcome | presence | voteSnapshot => trivial

/-! ## The chat line around its text -/

def beforeText (sender : ℕ) : List Char :=
  "\x7b".toList++member "type" (quote "chat".toList)++",".toList++member "from" (decimal sender)++
    ",".toList++member "nick" "null".toList++",".toList++member "text" "\"".toList

def afterText (sentAt clientTs : ℕ) : List Char :=
  "\"".toList++",".toList++member "sent_at" (decimal sentAt)++",".toList++
    member "client_ts" (decimal clientTs)++"\x7d".toList

theorem layout_chat (percentages : Counts → List (List Char)) (sender : ℕ) (text : String)
    (sentAt clientTs : ℕ) :
    layout percentages (.chat sender none text sentAt clientTs) =
      beforeText sender++text.toList++afterText sentAt clientTs := by
  have hquote : member "text" (quote text.toList) =
      member "text" "\"".toList++text.toList++"\"".toList := by
    simp only [member, quote, List.append_assoc]
  simp only [layout, object, List.map_cons, List.map_nil, commas, Option.map_none, Option.getD_none,
    hquote, beforeText, afterText, List.append_assoc]

theorem not_mem_beforeText (sender : ℕ) : 'b' ∉ beforeText sender := by
  have hb : 'b' ∉ punctuation := by decide
  have htype := not_mem_member 'b' "type" (quote "chat".toList) hb (by decide) (by decide)
  have hfrom := not_mem_member 'b' "from" (decimal sender) hb (by decide)
    (not_mem_decimal sender 'b' (by decide))
  have hnick := not_mem_member 'b' "nick" "null".toList hb (by decide) (by decide)
  have htext := not_mem_member 'b' "text" "\"".toList hb (by decide) (by decide)
  simp only [beforeText, List.mem_append, htype, hfrom, hnick, htext, or_false]
  decide

theorem not_mem_afterText (sentAt clientTs : ℕ) : 'b' ∉ afterText sentAt clientTs := by
  have hb : 'b' ∉ punctuation := by decide
  have hsent := not_mem_member 'b' "sent_at" (decimal sentAt) hb (by decide)
    (not_mem_decimal sentAt 'b' (by decide))
  have hclient := not_mem_member 'b' "client_ts" (decimal clientTs) hb (by decide)
    (not_mem_decimal clientTs 'b' (by decide))
  simp only [afterText, List.mem_append, hsent, hclient, or_false]
  decide

/-! ## Whose line it is -/

/-- The only `b` of a line is the one its text starts with. -/
theorem target_in_chat (percentages : Counts → List (List Char)) (id bot seq sender sentAt clientTs : ℕ) :
    (target id).toList <:+: layout percentages (.chat sender none (chatText bot seq) sentAt clientTs) ↔
      bot = id := by
  have hbot : "bot_".toList = 'b'::"ot_".toList := by decide
  have hmsg : "_msg_".toList = '_'::"msg_".toList := by decide
  have hline : layout percentages (.chat sender none (chatText bot seq) sentAt clientTs) =
      beforeText sender++ 'b'::("ot_".toList++(decimal bot++ '_'::("msg_".toList++decimal seq++
        afterText sentAt clientTs))) := by
    rw [layout_chat, chatText_toList, hbot, hmsg]
    simp only [List.append_assoc, List.cons_append]
  have htarget : (target id).toList = 'b'::("ot_".toList++(decimal id++ '_'::"msg_".toList)) := by
    rw [target_toList, hbot, hmsg]
    simp only [List.append_assoc, List.cons_append]
  have hrest : 'b' ∉ "ot_".toList++(decimal bot++ '_'::("msg_".toList++decimal seq++
      afterText sentAt clientTs)) := by
    have hbot := not_mem_decimal bot 'b' (by decide)
    have hseq := not_mem_decimal seq 'b' (by decide)
    have hafter := not_mem_afterText sentAt clientTs
    simp [hbot, hseq, hafter]
  rw [hline, htarget, infix_of_single _ _ _ _ (not_mem_beforeText sender) hrest,
    List.prefix_append_right_inj, decimal_prefix_iff _ _ _ _ _ (by decide), List.append_assoc]
  exact ⟨fun h => h.1.symm,fun h => ⟨h.symm,List.prefix_append _ _⟩⟩

theorem not_mem_other (percentages : Counts → List (List Char))
    (hfloat : ∀ counts, ∀ text ∈ percentages counts, ∀ c ∈ text, c.isDigit = true ∨ c ∈ ".-+enul".toList)
    (h : Heard) (hother : ∀ bot seq sender sentAt clientTs, h ≠ .chat bot seq sender sentAt clientTs) :
    'b' ∉ layout percentages h.msg := by
  have hnum : ∀ n, 'b' ∉ decimal n := fun n => not_mem_decimal n 'b' (by decide)
  have hb : 'b' ∉ punctuation := by decide
  cases h with
  | chat bot seq sender sentAt clientTs => exact absurd rfl (hother bot seq sender sentAt clientTs)
  | welcome peerCount =>
    refine not_mem_object _ _ hb fun f hf => ?_
    simp only [List.mem_cons, List.not_mem_nil, or_false] at hf
    rcases hf with rfl | rfl
    · decide
    · exact ⟨show 'b' ∉ "peer_count".toList by decide,hnum _⟩
  | presence id joined =>
    refine not_mem_object _ _ hb fun f hf => ?_
    simp only [List.mem_cons, List.not_mem_nil, or_false] at hf
    rcases hf with rfl | rfl | rfl
    · decide
    · exact ⟨show 'b' ∉ "id".toList by decide,hnum _⟩
    · exact ⟨show 'b' ∉ "joined".toList by decide,by cases joined <;> decide⟩
  | voteSnapshot counts =>
    refine not_mem_object _ _ hb fun f hf => ?_
    simp only [List.mem_cons, List.not_mem_nil, or_false] at hf
    rcases hf with rfl | rfl | rfl
    · decide
    · refine ⟨show 'b' ∉ "counts".toList by decide,not_mem_array _ _ hb fun x hx => ?_⟩
      obtain ⟨n,_,rfl⟩ := List.mem_map.mp hx
      exact hnum n
    · refine ⟨show 'b' ∉ "percentages".toList by decide,not_mem_array _ _ hb fun x hx hc => ?_⟩
      exact absurd (hfloat counts x hx _ hc) (by decide)
  | full =>
    refine not_mem_object _ _ hb fun f hf => ?_
    simp only [List.mem_cons, List.not_mem_nil, or_false] at hf
    rcases hf with rfl | rfl <;> decide

/-- A line contains the target of a bot if and only if it is a chat of that bot. -/
theorem contains_target (serde : ServerMsg → String) (percentages : Counts → List (List Char))
    (hdoc : Documented serde percentages) (id : ℕ) (h : Heard) :
    contains (serde h.msg) (target id) = (ownSeq id h).isSome := by
  rw [contains, hdoc.line _ (heard_printable h), Bool.eq_iff_iff, decide_eq_true_eq]
  have hother : (∀ bot seq sender sentAt clientTs, h ≠ .chat bot seq sender sentAt clientTs) →
      ¬ (target id).toList <:+: layout percentages h.msg := fun hne => by
    rw [target_toList]
    exact not_infix_of_not_mem 'b' _ _ (not_mem_other percentages hdoc.float h hne)
  cases h with
  | chat bot seq sender sentAt clientTs =>
    refine (target_in_chat percentages id bot seq sender sentAt clientTs).trans ?_
    by_cases hb : bot = id <;> simp [ownSeq, hb]
  | welcome | presence | voteSnapshot | full => simpa [ownSeq] using hother (by simp)

end RustChat.ServerLine
