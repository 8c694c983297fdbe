import TensorFS.Data.Text

namespace TensorFS.Data

/-! Compact JSON text, for encoders that differ in how they escape. -/

def jsonString (escape : Char → Text) (text : Text) : Text :=
  '"' :: text.flatMap escape ++ ['"']

def jsonArray (items : List Text) : Text :=
  '[' :: [','].intercalate items ++ [']']

/-- The names of members are written as they are. -/
def jsonMember (member : String × Text) : Text :=
  '"' :: member.1.toList ++ '"' :: ':' :: member.2

def jsonObject (members : List (String × Text)) : Text :=
  '\x7b' :: [','].intercalate (members.map jsonMember) ++ ['\x7d']

/-! Rewriting a finished text one scalar value at a time. -/

theorem flatMap_intercalate (rewrite : Char → Text) (sep : Text)
    (items : List Text) :
    (sep.intercalate items).flatMap rewrite =
      (sep.flatMap rewrite).intercalate
        (items.map fun item => item.flatMap rewrite) := by
  induction items with
  | nil => rfl
  | cons item items ih =>
      cases items with
      | nil => simp [List.intercalate]
      | cons next items =>
          rw [List.intercalate_cons_cons, List.map_cons, List.map_cons,
            List.intercalate_cons_cons, List.flatMap_append,
            List.flatMap_append, ih, List.map_cons]

section Rewrite

variable {rewrite : Char → Text}

/-- A text that rewriting leaves alone. -/
def Plain (rewrite : Char → Text) (text : Text) : Prop :=
  ∀ c ∈ text, rewrite c = [c]

theorem Plain.flatMap {text : Text} (h : Plain rewrite text) :
    text.flatMap rewrite = text := by
  induction text with
  | nil => rfl
  | cons c text ih =>
      rw [List.flatMap_cons, h c List.mem_cons_self,
        ih fun d hmem => h d (List.mem_cons_of_mem _ hmem)]
      rfl

theorem flatMap_cons_plain {c : Char} (h : rewrite c = [c]) (text : Text) :
    (c :: text).flatMap rewrite = c :: text.flatMap rewrite := by
  rw [List.flatMap_cons, h]
  rfl

theorem flatMap_jsonString {escape : Char → Text}
    (hquote : rewrite '"' = ['"']) (text : Text) :
    (jsonString escape text).flatMap rewrite =
      jsonString (fun c => (escape c).flatMap rewrite) text := by
  rw [jsonString, List.cons_append, flatMap_cons_plain hquote,
    List.flatMap_append, List.flatMap_assoc,
    flatMap_cons_plain hquote]
  rfl

theorem flatMap_jsonArray (hmarks : Plain rewrite ['[', ',', ']'])
    (items : List Text) :
    (jsonArray items).flatMap rewrite =
      jsonArray (items.map fun item => item.flatMap rewrite) := by
  rw [jsonArray, List.cons_append, flatMap_cons_plain (hmarks '[' (by simp)),
    List.flatMap_append, flatMap_intercalate,
    flatMap_cons_plain (hmarks ',' (by simp)),
    flatMap_cons_plain (hmarks ']' (by simp))]
  rfl

theorem flatMap_jsonMember (hmarks : Plain rewrite ['"', ':'])
    {member : String × Text} (hname : Plain rewrite member.1.toList) :
    (jsonMember member).flatMap rewrite =
      jsonMember (member.1, member.2.flatMap rewrite) := by
  rw [jsonMember, List.cons_append,
    flatMap_cons_plain (hmarks '"' (by simp)), List.flatMap_append,
    hname.flatMap, flatMap_cons_plain (hmarks '"' (by simp)),
    flatMap_cons_plain (hmarks ':' (by simp))]
  rfl

theorem flatMap_jsonObject (hmarks : Plain rewrite ['\x7b', '"', ':', ',', '\x7d'])
    {members : List (String × Text)}
    (hnames : ∀ member ∈ members, Plain rewrite member.1.toList) :
    (jsonObject members).flatMap rewrite =
      jsonObject
        (members.map fun member => (member.1, member.2.flatMap rewrite)) := by
  have hmember : (members.map jsonMember).map (fun text =>
      text.flatMap rewrite) = (members.map fun member =>
        (member.1, member.2.flatMap rewrite)).map jsonMember := by
    rw [List.map_map, List.map_map]
    apply List.map_congr_left
    intro member hmem
    exact flatMap_jsonMember (fun c hc => hmarks c (by
      simp only [List.mem_cons, List.not_mem_nil, or_false] at hc ⊢
      tauto)) (hnames member hmem)
  rw [jsonObject, List.cons_append,
    flatMap_cons_plain (hmarks '\x7b' (by simp)), List.flatMap_append,
    flatMap_intercalate, flatMap_cons_plain (hmarks ',' (by simp)),
    flatMap_cons_plain (hmarks '\x7d' (by simp)), hmember]
  rfl

end Rewrite

end TensorFS.Data
