import TensorFS.Contract.Pattern
import TensorFS.Data.Numeral

namespace TensorFS

open Data

/-! Names that a pattern matches, and names that it generates. -/

/-- The piece ends a run of digits. -/
def Piece.Ends : Piece → Prop
  | .literal (c :: _) => isAsciiDigit c = false
  | _ => False

namespace Pattern

/-- Every hole is the last piece or has its digits ended by the next one. -/
def Anchored : List Piece → Prop
  | [] => True
  | .literal _ :: pieces => Anchored pieces
  | .integer :: pieces =>
      (∀ next ∈ pieces.head?, next.Ends) ∧ Anchored pieces

/-! What the parser leaves behind. -/

theorem findHole_eq_some {text before after : Text}
    (h : findHole text = some (before, after)) :
    text = before ++ ['{', 'i', '}'] ++ after := by
  induction text generalizing before after with
  | nil => cases h
  | cons c rest ih =>
      unfold findHole at h
      split at h
      · rename_i hhole
        cases h
        rw [hhole.1, List.nil_append]
        conv_lhs => rw [← List.take_append_drop 2 rest, hhole.2]
        rfl
      · obtain ⟨⟨front, back⟩, hfound, heq⟩ := Option.map_eq_some_iff.mp h
        cases heq
        rw [ih hfound]
        rfl

theorem parsePieces_anchored {rounds : Nat} {lastWasHole : Bool}
    {rest : Text} {pieces : List Piece}
    (h : parsePieces rounds lastWasHole rest = some pieces)
    (hrest : lastWasHole = true → rest.head?.any isAsciiDigit = false) :
    Anchored pieces ∧
      (lastWasHole = true → ∀ next ∈ pieces.head?, next.Ends) := by
  induction rounds generalizing lastWasHole rest pieces with
  | zero =>
      cases rest with
      | nil =>
          cases h
          exact ⟨trivial, nofun⟩
      | cons c rest => cases h
  | succ rounds ih =>
      cases rest with
      | nil =>
          cases h
          exact ⟨trivial, nofun⟩
      | cons c rest =>
          unfold parsePieces at h
          split at h
          · cases h
            refine ⟨trivial, fun hlast next hnext => ?_⟩
            cases hnext
            exact hrest hlast
          · rename_i before after hfound
            have htext := findHole_eq_some hfound
            split at h
            · cases h
            · rename_i hadjacent
              split at h
              · cases h
              · rename_i hdigit
                obtain ⟨tail, htail, hpieces⟩ := Option.map_eq_some_iff.mp h
                subst hpieces
                obtain ⟨hanchored, hnext⟩ :=
                  ih htail fun _ => Bool.eq_false_iff.mpr hdigit
                have hhole : Anchored (.integer :: tail) :=
                  ⟨hnext rfl, hanchored⟩
                cases before with
                | nil =>
                    rw [if_pos rfl, List.nil_append]
                    exact ⟨hhole, fun hlast => absurd ⟨rfl, hlast⟩ hadjacent⟩
                | cons d before =>
                    refine ⟨hhole, fun hlast next hmem => ?_⟩
                    cases hmem
                    cases htext
                    exact hrest hlast

theorem parse_anchored {text : Text} {pattern : Pattern}
    (h : parse text = .ok pattern) : Anchored pattern.pieces := by
  simp only [parse, except_bind_eq_ok] at h
  obtain ⟨_, -, h⟩ := h
  split at h
  · cases h
  · rename_i pieces hpieces
    simp only [except_bind_eq_ok, Except.ok.injEq] at h
    obtain ⟨_, -, rfl⟩ := h
    exact (parsePieces_anchored hpieces fun h => by cases h).1

/-! From a name to its values. -/

theorem parseU64_decimal {digits : Text} {value : Nat} (hne : digits ≠ [])
    (hzero : ¬ (1 < digits.length ∧ digits.head? = some '0'))
    (hdigits : ∀ c ∈ digits, c.isDigit = true)
    (h : parseU64 digits = some value) : decimal value = digits := by
  have hplus : digits.head? ≠ some '+' := by
    intro hhead
    exact absurd (hdigits '+' (List.mem_of_head? hhead)) (by decide)
  have hvalue : digitsValue digits = value := by
    simp only [parseU64, if_neg hplus] at h
    split at h
    · exact Option.some.inj h
    · cases h
  rw [← hvalue]
  by_cases hhead : digits.head? = some '0'
  · obtain ⟨rest, rfl⟩ := List.head?_eq_some_iff.mp hhead
    cases rest with
    | nil => rfl
    | cons c rest => exact absurd ⟨by simp, rfl⟩ hzero
  · exact decimal_digitsValue hne hdigits hhead

theorem fillFrom_of_capturesFrom {pieces : List Piece} {name : Text}
    {values : List Nat} (h : capturesFrom pieces name = some values) :
    fillFrom pieces values = some name ∧
      values.length = pieces.countP Piece.isInteger := by
  induction pieces generalizing name values with
  | nil =>
      unfold capturesFrom at h
      split at h
      · rename_i hnil
        cases h
        exact ⟨congrArg some hnil.symm, rfl⟩
      · cases h
  | cons piece pieces ih =>
      cases piece with
      | literal text =>
          simp only [capturesFrom, Option.bind_eq_bind,
            Option.bind_eq_some_iff] at h
          obtain ⟨rest, hstrip, hrest⟩ := h
          obtain ⟨hfill, hcount⟩ := ih hrest
          rw [fillFrom, hfill, stripPrefix_eq_some.mp hstrip]
          exact ⟨rfl, by rw [hcount]; rfl⟩
      | integer =>
          simp only [capturesFrom] at h
          split at h
          · cases h
          · rename_i hnumber
            simp only [Option.bind_eq_bind, Option.bind_eq_some_iff,
              Option.some.injEq] at h
            obtain ⟨value, hvalue, rest, hrest, rfl⟩ := h
            rw [not_or] at hnumber
            obtain ⟨hfill, hcount⟩ := ih hrest
            have hdecimal := parseU64_decimal hnumber.1 hnumber.2
              (fun c hmem => List.mem_takeWhile_imp hmem) hvalue
            rw [fillFrom, hfill, hdecimal, Option.map_some,
              List.takeWhile_append_dropWhile]
            refine ⟨rfl, ?_⟩
            rw [List.length_cons, hcount, List.countP_cons_of_pos rfl]

/-- What a pattern reads out of a name fills it again. -/
theorem instantiate_of_captures {pattern : Pattern} {name : Text}
    {values : List Nat} (h : pattern.captures name = some values) :
    pattern.instantiate values = some name := by
  obtain ⟨hfill, hcount⟩ := fillFrom_of_capturesFrom h
  unfold instantiate holes
  rw [if_pos hcount, hfill]

/-! From values to their name. -/

/-- A rest that no digit begins. -/
def Stops (rest : Text) : Prop := rest.head?.any isAsciiDigit = false

theorem takeWhile_digits {digits rest : Text}
    (hdigits : ∀ c ∈ digits, isAsciiDigit c = true) (hrest : Stops rest) :
    (digits ++ rest).takeWhile isAsciiDigit = digits ∧
      (digits ++ rest).dropWhile isAsciiDigit = rest := by
  rw [List.takeWhile_append_of_pos hdigits,
    List.dropWhile_append_of_pos hdigits]
  cases rest with
  | nil => simp
  | cons c rest =>
      have hstop : isAsciiDigit c = false := hrest
      rw [List.takeWhile_cons_of_neg (by simp [hstop]),
        List.dropWhile_cons_of_neg (by simp [hstop])]
      simp

/-- What follows a hole in a generated name begins with no digit. -/
theorem fillFrom_stops {pieces : List Piece} {values : List Nat} {name : Text}
    (hnext : ∀ next ∈ pieces.head?, next.Ends)
    (h : fillFrom pieces values = some name) : Stops name := by
  cases pieces with
  | nil =>
      cases h
      rfl
  | cons piece pieces =>
      have hends := hnext piece rfl
      cases piece with
      | integer => exact hends.elim
      | literal text =>
          cases text with
          | nil => exact hends.elim
          | cons c text =>
              rw [fillFrom, Option.map_eq_some_iff] at h
              obtain ⟨rest, -, rfl⟩ := h
              exact hends

theorem parseU64_of_decimal {value : Nat} (h : value < 2 ^ 64) :
    parseU64 (decimal value) = some value := by
  have hplus : (decimal value).head? ≠ some '+' := head?_decimal_ne rfl
  have hall : (decimal value).all isAsciiDigit = true :=
    List.all_eq_true.mpr fun _ hmem => isDigit_of_mem_decimal hmem
  simp only [parseU64, if_neg hplus]
  rw [digitsValue_decimal, if_pos ⟨decimal_ne_nil, hall, h⟩]

/-- The numeral of a value has no zero in front of another digit. -/
theorem decimal_leads {value : Nat} :
    ¬ (1 < (decimal value).length ∧ (decimal value).head? = some '0') := by
  intro h
  obtain ⟨hlength, hhead⟩ := h
  by_cases hzero : value = 0
  · subst hzero
    exact absurd hlength (by decide)
  · exact head?_decimal_ne_zero hzero hhead

/-- Reading a generated name gives the values back: each hole takes its own
digits and no more. -/
theorem capturesFrom_of_fillFrom {pieces : List Piece} {values : List Nat}
    {name : Text} (hpieces : Anchored pieces)
    (hvalues : ∀ value ∈ values, value < 2 ^ 64)
    (hlength : values.length = pieces.countP Piece.isInteger)
    (h : fillFrom pieces values = some name) :
    capturesFrom pieces name = some values := by
  induction pieces generalizing values name with
  | nil =>
      cases h
      rw [capturesFrom, if_pos rfl, List.eq_nil_of_length_eq_zero hlength]
  | cons piece pieces ih =>
      cases piece with
      | literal text =>
          rw [fillFrom, Option.map_eq_some_iff] at h
          obtain ⟨rest, hrest, rfl⟩ := h
          rw [capturesFrom, stripPrefix_eq_some.mpr rfl]
          exact ih hpieces hvalues hlength hrest
      | integer =>
          cases values with
          | nil => cases h
          | cons value values =>
              rw [fillFrom, Option.map_eq_some_iff] at h
              obtain ⟨rest, hrest, rfl⟩ := h
              obtain ⟨hnext, hanchored⟩ := hpieces
              obtain ⟨hvalue, hothers⟩ := List.forall_mem_cons.mp hvalues
              rw [List.length_cons, List.countP_cons_of_pos rfl,
                Nat.add_right_cancel_iff] at hlength
              obtain ⟨htake, hdrop⟩ := takeWhile_digits
                (fun _ hmem => isDigit_of_mem_decimal hmem)
                (fillFrom_stops hnext hrest)
              have htail := ih hanchored hothers hlength hrest
              simp only [capturesFrom]
              rw [htake, hdrop, if_neg (not_or.mpr ⟨decimal_ne_nil,
                decimal_leads⟩), parseU64_of_decimal hvalue, htail]
              rfl

theorem fillFrom_isSome {pieces : List Piece} {values : List Nat}
    (h : values.length = pieces.countP Piece.isInteger) :
    (fillFrom pieces values).isSome := by
  induction pieces generalizing values with
  | nil => rfl
  | cons piece pieces ih =>
      cases piece with
      | literal text =>
          rw [fillFrom, Option.isSome_map]
          exact ih h
      | integer =>
          rw [List.countP_cons_of_pos rfl] at h
          cases values with
          | nil => simp at h
          | cons value values =>
              rw [fillFrom, Option.isSome_map]
              exact ih (Nat.succ.inj h)

theorem captures_of_instantiate {pattern : Pattern} {values : List Nat}
    {name : Text} (hpieces : Anchored pattern.pieces)
    (hvalues : ∀ value ∈ values, value < 2 ^ 64)
    (h : pattern.instantiate values = some name) :
    pattern.captures name = some values := by
  unfold instantiate at h
  split at h
  · rename_i hlength
    exact capturesFrom_of_fillFrom hpieces hvalues hlength h
  · cases h

/-- An accepted pattern reads every name it generates back to the values it was
generated from, and generates every name it reads. -/
theorem matches_exactly {text : Text} {pattern : Pattern}
    (h : parse text = .ok pattern) :
    (∀ values : List UInt64, values.length = pattern.holes →
      ∃ name, pattern.instantiate (values.map UInt64.toNat) = some name ∧
        pattern.captures name = some (values.map UInt64.toNat)) ∧
    (∀ name values, pattern.captures name = some values →
      pattern.instantiate values = some name) ∧
    (∀ name other values, pattern.captures name = some values →
      pattern.captures other = some values → name = other) ∧
    (∀ name (values : List UInt64),
      pattern.instantiate (values.map UInt64.toNat) = some name →
        pattern.isMatch name = true) := by
  have hpieces := parse_anchored h
  have hsmall : ∀ values : List UInt64,
      ∀ value ∈ values.map UInt64.toNat, value < 2 ^ 64 := by
    intro values value hmem
    obtain ⟨found, -, rfl⟩ := List.mem_map.mp hmem
    exact found.toNat_lt
  refine ⟨fun values hlength => ?_, fun name values => instantiate_of_captures,
    fun name other values hname hother => ?_, fun name values hname => ?_⟩
  · have hcount : (values.map UInt64.toNat).length = pattern.holes := by
      rw [List.length_map, hlength]
    obtain ⟨name, hname⟩ := Option.isSome_iff_exists.mp
      (fillFrom_isSome hcount)
    have hfilled : pattern.instantiate (values.map UInt64.toNat) =
        some name := by
      rw [instantiate, if_pos hcount, hname]
    exact ⟨name, hfilled,
      captures_of_instantiate hpieces (hsmall values) hfilled⟩
  · have hfirst := instantiate_of_captures hname
    rw [instantiate_of_captures hother, Option.some.injEq] at hfirst
    exact hfirst.symm
  · rw [isMatch, captures_of_instantiate hpieces (hsmall values) hname]
    rfl

theorem matches_exactly_layers :
    ∃ pattern, parse "layers.\x7bi\x7d.w\x7bi\x7d".toList = .ok pattern ∧
      pattern.holes = 2 ∧
      ∀ values : List UInt64, values.length = pattern.holes →
        ∃ name, pattern.instantiate (values.map UInt64.toNat) = some name ∧
          pattern.captures name = some (values.map UInt64.toNat) :=
  ⟨⟨[.literal "layers.".toList, .integer, .literal ".w".toList, .integer],
    "layers.\x7bi\x7d.w\x7bi\x7d".toList⟩, by decide, rfl,
    (@matches_exactly "layers.\x7bi\x7d.w\x7bi\x7d".toList _ (by decide)).1⟩

end Pattern

end TensorFS
