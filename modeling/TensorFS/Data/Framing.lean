import TensorFS.Data.Numeral

namespace TensorFS.Data

/-! Fields closed by delimiters, and when a concatenation of fields can be taken
apart in one way only. -/

/-- The literals that may close a field.  A suffix of one that agrees with
another as far as both go is all of both, so no delimiter starts inside one. -/
structure Delimiters (α : Type) where
  stops : List (List α)
  nonempty : [] ∉ stops
  apart : ∀ p ∈ stops, ∀ q ∈ stops, ∀ v ∈ p.tails, v ≠ [] →
    v <+: q ∨ q <+: v → v = p ∧ p = q

namespace Delimiters

variable {α : Type} {d : Delimiters α} {s t p q x y sep : List α}

/-- No delimiter occurs in the field. -/
def Free (d : Delimiters α) (text : List α) : Prop :=
  ∀ stop ∈ d.stops, ¬ stop <:+: text

instance [DecidableEq α] (d : Delimiters α) (text : List α) :
    Decidable (d.Free text) :=
  inferInstanceAs (Decidable (∀ stop ∈ d.stops, ¬ stop <:+: text))

theorem free_nil : d.Free [] := by
  intro stop hstop hinside
  rw [List.infix_nil] at hinside
  exact d.nonempty (hinside ▸ hstop)

/-- Each delimiter has a character that the field has none of. -/
theorem free_of_all (allowed : α → Bool)
    (hstops : ∀ stop ∈ d.stops, ∃ c ∈ stop, allowed c = false)
    (htext : ∀ c ∈ t, allowed c = true) : d.Free t := by
  intro stop hstop hinside
  obtain ⟨c, hc, hnot⟩ := hstops stop hstop
  rw [htext c (hinside.subset hc)] at hnot
  cases hnot

/-- Each delimiter holds the character that the field does not. -/
theorem free_of_not_mem {c : α} (hstops : ∀ stop ∈ d.stops, c ∈ stop)
    (htext : c ∉ t) : d.Free t := by
  intro stop hstop hinside
  exact htext (hinside.subset (hstops stop hstop))

theorem Free.eq_nil (hfree : d.Free (s ++ t)) (hp : p ∈ d.stops)
    (hq : q ∈ d.stops) (h : p ++ x = t ++ (q ++ y)) : t = [] := by
  rcases List.append_eq_append_iff.mp h with ⟨v, rfl, _⟩ | ⟨v, rfl, hv⟩
  · exact absurd ⟨s, v, by simp⟩ (hfree p hp)
  · by_contra hne
    have hsuffix : v ∈ (t ++ v).tails :=
      (List.mem_tails _ _).mpr (List.suffix_append t v)
    by_cases hnil : v = []
    · subst hnil
      exact hfree _ hp ⟨s, [], by simp⟩
    · have hcompare : v <+: q ∨ q <+: v := by
        apply List.prefix_or_prefix_of_prefix (List.prefix_append v x)
        rw [← hv]
        exact List.prefix_append q y
      have heq := (d.apart _ hp q hq v hsuffix hnil hcompare).1
      exact hne (List.append_left_eq_self.mp heq.symm)

/-- The field before the first delimiter, and what stands behind it. -/
theorem split (hs : d.Free s) (ht : d.Free t) (hp : p ∈ d.stops)
    (hq : q ∈ d.stops) (h : s ++ (p ++ x) = t ++ (q ++ y)) :
    s = t ∧ p ++ x = q ++ y := by
  rcases List.append_eq_append_iff.mp h with ⟨m, rfl, hm⟩ | ⟨m, rfl, hm⟩
  · have hnil := ht.eq_nil hp hq hm
    subst hnil
    exact ⟨by simp, hm⟩
  · have hnil := hs.eq_nil hq hp hm
    subst hnil
    exact ⟨by simp, hm.symm⟩

theorem split_same (hs : d.Free s) (ht : d.Free t) (hp : p ∈ d.stops)
    (h : s ++ (p ++ x) = t ++ (p ++ y)) : s = t ∧ x = y :=
  (split hs ht hp hp h).imp_right List.append_cancel_left

theorem same_stop (hp : p ∈ d.stops) (hq : q ∈ d.stops)
    (h : p ++ x = q ++ y) : p = q := by
  have hcompare : p <+: q ∨ q <+: p := by
    apply List.prefix_or_prefix_of_prefix (List.prefix_append p x)
    rw [h]
    exact List.prefix_append q y
  refine (d.apart p hp q hq p ?_ ?_ hcompare).2
  · exact (List.mem_tails _ _).mpr (List.suffix_refl p)
  · exact fun hnil => d.nonempty (hnil ▸ hp)

/-- One character that closes a field. -/
def single (c : α) : Delimiters α where
  stops := [[c]]
  nonempty := by simp
  apart := by
    intro p hp q hq v hv hne hcompare
    rw [List.mem_singleton.mp hp] at hv ⊢
    rw [List.mem_singleton.mp hq]
    refine ⟨?_, rfl⟩
    rcases List.suffix_cons_iff.mp ((List.mem_tails _ _).mp hv) with h | h
    · exact h
    · exact absurd (List.suffix_nil.mp h) hne

theorem free_single {c : α} : (single c).Free t ↔ c ∉ t := by
  simp [Free, single, List.singleton_infix_iff]

theorem split_char {c : α} (hs : c ∉ s) (ht : c ∉ t)
    (h : s ++ c :: x = t ++ c :: y) : s = t ∧ x = y :=
  split_same (free_single.mpr hs) (free_single.mpr ht)
    (List.mem_singleton.mpr rfl) h

/-- A text that holds the character once. -/
theorem split_once {c : α} (ht : c ∉ t) (hy : c ∉ y)
    (h : s ++ c :: x = t ++ c :: y) : s = t ∧ x = y := by
  rcases List.append_eq_append_iff.mp h with ⟨m, rfl, hm⟩ | ⟨m, rfl, hm⟩
  · cases m with
    | nil => exact ⟨by simp, (List.cons.inj hm).2⟩
    | cons e m =>
        obtain ⟨rfl, -⟩ := List.cons.inj hm
        exact absurd (by simp) ht
  · cases m with
    | nil => exact ⟨by simp, (List.cons.inj hm).2.symm⟩
    | cons e m =>
        obtain ⟨-, rfl⟩ := List.cons.inj hm
        exact absurd (by simp) hy

/-- A separated list that one of the other delimiters closes. -/
theorem split_intercalate {ls ms : List (List α)} (hls : ∀ t ∈ ls, d.Free t)
    (hms : ∀ t ∈ ms, d.Free t) (hsep : sep ∈ d.stops) (hp : p ∈ d.stops)
    (hq : q ∈ d.stops) (hpsep : p ≠ sep) (hqsep : q ≠ sep)
    (hl : ls ≠ []) (hm : ms ≠ [])
    (h : sep.intercalate ls ++ (p ++ x) = sep.intercalate ms ++ (q ++ y)) :
    ls = ms ∧ p ++ x = q ++ y := by
  induction ls generalizing ms with
  | nil => exact absurd rfl hl
  | cons s ls ih =>
      obtain ⟨t, ms, rfl⟩ := List.exists_cons_of_ne_nil hm
      have hs := hls s List.mem_cons_self
      have ht := hms t List.mem_cons_self
      cases ls with
      | nil =>
          cases ms with
          | nil =>
              simp only [List.intercalate_singleton] at h
              obtain ⟨rfl, htail⟩ := split hs ht hp hq h
              exact ⟨rfl, htail⟩
          | cons t' ms =>
              simp only [List.intercalate_singleton,
                List.intercalate_cons_cons, List.append_assoc] at h
              obtain ⟨-, h⟩ := split hs ht hp hsep h
              exact absurd (same_stop hp hsep h) hpsep
      | cons s' ls =>
          cases ms with
          | nil =>
              simp only [List.intercalate_singleton,
                List.intercalate_cons_cons, List.append_assoc] at h
              obtain ⟨-, h⟩ := split hs ht hsep hq h
              exact absurd (same_stop hsep hq h).symm hqsep
          | cons t' ms =>
              simp only [List.intercalate_cons_cons, List.append_assoc] at h
              obtain ⟨rfl, htail⟩ := split_same hs ht hsep h
              obtain ⟨hrest, htail⟩ := ih
                (fun text hmem => hls text (List.mem_cons_of_mem _ hmem))
                (fun text hmem => hms text (List.mem_cons_of_mem _ hmem))
                (List.cons_ne_nil _ _) (List.cons_ne_nil _ _) htail
              exact ⟨by rw [hrest], htail⟩

/-- Only the list of one empty text reads as the empty list does. -/
theorem split_list {ls ms : List (List α)} (hls : ∀ t ∈ ls, d.Free t)
    (hms : ∀ t ∈ ms, d.Free t) (hsep : sep ∈ d.stops) (hp : p ∈ d.stops)
    (hq : q ∈ d.stops) (hpsep : p ≠ sep) (hqsep : q ≠ sep)
    (hl : ls ≠ [[]]) (hm : ms ≠ [[]])
    (h : sep.intercalate ls ++ (p ++ x) = sep.intercalate ms ++ (q ++ y)) :
    ls = ms ∧ p ++ x = q ++ y := by
  have hempty : ∀ t ∈ [([] : List α)], d.Free t := by
    intro t hmem
    rw [List.mem_singleton.mp hmem]
    exact free_nil
  cases ls with
  | nil =>
      cases ms with
      | nil => exact ⟨rfl, h⟩
      | cons t ms =>
          have hfound := (split_intercalate hempty hms hsep hp hq hpsep
            hqsep (List.cons_ne_nil _ _) (List.cons_ne_nil _ _)
            (by simpa using h)).1
          exact absurd hfound.symm hm
  | cons s ls =>
      cases ms with
      | nil =>
          have hfound := (split_intercalate hls hempty hsep hp hq hpsep
            hqsep (List.cons_ne_nil _ _) (List.cons_ne_nil _ _)
            (by simpa using h)).1
          exact absurd hfound hl
      | cons t ms =>
          exact split_intercalate hls hms hsep hp hq hpsep hqsep
            (List.cons_ne_nil _ _) (List.cons_ne_nil _ _) h

theorem literal_nil {m : List α} (hs : ¬ p <:+: s ++ m ++ p.dropLast)
    (h : p ++ x = m ++ (p ++ y)) : m = [] := by
  by_contra hne
  have hlong : p <+: m ++ (p ++ y) := h ▸ List.prefix_append p x
  have hshort : m ++ p.dropLast <+: m ++ (p ++ y) :=
    (List.prefix_append_right_inj m).mpr
      ((List.dropLast_prefix p).trans (List.prefix_append p y))
  have hlength : p.length ≤ (m ++ p.dropLast).length := by
    have hpos := List.length_pos_iff.mpr hne
    simp only [List.length_append, List.length_dropLast]
    omega
  have hinside : p <:+: m ++ p.dropLast :=
    (List.prefix_of_prefix_length_le hlong hshort hlength).isInfix
  rw [List.append_assoc] at hs
  exact hs (hinside.trans (List.suffix_append s _).isInfix)

/-- A literal that may overlap itself closes a field when the field, with all of
the literal but its end behind it, still holds none. -/
theorem split_literal (hs : ¬ p <:+: s ++ p.dropLast)
    (ht : ¬ p <:+: t ++ p.dropLast) (h : s ++ (p ++ x) = t ++ (p ++ y)) :
    s = t ∧ x = y := by
  rcases List.append_eq_append_iff.mp h with ⟨m, rfl, hm⟩ | ⟨m, rfl, hm⟩
  · have hnil := literal_nil ht hm
    subst hnil
    exact ⟨by simp, List.append_cancel_left hm⟩
  · have hnil := literal_nil hs hm
    subst hnil
    exact ⟨by simp, (List.append_cancel_left hm).symm⟩

end Delimiters

/-- A field that starts otherwise, and a closing character that is another. -/
theorem head?_append_cons_ne {α : Type} {c e : α} {s x : List α}
    (hs : s.head? ≠ some c) (he : e ≠ c) : (s ++ e :: x).head? ≠ some c := by
  cases s with
  | nil => simpa using he
  | cons b s => simpa using hs

theorem not_prefix_cons {α : Type} {c : α} {item rest : List α}
    (hne : item ≠ []) (hhead : item.head? ≠ some c) : ¬ item <+: c :: rest := by
  intro hbegins
  cases item with
  | nil => exact hne rfl
  | cons e item =>
      rw [List.cons_prefix_cons] at hbegins
      exact hhead (by rw [hbegins.1]; rfl)

/-- A literal without the separator stands on one side of it. -/
theorem infix_append_cons_iff {α : Type} {c : α} {p s t : List α}
    (hp : p ≠ []) (hc : c ∉ p) :
    p <:+: s ++ c :: t ↔ p <:+: s ∨ p <:+: t := by
  constructor
  · intro h
    obtain ⟨front, back, h⟩ := h
    rw [List.append_assoc] at h
    rcases List.append_eq_append_iff.mp h with ⟨m, rfl, hm⟩ | ⟨m, rfl, hm⟩
    · rcases List.append_eq_append_iff.mp hm with ⟨v, rfl, _⟩ | ⟨v, rfl, hv⟩
      · exact .inl ⟨front, v, by simp⟩
      · cases v with
        | nil => exact .inl ⟨front, [], by simp⟩
        | cons e v =>
            obtain ⟨rfl, -⟩ := List.cons.inj hv
            exact absurd (by simp) hc
    · cases m with
      | nil =>
          cases p with
          | nil => exact absurd rfl hp
          | cons e p =>
              obtain ⟨rfl, -⟩ := List.cons.inj hm
              exact absurd (by simp) hc
      | cons e m =>
          obtain ⟨-, rfl⟩ := List.cons.inj hm
          exact .inr ⟨m, back, by simp⟩
  · intro h
    rcases h with ⟨front, back, rfl⟩ | ⟨front, back, rfl⟩
    · exact ⟨front, back ++ c :: t, by simp⟩
    · exact ⟨s ++ c :: front, back, by simp⟩

/-! Renderings that can be read back off the front of a text. -/

section

variable {α β : Type} {P : α → Prop} {f : α → List β}

/-- What `f` renders of the values in `P` tells the value and its own end. -/
def Readable (P : α → Prop) (f : α → List β) : Prop :=
  ∀ ⦃a b : α⦄, P a → P b → ∀ ⦃x y : List β⦄, f a ++ x = f b ++ y →
    a = b ∧ x = y

theorem Readable.eq (h : Readable P f) {a b : α} (ha : P a) (hb : P b)
    (heq : f a = f b) : a = b :=
  (h ha hb (congrArg (· ++ []) heq)).1

/-- Items one after another, up to a text that no item starts. -/
theorem Readable.flatMap (h : Readable P f) {as bs : List α}
    (has : ∀ a ∈ as, P a) (hbs : ∀ b ∈ bs, P b) {x y : List β}
    (hx : ∀ a, P a → ¬ f a <+: x) (hy : ∀ a, P a → ¬ f a <+: y)
    (heq : as.flatMap f ++ x = bs.flatMap f ++ y) : as = bs ∧ x = y := by
  induction as generalizing bs with
  | nil =>
      cases bs with
      | nil => exact ⟨rfl, heq⟩
      | cons b bs =>
          have hbegins : f b <+: x := ⟨bs.flatMap f ++ y, by simpa using heq.symm⟩
          exact absurd hbegins (hx b (hbs b List.mem_cons_self))
  | cons a as ih =>
      cases bs with
      | nil =>
          have hbegins : f a <+: y := ⟨as.flatMap f ++ x, by simpa using heq⟩
          exact absurd hbegins (hy a (has a List.mem_cons_self))
      | cons b bs =>
          simp only [List.flatMap_cons, List.append_assoc] at heq
          obtain ⟨rfl, htail⟩ := h (has a List.mem_cons_self)
            (hbs b List.mem_cons_self) heq
          obtain ⟨hrest, htail⟩ := ih
            (fun a hmem => has a (List.mem_cons_of_mem _ hmem))
            (fun b hmem => hbs b (List.mem_cons_of_mem _ hmem)) htail
          exact ⟨by rw [hrest], htail⟩

/-- A part that may be left out, before a text that it does not start. -/
theorem Readable.option (h : Readable P f) {a b : Option α}
    (ha : ∀ v ∈ a, P v) (hb : ∀ v ∈ b, P v) {x y : List β}
    (hx : ∀ a, P a → ¬ f a <+: x) (hy : ∀ a, P a → ¬ f a <+: y)
    (heq : a.toList.flatMap f ++ x = b.toList.flatMap f ++ y) :
    a = b ∧ x = y := by
  obtain ⟨hsame, htail⟩ := h.flatMap
    (fun v hmem => ha v (Option.mem_toList.mp hmem))
    (fun v hmem => hb v (Option.mem_toList.mp hmem)) hx hy heq
  refine ⟨Option.ext fun v => ?_, htail⟩
  have hmem := congrArg (v ∈ ·) hsame
  simpa only [Option.mem_toList, Option.mem_def, eq_iff_iff] using hmem

/-- A separated list of items that hold no delimiter. -/
theorem readable_list {d : Delimiters β} {sep close : List β}
    (hf : Function.Injective f) (hfree : ∀ a, d.Free (f a))
    (hne : ∀ a, f a ≠ []) (hsep : sep ∈ d.stops) (hclose : close ∈ d.stops)
    (hapart : close ≠ sep) :
    Readable (fun _ => True) fun as : List α =>
      sep.intercalate (as.map f) ++ close := by
  intro left right _ _ x y h
  have hitems : ∀ as : List α, ∀ t ∈ as.map f, d.Free t := by
    intro as t hmem
    obtain ⟨a, -, rfl⟩ := List.mem_map.mp hmem
    exact hfree a
  have htold : ∀ as : List α, as.map f ≠ [[]] := by
    intro as hone
    obtain ⟨a, -, hnil⟩ := List.mem_map.mp (hone ▸ List.mem_singleton_self [])
    exact hne a hnil
  simp only [List.append_assoc] at h
  obtain ⟨hsame, htail⟩ := Delimiters.split_list (hitems left) (hitems right)
    hsep hclose hclose hapart hapart (htold left) (htold right) h
  exact ⟨List.map_injective_iff.mpr hf hsame, List.append_cancel_left htail⟩

/-- The first character tells the item from what follows. -/
theorem not_prefix_of_head {c : β} {item x : List β}
    (hitem : item.head? = some c) (hx : x.head? ≠ some c) : ¬ item <+: x := by
  intro h
  obtain ⟨rest, h⟩ := h
  rw [← h] at hx
  exact hx (by simp [List.head?_append, hitem])

theorem head?_flatMap_append_ne {c e : β} {as : List α} {x : List β}
    (hf : ∀ a, (f a).head? = some e) (he : e ≠ c) (hx : x.head? ≠ some c) :
    (as.flatMap f ++ x).head? ≠ some c := by
  cases as with
  | nil => exact hx
  | cons a as => simp [List.head?_append, hf a, he]

end

/-! Sections: a heading, and the lines under it. -/

section

variable {α β : Type} {head : α → β} {body : α → List β} {isHead : β → Bool}

/-- The lines from a heading to the next one. -/
def sectionOf (head : α → β) (body : α → List β) (a : α) : List β :=
  head a :: body a

theorem sections_nil (hhead : ∀ a, isHead (head a) = true) {as : List α}
    {m rest : List β} (hm : ∀ line ∈ m, isHead line = false)
    (h : as.flatMap (sectionOf head body) = m ++ rest) : m = [] := by
  cases m with
  | nil => rfl
  | cons line m =>
      cases as with
      | nil => cases h
      | cons a as =>
          have hline : head a = line := (List.cons.inj h).1
          have hnot := hm line List.mem_cons_self
          rw [← hline, hhead a] at hnot
          cases hnot

/-- Where no line is a heading, the headings tell the sections apart. -/
theorem sections_eq (hhead : ∀ a, isHead (head a) = true)
    (hbody : ∀ a, ∀ line ∈ body a, isHead line = false) {as bs : List α}
    (h : as.flatMap (sectionOf head body) = bs.flatMap (sectionOf head body)) :
    as.map (fun a => (head a, body a)) = bs.map fun b => (head b, body b) := by
  induction as generalizing bs with
  | nil =>
      cases bs with
      | nil => rfl
      | cons b bs => cases h
  | cons a as ih =>
      cases bs with
      | nil => cases h
      | cons b bs =>
          obtain ⟨hfirst, hlines⟩ := List.cons.inj h
          have hparts : body a = body b ∧ as.flatMap (sectionOf head body) =
              bs.flatMap (sectionOf head body) := by
            rcases List.append_eq_append_iff.mp hlines with
              ⟨m, hm, hrest⟩ | ⟨m, hm, hrest⟩
            · have hnil := sections_nil hhead (fun line hmem => hbody b line
                (hm ▸ List.mem_append_right _ hmem)) hrest
              subst hnil
              exact ⟨by simpa using hm.symm, hrest⟩
            · have hnil := sections_nil hhead (fun line hmem => hbody a line
                (hm ▸ List.mem_append_right _ hmem)) hrest
              subst hnil
              exact ⟨by simpa using hm, hrest.symm⟩
          rw [List.map_cons, List.map_cons, hfirst, hparts.1, ih hparts.2]

end

/-! Numerals. -/

/-- A numeral up to a character that is no digit. -/
theorem decimal_split {c : Char} (hc : c.isDigit = false) {m n : Nat}
    {x y : Text} (h : decimal m ++ c :: x = decimal n ++ c :: y) :
    m = n ∧ x = y :=
  (Delimiters.split_char (not_mem_decimal hc) (not_mem_decimal hc) h).imp_left
    fun hdigits => decimal_injective hdigits

theorem Delimiters.free_decimal {d : Delimiters Char} (n : Nat)
    (hstops : ∀ stop ∈ d.stops, ∃ c ∈ stop, c.isDigit = false) :
    d.Free (decimal n) :=
  free_of_all Char.isDigit hstops fun _ => isDigit_of_mem_decimal

end TensorFS.Data
