import TensorFS.Data.Framing
import TensorFS.Engine.Document
import TensorFS.Tfm1.RulesParity

namespace TensorFS

open Data

theorem Dim.splitOnce_eq_some {sep : Char} {text front back : Text} :
    Dim.splitOnce sep text = some (front, back) ↔
      text = front ++ sep :: back ∧ sep ∉ front := by
  unfold Dim.splitOnce
  rw [List.span_eq_takeWhile_dropWhile]
  constructor
  · intro h
    split at h
    · cases h
    · rename_i before c after hpair
      cases h
      obtain ⟨rfl, hdrop⟩ := Prod.mk.inj hpair
      have hhead := head_of_dropWhile hdrop
      have hc : c = sep := by simpa using hhead
      refine ⟨?_, ?_⟩
      · calc text
            = text.takeWhile (· ≠ sep) ++ text.dropWhile (· ≠ sep) :=
              List.takeWhile_append_dropWhile.symm
          _ = text.takeWhile (· ≠ sep) ++ sep :: back := by rw [hdrop, hc]
      · intro hmem
        have hne := List.mem_takeWhile_imp hmem
        simp at hne
  · intro h
    obtain ⟨htext, hfront⟩ := h
    have hall : ∀ c ∈ front, decide (c ≠ sep) = true := by
      intro c hmem
      simp only [decide_eq_true_eq]
      intro heq
      exact hfront (heq ▸ hmem)
    rw [htext, List.takeWhile_append_of_pos hall, List.dropWhile_append_of_pos hall]
    simp

end TensorFS

namespace TensorFS.Go

open Data

/-! How handles, layout ids and bridges are spelled. -/

/-- What a parsed handle is. -/
structure Handle.Valid (handle : Handle) : Prop where
  version : handle.version ≠ 0
  name : isContractName handle.name = true

theorem parseUint32_eq_some {digits : Text} {version : UInt32} :
    parseUint32 digits = some version ↔
      digits ≠ [] ∧ (∀ c ∈ digits, c.isDigit = true) ∧
        digitsValue digits = version.toNat := by
  unfold parseUint32
  constructor
  · intro h
    split at h
    · rename_i hcond
      obtain ⟨hne, hdigits, hlt⟩ := hcond
      cases h
      refine ⟨hne, List.all_eq_true.mp hdigits, ?_⟩
      rw [UInt32.toNat_ofNat', Nat.mod_eq_of_lt hlt]
    · cases h
  · intro h
    obtain ⟨hne, hdigits, hvalue⟩ := h
    have hlt := version.toNat_lt
    rw [if_pos ⟨hne, List.all_eq_true.mpr hdigits, by rw [hvalue]; exact hlt⟩,
      hvalue, UInt32.ofNat_toNat]

theorem usableName_iff {name : Text} :
    name ≠ [] ∧ name.utf8Len ≤ tfm1MaxContractNameBytes ∧
      isTFM1ContractName name.utf8 = true ↔ isContractName name = true := by
  have hread : Text.fromUtf8 name.utf8 = some name := Text.fromUtf8_utf8 name
  constructor
  · intro h
    obtain ⟨_, hlen, hname⟩ := h
    obtain ⟨text, htext, hok⟩ := (isTFM1ContractName_iff hlen).mp hname
    rw [hread] at htext
    cases htext
    exact hok
  · intro h
    have hshape : name ≠ [] ∧ name.utf8Len ≤ maxContractNameBytes := by
      simp only [isContractName, Bool.and_eq_true] at h
      exact ⟨by simpa using h.1.1, by simpa using h.1.2⟩
    exact ⟨hshape.1, hshape.2,
      (isTFM1ContractName_iff hshape.2).mpr ⟨name, hread, h⟩⟩

theorem Handle.Valid.not_mem {handle : Handle} (h : handle.Valid) {c : Char}
    (hc : isHandleChar c = false ∧ c ≠ '.' ∧ c ≠ '-' ∧ c ≠ '_') :
    c ∉ handle.name := isContractName_not_mem h.name hc

theorem parseHandle_eq_ok {text : Text} {handle : Handle} :
    parseHandle text = .ok handle ↔
      handle.Valid ∧ ∃ digits, text = handle.name ++ '@' :: digits ∧
        parseUint32 digits = some handle.version := by
  unfold parseHandle
  constructor
  · intro h
    split at h
    · cases h
    · rename_i name digits hsplit
      split at h
      · cases h
      · rename_i version hversion
        simp only [except_bind_eq_ok, ensure_eq_ok, exists_unit,
          Except.ok.injEq] at h
        obtain ⟨hne, hname, rfl⟩ := h
        exact ⟨⟨hne, usableName_iff.mp hname⟩, digits,
          (Dim.splitOnce_eq_some.mp hsplit).1, hversion⟩
  · intro h
    obtain ⟨hvalid, digits, htext, hversion⟩ := h
    have hsplit : Dim.splitOnce '@' text = some (handle.name, digits) :=
      Dim.splitOnce_eq_some.mpr ⟨htext, hvalid.not_mem (by decide)⟩
    simp only [hsplit, hversion, except_bind_eq_ok, ensure_eq_ok, exists_unit]
    exact ⟨hvalid.version, usableName_iff.mpr hvalid.name, trivial⟩

theorem Handle.parse_render {handle : Handle} (h : handle.Valid) :
    parseHandle handle.render = .ok handle := by
  refine parseHandle_eq_ok.mpr ⟨h, decimal handle.version.toNat, rfl, ?_⟩
  rw [parseUint32_eq_some, digitsValue_decimal]
  exact ⟨decimal_ne_nil, fun _ => isDigit_of_mem_decimal, rfl⟩

theorem Handle.not_mem_render {handle : Handle} (h : handle.Valid) {c : Char}
    (hc : isHandleChar c = false ∧ c ≠ '.' ∧ c ≠ '-' ∧ c ≠ '_')
    (hdigit : c.isDigit = false) (hat : c ≠ '@') : c ∉ handle.render := by
  simp only [Handle.render, List.mem_append, List.mem_cons, not_or]
  exact ⟨h.not_mem hc, hat, not_mem_decimal hdigit⟩

/-- A version that a zero leads. -/
def zeroLed : Text := "@0".toList

/-- A handle has the spelling it renders, unless a zero leads its version. -/
theorem Handle.render_eq_iff {text : Text} {handle : Handle}
    (h : parseHandle text = .ok handle) :
    handle.render = text ↔ ¬ zeroLed <:+: text := by
  obtain ⟨hvalid, digits, rfl, hversion⟩ := parseHandle_eq_ok.mp h
  obtain ⟨hne, hdigits, hvalue⟩ := parseUint32_eq_some.mp hversion
  have hpos : digitsValue digits ≠ 0 := by
    rw [hvalue]
    exact fun hzero => hvalid.version (UInt32.toNat_inj.mp hzero)
  have hspelled := decimal_eq_iff hne hdigits hpos
  rw [hvalue] at hspelled
  rw [Handle.render, List.append_cancel_left_eq, List.cons_inj_right, hspelled,
    not_iff_not]
  constructor
  · intro hhead
    obtain ⟨rest, rfl⟩ := List.head?_eq_some_iff.mp hhead
    exact ⟨handle.name, rest, by simp [zeroLed]⟩
  · intro hgiven
    obtain ⟨front, back, hinside⟩ := hgiven
    have hat : '@' ∉ digits := by
      intro hmem
      exact absurd (hdigits '@' hmem) (by decide)
    have hparts : front ++ '@' :: '0' :: back =
        handle.name ++ '@' :: digits := by
      rw [← hinside]
      simp [zeroLed]
    obtain ⟨-, hrest⟩ := Delimiters.split_once
      (hvalid.not_mem (by decide)) hat hparts
    rw [← hrest]
    rfl

/-- No separator stands in a handle. -/
theorem parseHandle_not_mem {text : Text} {handle : Handle}
    (h : parseHandle text = .ok handle) {c : Char}
    (hc : isHandleChar c = false ∧ c ≠ '.' ∧ c ≠ '-' ∧ c ≠ '_')
    (hdigit : c.isDigit = false) (hat : c ≠ '@') : c ∉ text := by
  obtain ⟨hvalid, digits, rfl, hversion⟩ := parseHandle_eq_ok.mp h
  obtain ⟨-, hdigits, -⟩ := parseUint32_eq_some.mp hversion
  simp only [List.mem_append, List.mem_cons, not_or]
  refine ⟨hvalid.not_mem hc, hat, fun hmem => ?_⟩
  rw [hdigits c hmem] at hdigit
  cases hdigit

/-! Layout ids. -/

namespace LayoutID

theorem parsePart_eq_ok {text : Text} {handle : Handle} :
    parsePart text = .ok handle ↔ parseHandle text = .ok handle := by
  unfold parsePart
  cases parseHandle text <;> simp

/-- Two handles, or three when the arrangement is not the default. -/
theorem parse_eq_ok {text : Text} {id : LayoutID} :
    parse text = .ok id ↔
      ∃ topology quant, parseHandle topology = .ok id.topology ∧
        parseHandle quant = .ok id.quant ∧
        (text = topology ++ '+' :: quant ∧ id.bytes = defaultLayout ∨
          ∃ bytes, parseHandle bytes = .ok id.bytes ∧
            id.bytes ≠ defaultLayout ∧
            text = topology ++ '+' :: (quant ++ '+' :: bytes)) := by
  have hplus : ∀ {text : Text} {handle : Handle},
      parseHandle text = .ok handle → '+' ∉ text := fun h =>
    parseHandle_not_mem h (by decide) (by decide) (by decide)
  constructor
  · intro h
    have htext : ['+'].intercalate (text.splitOn '+') = text :=
      List.intercalate_splitOn '+'
    unfold parse at h
    split at h
    · rename_i topology quant hparts
      simp only [except_bind_eq_ok, parsePart_eq_ok, Except.ok.injEq] at h
      obtain ⟨top, htop, other, hother, rfl⟩ := h
      rw [hparts] at htext
      exact ⟨topology, quant, htop, hother, .inl ⟨by simpa using htext.symm,
        rfl⟩⟩
    · rename_i topology quant bytes hparts
      simp only [except_bind_eq_ok, parsePart_eq_ok, ensure_eq_ok,
        exists_unit, Except.ok.injEq] at h
      obtain ⟨top, htop, other, hother, found, hfound, hne, rfl⟩ := h
      rw [hparts] at htext
      exact ⟨topology, quant, htop, hother, .inr ⟨bytes, hfound, hne,
        by simpa using htext.symm⟩⟩
    · cases h
  · intro h
    obtain ⟨topology, quant, htop, hquant, hrest⟩ := h
    rcases hrest with ⟨rfl, hdefault⟩ | ⟨bytes, hbytes, hne, rfl⟩
    · have hparts : (topology ++ '+' :: quant).splitOn '+' =
          [topology, quant] := by
        have hsplit : (['+'].intercalate [topology, quant]).splitOn '+' =
            [topology, quant] := List.splitOn_intercalate '+'
          (by simp [hplus htop, hplus hquant]) (by simp)
        simpa using hsplit
      simp only [parse, hparts, except_bind_eq_ok, parsePart_eq_ok]
      exact ⟨_, htop, _, hquant, by rw [← hdefault]⟩
    · have hparts : (topology ++ '+' :: (quant ++ '+' :: bytes)).splitOn '+' =
          [topology, quant, bytes] := by
        have hsplit :
            (['+'].intercalate [topology, quant, bytes]).splitOn '+' =
              [topology, quant, bytes] := List.splitOn_intercalate '+'
          (by simp [hplus htop, hplus hquant, hplus hbytes]) (by simp)
        simpa using hsplit
      simp only [parse, hparts, except_bind_eq_ok, parsePart_eq_ok,
        ensure_eq_ok, exists_unit]
      exact ⟨_, htop, _, hquant, _, hbytes, hne, rfl⟩

theorem render_of_default {id : LayoutID}
    (h : id.bytes = defaultLayout ∨ id.bytes = .zero) :
    id.render = id.topology.render ++ '+' :: id.quant.render := by
  unfold LayoutID.render
  exact if_pos h

theorem render_of_bytes {id : LayoutID} (hdefault : id.bytes ≠ defaultLayout)
    (hzero : id.bytes ≠ .zero) :
    id.render = id.topology.render ++
      '+' :: (id.quant.render ++ '+' :: id.bytes.render) := by
  unfold LayoutID.render
  rw [if_neg (by simp [hdefault, hzero])]
  simp

theorem zeroLed_append {c : Char} (hat : c ≠ '@') (hzero : c ≠ '0')
    (left right : Text) : zeroLed <:+: left ++ c :: right ↔
      zeroLed <:+: left ∨ zeroLed <:+: right :=
  infix_append_cons_iff (by simp [zeroLed]) (by simp [zeroLed, hat, hzero])

/-- A layout id has the spelling it renders, unless a zero leads a version. -/
theorem render_eq_iff {text : Text} {id : LayoutID}
    (h : parse text = .ok id) : id.render = text ↔ ¬ zeroLed <:+: text := by
  have hplus : ∀ {text : Text} {handle : Handle},
      parseHandle text = .ok handle → '+' ∉ text := fun h =>
    parseHandle_not_mem h (by decide) (by decide) (by decide)
  have hrendered : ∀ {text : Text} {handle : Handle},
      parseHandle text = .ok handle → '+' ∉ handle.render := fun h =>
    Handle.not_mem_render (parseHandle_eq_ok.mp h).1 (by decide) (by decide)
      (by decide)
  have hjoin : ∀ {left right x y : Text}, '+' ∉ left → '+' ∉ right →
      (left ++ '+' :: x = right ++ '+' :: y ↔ left = right ∧ x = y) := by
    intro left right x y hleft hright
    constructor
    · exact Delimiters.split_char hleft hright
    · intro hgiven
      obtain ⟨hsame, htail⟩ := hgiven
      rw [hsame, htail]
  obtain ⟨topology, quant, htop, hquant, hrest⟩ := parse_eq_ok.mp h
  have htopology := Handle.render_eq_iff htop
  have hquants := Handle.render_eq_iff hquant
  rcases hrest with ⟨rfl, hdefault⟩ | ⟨bytes, hbytes, hne, rfl⟩
  · rw [render_of_default (.inl hdefault), hjoin (hrendered htop) (hplus htop),
      htopology, hquants, zeroLed_append (by decide) (by decide), not_or]
  · have hzero : id.bytes ≠ .zero := fun hzero =>
      (parseHandle_eq_ok.mp hbytes).1.version (by rw [hzero]; rfl)
    rw [render_of_bytes hne hzero, hjoin (hrendered htop) (hplus htop),
      hjoin (hrendered hquant) (hplus hquant), htopology, hquants,
      Handle.render_eq_iff hbytes, zeroLed_append (by decide) (by decide),
      zeroLed_append (by decide) (by decide), not_or, not_or]

/-- The handles of an id are valid; its arrangement may be unset. -/
structure Valid (id : LayoutID) : Prop where
  topology : id.topology.Valid
  quant : id.quant.Valid
  bytes : id.bytes.Valid ∨ id.bytes = .zero

theorem parse_render {id : LayoutID} (h : id.Valid) :
    ∃ back, parse id.render = .ok back ∧ back.equal id = true := by
  have htopology := Handle.parse_render h.topology
  have hquant := Handle.parse_render h.quant
  by_cases hset : id.bytes = defaultLayout ∨ id.bytes = .zero
  · refine ⟨{ id with bytes := defaultLayout }, ?_, ?_⟩
    · rw [render_of_default hset]
      exact parse_eq_ok.mpr ⟨id.topology.render, id.quant.render, htopology,
        hquant, .inl ⟨rfl, rfl⟩⟩
    · rcases hset with hdefault | hzero
      · rw [← hdefault]
        simp [equal]
      · have hne : defaultLayout ≠ Handle.zero := by decide
        simp only [equal, normalized, hzero, if_neg hne, if_true,
          decide_true]
  · rw [not_or] at hset
    have hbytes := h.bytes.resolve_right hset.2
    refine ⟨id, ?_, by simp [equal]⟩
    rw [render_of_bytes hset.1 hset.2]
    exact parse_eq_ok.mpr ⟨id.topology.render, id.quant.render, htopology,
      hquant, .inr ⟨id.bytes.render, Handle.parse_render hbytes, hset.1, rfl⟩⟩

end LayoutID

end TensorFS.Go
