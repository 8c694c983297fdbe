import TensorFS.Planner.GgufReader
import TensorFS.Planner.SafetensorsCover

namespace TensorFS.Gguf

open Data

/-! Layouts the reader returns. -/

theorem parser_bind_eq_ok {α β : Type} {m : Parser α} {f : α → Parser β}
    {cursor next : Cursor} {b : β} :
    (m >>= f) cursor = .ok (b, next) ↔
      ∃ a middle, m cursor = .ok (a, middle) ∧ f a middle = .ok (b, next) := by
  show (m cursor >>= fun p => f p.1 p.2) = .ok (b, next) ↔ _
  rw [except_bind_eq_ok]
  constructor
  · rintro ⟨⟨a, middle⟩, hm, hf⟩
    exact ⟨a, middle, hm, hf⟩
  · rintro ⟨a, middle, hm, hf⟩
    exact ⟨(a, middle), hm, hf⟩

@[simp] theorem parser_pure_eq_ok {α : Type} {a b : α}
    {cursor next : Cursor} :
    (pure a : Parser α) cursor = .ok (b, next) ↔ b = a ∧ next = cursor := by
  show Except.ok (a, cursor) = .ok (b, next) ↔ _
  rw [Except.ok.injEq, Prod.mk.injEq]
  exact ⟨fun h => ⟨h.1.symm, h.2.symm⟩, fun h => ⟨h.1.symm, h.2.symm⟩⟩

theorem guarded_eq_ok {p : Prop} [Decidable p] {u : Unit}
    {cursor next : Cursor} :
    guarded p cursor = .ok (u, next) ↔ p ∧ next = cursor := by
  unfold guarded
  split
  · rename_i h
    rw [Except.ok.injEq, Prod.mk.injEq]
    exact ⟨fun heq => ⟨h, heq.2.symm⟩, fun heq => ⟨rfl, heq.2.symm⟩⟩
  · rename_i h
    exact ⟨fun heq => (by cases heq), fun heq => absurd heq.1 h⟩

theorem orInvalid_eq_ok {α : Type} {found : Option α} {a : α}
    {cursor next : Cursor} :
    orInvalid found cursor = .ok (a, next) ↔
      found = some a ∧ next = cursor := by
  cases found with
  | none => exact ⟨fun h => (by cases h), fun h => (by cases h.1)⟩
  | some value =>
      rw [orInvalid, parser_pure_eq_ok, Option.some.injEq]
      exact ⟨fun h => ⟨h.1.symm, h.2⟩, fun h => ⟨h.1.symm, h.2⟩⟩

theorem alignUp_le {value alignment aligned : Nat} (hpos : 0 < alignment)
    (h : alignUp value alignment = some aligned) : value ≤ aligned := by
  simp only [alignUp, Option.bind_eq_bind, Option.bind_eq_some_iff,
    checkedAdd_eq_some, Option.some.injEq] at h
  obtain ⟨sum, ⟨rfl, _⟩, rfl⟩ := h
  have hmod := Nat.mod_lt (value + (alignment - 1)) hpos
  omega

/-- The tensors follow each other, padded, from `expected` to `stop`. -/
def Chained (alignment : Nat) : Nat → Nat → List TensorInfo → Prop
  | expected, stop, [] => expected = stop
  | expected, stop, tensor :: tensors =>
      tensor.offset = expected ∧ ∃ padded,
        alignUp tensor.length alignment = some padded ∧
        Chained alignment (expected + padded) stop tensors

theorem parseTensor_offset {source : ByteSource} {names : List Bytes}
    {expectedOffset : Nat} {cursor next : Cursor}
    {found : Bytes × TensorInfo}
    (h : parseTensor source names expectedOffset cursor =
      .ok (found, next)) : found.2.offset = expectedOffset := by
  unfold parseTensor at h
  iterate 12 obtain ⟨_, _, _, h⟩ := parser_bind_eq_ok.mp h
  obtain ⟨_, _, hguard, h⟩ := parser_bind_eq_ok.mp h
  obtain ⟨hoffset, _⟩ := guarded_eq_ok.mp hguard
  obtain ⟨rfl, _⟩ := parser_pure_eq_ok.mp h
  exact hoffset

theorem parseTensors_chained {source : ByteSource} {alignment count : Nat}
    {names : List Bytes} {expectedOffset stop : Nat} {cursor next : Cursor}
    {tensors : List TensorInfo}
    (h : parseTensors source alignment count names expectedOffset cursor =
      .ok ((tensors, stop), next)) :
    Chained alignment expectedOffset stop tensors := by
  induction count generalizing names expectedOffset cursor next tensors with
  | zero =>
      obtain ⟨heq, _⟩ := parser_pure_eq_ok.mp h
      cases heq
      rfl
  | succ count ih =>
      unfold parseTensors at h
      obtain ⟨⟨name, tensor⟩, _, htensor, h⟩ := parser_bind_eq_ok.mp h
      obtain ⟨padded, _, hpadded, h⟩ := parser_bind_eq_ok.mp h
      obtain ⟨following, _, hnext, h⟩ := parser_bind_eq_ok.mp h
      obtain ⟨⟨rest, last⟩, _, hrest, h⟩ := parser_bind_eq_ok.mp h
      obtain ⟨heq, _⟩ := parser_pure_eq_ok.mp h
      cases heq
      have hadded := (checkedAdd_eq_some.mp (orInvalid_eq_ok.mp hnext).1).1
      refine ⟨parseTensor_offset htensor, padded,
        (orInvalid_eq_ok.mp hpadded).1, ?_⟩
      rw [← hadded]
      exact ih hrest

structure LayoutOk (fileSize : Nat) (layout : Layout) : Prop where
  alignment : 0 < layout.alignment
  directory : layout.directoryStart ≤ layout.directoryEnd
  padding : layout.directoryEnd ≤ layout.dataStart
  chained : ∃ stop, Chained layout.alignment 0 stop layout.tensors ∧
    layout.dataStart + stop = fileSize

theorem SafeFrom.of_ok {α : Type} {source : ByteSource} {m : Parser α}
    {cursor next : Cursor} {a : α} (hm : Safe source m)
    (hcursor : cursor.position ≤ source.len)
    (h : m cursor = .ok (a, next)) :
    cursor.position ≤ next.position ∧ next.position ≤ source.len := by
  have hsafe := hm.from_cursor cursor hcursor
  rwa [h] at hsafe

theorem parseAlignment_pos {source : ByteSource} {metadataCount : Nat}
    {cursor next : Cursor} {alignment : Nat}
    (h : parseAlignment source metadataCount cursor =
      .ok (alignment, next)) : 0 < alignment := by
  unfold parseAlignment at h
  iterate 3 obtain ⟨_, _, _, h⟩ := parser_bind_eq_ok.mp h
  obtain ⟨_, _, hguard, h⟩ := parser_bind_eq_ok.mp h
  obtain ⟨heq, _⟩ := parser_pure_eq_ok.mp h
  rw [heq]
  exact lt_of_lt_of_le (by decide) (guarded_eq_ok.mp hguard).1.1

theorem parseDirectory_ok {source : ByteSource} {byte : Nat → UInt8}
    (hstable : source.Stable byte) {tensorCount alignment : Nat}
    {cursor next : Cursor} {layout : Layout} (hpos : 0 < alignment)
    (hcursor : cursor.position ≤ source.len)
    (h : parseDirectory source tensorCount alignment cursor =
      .ok (layout, next)) : LayoutOk source.len layout := by
  unfold parseDirectory at h
  obtain ⟨directoryStart, _, hstart, h⟩ := parser_bind_eq_ok.mp h
  obtain ⟨⟨tensors, dataLength⟩, middle, htensors, h⟩ :=
    parser_bind_eq_ok.mp h
  obtain ⟨directoryEnd, _, hend, h⟩ := parser_bind_eq_ok.mp h
  obtain ⟨dataStart, _, hdata, h⟩ := parser_bind_eq_ok.mp h
  obtain ⟨expectedFileSize, _, hexpected, h⟩ := parser_bind_eq_ok.mp h
  obtain ⟨_, _, hguard, h⟩ := parser_bind_eq_ok.mp h
  obtain ⟨heq, _⟩ := parser_pure_eq_ok.mp h
  cases hstart
  cases hend
  have hmoved := SafeFrom.of_ok (parseTensors_safe hstable _ _ _ _) hcursor
    htensors
  have hsize := (checkedAdd_eq_some.mp (orInvalid_eq_ok.mp hexpected).1).1
  have hfile := (guarded_eq_ok.mp hguard).1
  rw [heq]
  refine ⟨hpos, hmoved.1, ?_, dataLength, parseTensors_chained htensors, ?_⟩
  · have hstart := (orInvalid_eq_ok.mp hdata).1
    split at hstart
    · cases hstart
      exact le_refl _
    · exact alignUp_le hpos hstart
  · show dataStart + dataLength = source.len
    rw [← hsize, hfile]

/-- A stable source's layout is sound. -/
theorem parse_ok {source : ByteSource} {byte : Nat → UInt8}
    (hstable : source.Stable byte) {layout : Layout}
    (h : parse source = .ok layout) : LayoutOk source.len layout := by
  simp only [parse, except_bind_eq_ok, Except.ok.injEq] at h
  obtain ⟨⟨found, next⟩, h, rfl⟩ := h
  unfold parseLayout at h
  obtain ⟨⟨tensorCount, metadataCount⟩, first, hheader, h⟩ :=
    parser_bind_eq_ok.mp h
  obtain ⟨alignment, second, halignment, h⟩ := parser_bind_eq_ok.mp h
  have hfirst := SafeFrom.of_ok (parseHeader_safe hstable) (Nat.zero_le _)
    hheader
  have hsecond := SafeFrom.of_ok (parseAlignment_safe hstable _) hfirst.2
    halignment
  exact parseDirectory_ok hstable (parseAlignment_pos halignment) hsecond.2 h

/-- A stable source is refused only as invalid. -/
theorem parse_error {source : ByteSource} {byte : Nat → UInt8}
    (hstable : source.Stable byte) {refusal : ParseFailure}
    (h : parse source = .error refusal) : refusal = .invalid := by
  have hsafe := (parseLayout_safe hstable).from_cursor
    ⟨0, none, 0, 0, 0⟩ (Nat.zero_le _)
  unfold parse at h
  cases hrun : parseLayout source ⟨0, none, 0, 0, 0⟩ with
  | ok found =>
      rw [hrun] at h
      cases h
  | error found =>
      rw [hrun] at h hsafe
      cases h
      exact hsafe

/-- A source with a GGUF layout starts with the magic. -/
theorem parse_magic {source : ByteSource} {byte : Nat → UInt8}
    (hstable : source.Stable byte) (hlen : 4 ≤ source.len) {layout : Layout}
    (h : parse source = .ok layout) :
    ((List.range 4).map fun index => byte index) = magic := by
  simp only [parse, except_bind_eq_ok, Except.ok.injEq] at h
  obtain ⟨⟨found, next⟩, h, rfl⟩ := h
  unfold parseLayout at h
  obtain ⟨_, _, hheader, h⟩ := parser_bind_eq_ok.mp h
  unfold parseHeader at hheader
  obtain ⟨bytes, _, hread, hheader⟩ := parser_bind_eq_ok.mp hheader
  obtain ⟨_, _, hguard, _⟩ := parser_bind_eq_ok.mp hheader
  obtain ⟨hmagic, _⟩ := guarded_eq_ok.mp hguard
  unfold read at hread
  obtain ⟨_, middle, hensure, hfetch⟩ := parser_bind_eq_ok.mp hread
  unfold ensureNext at hensure
  simp only at hensure
  split at hensure
  · cases hensure
    rw [fetch_stable hstable (by simpa using hlen)] at hfetch
    cases hfetch
    simpa using hmagic
  · cases hensure

/-! When planning a GGUF layout fails. -/

def Exhausts (contract : Option Contract) (limit : Nat)
    (tensor : TensorInfo) : Prop :=
  Contract.Exhausts contract tensor.name (logicalShape tensor) tensor.length
    limit

def Overruns (contract : Option Contract) (limit : Nat)
    (tensor : TensorInfo) : Prop :=
  Contract.Overruns contract tensor.name (logicalShape tensor) tensor.length
    limit

/-- The grid objects one tensor and its padding take. -/
def tensorPieces (contract : Option Contract) (limit alignment : Nat)
    (tensor : TensorInfo) : Nat :=
  Contract.pieces contract tensor.name (logicalShape tensor) tensor.length
      limit +
    objectCount ((alignUp tensor.length alignment).getD 0 - tensor.length)

def usedBy (contract : Option Contract) (limit alignment : Nat)
    (tensors : List TensorInfo) : Nat :=
  (tensors.map (tensorPieces contract limit alignment)).sum

/-- Some tensor is reached within the object limit whose fusion asks for a
vector past the limit. -/
def Breaks (contract : Option Contract) (limit alignment used : Nat)
    (tensors : List TensorInfo) : Prop :=
  ∃ before tensor after, tensors = before ++ tensor :: after ∧
    Exhausts contract limit tensor ∧
    (∀ other ∈ before, ¬ Overruns contract limit other) ∧
    used + usedBy contract limit alignment before ≤ maxObjectCount

theorem breaks_cons {contract : Option Contract}
    {limit alignment used : Nat}
    {tensor : TensorInfo} {tensors : List TensorInfo}
    (hused : used ≤ maxObjectCount) :
    Breaks contract limit alignment used (tensor :: tensors) ↔
      Exhausts contract limit tensor ∨ (¬ Overruns contract limit tensor ∧
        Breaks contract limit alignment
          (used + tensorPieces contract limit alignment tensor) tensors) := by
  constructor
  · rintro ⟨before, found, after, hsplit, hexhausts, hclean, hfits⟩
    cases before with
    | nil =>
        cases hsplit
        exact .inl hexhausts
    | cons first before =>
        cases hsplit
        refine .inr ⟨hclean _ List.mem_cons_self, before, found, after, rfl,
          hexhausts, fun other hother =>
            hclean other (List.mem_cons_of_mem _ hother), ?_⟩
        simpa [usedBy, Nat.add_assoc] using hfits
  · rintro (hexhausts | ⟨hhead, before, found, after, rfl, hexhausts, hclean,
      hfits⟩)
    · exact ⟨[], tensor, tensors, rfl, hexhausts, by simp,
        by simpa [usedBy] using hused⟩
    · refine ⟨tensor :: before, found, after, rfl, hexhausts, ?_, ?_⟩
      · intro other hother
        rcases List.mem_cons.mp hother with rfl | hother
        · exact hhead
        · exact hclean other hother
      · simpa [usedBy, Nat.add_assoc] using hfits

theorem not_breaks_of_full {contract : Option Contract}
    {limit alignment used : Nat}
    {tensors : List TensorInfo} (hfull : maxObjectCount < used) :
    ¬ Breaks contract limit alignment used tensors := by
  rintro ⟨before, tensor, after, _, _, _, hfits⟩
  omega

theorem Chained.le {alignment expected stop : Nat} {tensors : List TensorInfo}
    (h : Chained alignment expected stop tensors) : expected ≤ stop := by
  induction tensors generalizing expected with
  | nil => exact le_of_eq h
  | cons tensor tensors ih =>
      obtain ⟨_, padded, _, hrest⟩ := h
      exact (Nat.le_add_right _ _).trans (ih hrest)

theorem ofPlanError_limit {α : Type} {x : Except PlanError α}
    (h : x = .error .objectLimit) :
    ofPlanError x = .error (.refused .invalid) := by
  rw [h]
  rfl

theorem ofPlanError_coverage {α : Type} {x : Except PlanError α}
    (h : x = .error .invalidCoverage) :
    ofPlanError x = .error (.refused .invalid) := by
  rw [h]
  rfl

theorem ofPlanError_ok {α : Type} {x : Except PlanError α} {a : α}
    (h : x = .ok a) : ofPlanError x = .ok a := by
  rw [h]
  rfl

/-- Adding one header domain either fits or refuses the layout. -/
theorem appendDomain_cases {regions : List Region}
    {start offset used : Nat} (length : Nat)
    (hcovers : Covers start offset used regions) :
    (used + objectCount length ≤ maxObjectCount ∧
      ∃ extended, appendDomain regions offset length .header = .ok extended ∧
        Covers start (offset + length) (used + objectCount length)
          extended) ∨
    (maxObjectCount < used + objectCount length ∧
      appendDomain regions offset length .header =
        .error (.refused .invalid)) := by
  by_cases hfits : used + objectCount length ≤ maxObjectCount
  · obtain ⟨extended, heq, hextended⟩ :=
      appendSplitRegion_covers .header hcovers hfits
    exact .inl ⟨hfits, extended, ofPlanError_ok heq, hextended⟩
  · have hfull := not_le.mp hfits
    exact .inr ⟨hfull, ofPlanError_limit
      (appendSplitRegion_limit .header hcovers hfull)⟩

theorem appendTensors_spec {contract : Option Contract}
    {alignment dataStart expected stop used limit : Nat} {regions : List Region}
    {tensors : List TensorInfo} (hfusions : Contract.FusionsOk contract)
    (hpos : 0 < alignment) (hsize : dataStart + stop < 2 ^ 64)
    (hchained : Chained alignment expected stop tensors)
    (hcovers : Covers 0 (dataStart + expected) used regions)
    (hused : used ≤ maxObjectCount) :
    (Breaks contract limit alignment used tensors ∧
      appendTensors contract alignment dataStart regions tensors limit =
        .error .panicked) ∨
    (¬ Breaks contract limit alignment used tensors ∧
      (appendTensors contract alignment dataStart regions tensors limit =
          .error (.refused .invalid) ∨
        ∃ extended count,
          appendTensors contract alignment dataStart regions tensors limit =
            .ok extended ∧
          Covers 0 (dataStart + stop) count extended ∧
          count ≤ maxObjectCount)) := by
  induction tensors generalizing expected used regions with
  | nil =>
      cases hchained
      refine .inr ⟨?_, .inr ⟨regions, used, rfl, hcovers, hused⟩⟩
      rintro ⟨before, tensor, after, hsplit, _⟩
      simp at hsplit
  | cons tensor tensors ih =>
      obtain ⟨hoffset, padded, hpadded, hrest⟩ := hchained
      have hpad := alignUp_le hpos hpadded
      have hstop := hrest.le
      have hbound : tensor.length < 2 ^ 64 := by omega
      have hstart : checkedAdd dataStart tensor.offset =
          some (dataStart + expected) := by
        rw [checkedAdd_eq_some, hoffset]
        exact ⟨rfl, by omega⟩
      have hpieces : tensorPieces contract limit alignment tensor =
          Contract.pieces contract tensor.name (logicalShape tensor)
            tensor.length limit + objectCount (padded - tensor.length) := by
        rw [tensorPieces, hpadded, Option.getD_some]
      rw [breaks_cons hused, appendTensors, hstart, orRefused, except_ok_bind]
      by_cases hexhausts : Exhausts contract limit tensor
      · refine .inl ⟨.inl hexhausts, ?_⟩
        rw [Contract.seams_of_exhausts hbound hexhausts, except_error_bind]
      · simp only [hexhausts, false_or]
        by_cases hoverruns : Overruns contract limit tensor
        · refine .inr ⟨fun hbreaks => hbreaks.1 hoverruns, .inl ?_⟩
          rw [(Contract.seams_of_overruns hfusions hbound hoverruns).1,
            except_ok_bind]
          by_cases hfits : used + Contract.pieces contract tensor.name
              (logicalShape tensor) tensor.length limit ≤ maxObjectCount
          · rw [appendSeamedDomain, ofPlanError_coverage
              (tensorRegions_misplaced hfusions hbound hoverruns hcovers
                hfits), except_error_bind]
          · rw [appendSeamedDomain, ofPlanError_limit
              (tensorRegions_limit hcovers hused (not_le.mp hfits)),
              except_error_bind]
        · rw [(Contract.seams_of_not hfusions hbound hexhausts hoverruns).1,
            except_ok_bind]
          simp only [hoverruns, not_false_eq_true, true_and]
          by_cases hfits : used + Contract.pieces contract tensor.name
              (logicalShape tensor) tensor.length limit ≤ maxObjectCount
          · obtain ⟨seamed, heq, hseamed⟩ := tensorRegions_covers hfusions
              hbound hexhausts hoverruns hcovers hfits
            rw [appendSeamedDomain, ofPlanError_ok heq, except_ok_bind,
              hpadded, orRefused, except_ok_bind]
            rcases appendDomain_cases (padded - tensor.length) hseamed with
              ⟨hroom, extended, hdomain, hextended⟩ | ⟨hfull, hdomain⟩
            · rw [hdomain, except_ok_bind, hpieces, ← Nat.add_assoc]
              have hnext : dataStart + expected + tensor.length +
                  (padded - tensor.length) =
                    dataStart + (expected + padded) := by omega
              rw [hnext] at hextended
              exact ih hrest hextended hroom
            · rw [hdomain, except_error_bind, hpieces, ← Nat.add_assoc]
              exact .inr ⟨not_breaks_of_full hfull, .inl rfl⟩
          · have hfull := not_le.mp hfits
            rw [appendSeamedDomain, ofPlanError_limit
              (tensorRegions_limit hcovers hused hfull), except_error_bind]
            refine .inr ⟨not_breaks_of_full ?_, .inl rfl⟩
            rw [hpieces]
            omega

def headerPieces (layout : Layout) : Nat :=
  objectCount layout.directoryStart +
    objectCount (layout.directoryEnd - layout.directoryStart) +
    objectCount (layout.dataStart - layout.directoryEnd)

theorem planLayout_spec {P : Platform} {fileSize : Nat}
    {contract : Option Contract} {layout : Layout} {limit : Nat}
    (hfusions : Contract.FusionsOk contract) (hsize : fileSize < 2 ^ 64)
    (hlayout : LayoutOk fileSize layout) :
    (Breaks contract limit layout.alignment (headerPieces layout) layout.tensors ∧
      planLayout P fileSize contract layout limit = .error .panicked) ∨
    (¬ Breaks contract limit layout.alignment (headerPieces layout)
        layout.tensors ∧
      (planLayout P fileSize contract layout limit = .error (.refused .invalid) ∨
        ∃ plan count, planLayout P fileSize contract layout limit = .ok plan ∧
          plan.planner = .ggufV1 ∧ plan.fileSize = fileSize ∧
          Covers 0 fileSize count plan.regions ∧
          count ≤ maxObjectCount)) := by
  obtain ⟨stop, hchained, hstop⟩ := hlayout.chained
  have hdirectory := hlayout.directory
  have hpadding := hlayout.padding
  unfold planLayout
  rcases appendDomain_cases layout.directoryStart (Covers.empty 0) with ⟨hroom, first, heq, hfirst⟩ | ⟨hfull, heq⟩
  swap
  · rw [heq, except_error_bind]
    refine .inr ⟨not_breaks_of_full ?_, .inl rfl⟩
    unfold headerPieces
    omega
  rw [heq, except_ok_bind]
  rw [Nat.zero_add, Nat.zero_add] at hfirst
  rcases appendDomain_cases (layout.directoryEnd - layout.directoryStart)
      hfirst with
    ⟨hroom, second, heq, hsecond⟩ | ⟨hfull, heq⟩
  swap
  · rw [heq, except_error_bind]
    refine .inr ⟨not_breaks_of_full ?_, .inl rfl⟩
    unfold headerPieces
    omega
  rw [heq, except_ok_bind]
  rw [show layout.directoryStart +
    (layout.directoryEnd - layout.directoryStart) = layout.directoryEnd by
      omega] at hsecond
  rcases appendDomain_cases (layout.dataStart - layout.directoryEnd)
      hsecond with
    ⟨hroom, third, heq, hthird⟩ | ⟨hfull, heq⟩
  swap
  · rw [heq, except_error_bind]
    exact .inr ⟨not_breaks_of_full hfull, .inl rfl⟩
  rw [heq, except_ok_bind]
  rw [show layout.directoryEnd +
    (layout.dataStart - layout.directoryEnd) = layout.dataStart + 0 by
      omega] at hthird
  rcases appendTensors_spec hfusions hlayout.alignment (by omega) hchained
      hthird hroom with
    ⟨hbreaks, htensors⟩ | ⟨hclean, htensors | ⟨extended, count, htensors,
      hextended, hcount⟩⟩
  · exact .inl ⟨hbreaks, by rw [htensors, except_error_bind]⟩
  · exact .inr ⟨hclean, .inl (by rw [htensors, except_error_bind])⟩
  · rw [htensors, except_ok_bind]
    rw [hstop] at hextended
    exact .inr ⟨hclean, .inr ⟨_, count, rfl, rfl, rfl, hextended, hcount⟩⟩

end TensorFS.Gguf
