import TensorFS.Planner.Safetensors
import TensorFS.Planner.Seams

namespace TensorFS

open Data

/-! One tensor's regions under a contract. -/

section Tensor

variable {contract : Option Contract} {name : Text} {shape : List UInt64}
  {regions : List Region} {offset length used limit : Nat}

theorem tensorRegions_covers (hfusions : Contract.FusionsOk contract)
    (hlength : length < 2 ^ 64)
    (hexhausts : ¬ Contract.Exhausts contract name shape length limit)
    (hoverruns : ¬ Contract.Overruns contract name shape length limit)
    (hcovers : Covers 0 offset used regions)
    (hfits : used + Contract.pieces contract name shape length limit ≤
      maxObjectCount) :
    ∃ extended, appendTensorRegions regions offset length
        (Contract.cutPoints contract name shape length limit) .tensor =
          .ok extended ∧
      Covers 0 (offset + length)
        (used + Contract.pieces contract name shape length limit) extended :=
  appendSeams_covers .tensor (Nat.zero_le _) hcovers
    (Contract.seams_of_not (ε := Unit) hfusions hlength hexhausts
      hoverruns).2 hfits

theorem tensorRegions_limit (hcovers : Covers 0 offset used regions)
    (hused : used ≤ maxObjectCount)
    (hfull : maxObjectCount <
      used + Contract.pieces contract name shape length limit) :
    appendTensorRegions regions offset length
      (Contract.cutPoints contract name shape length limit) .tensor =
        .error .objectLimit :=
  appendSeams_limit .tensor (Nat.zero_le _) hcovers hused hfull

theorem tensorRegions_misplaced (hfusions : Contract.FusionsOk contract)
    (hlength : length < 2 ^ 64)
    (hoverruns : Contract.Overruns contract name shape length limit)
    (hcovers : Covers 0 offset used regions)
    (hfits : used + Contract.pieces contract name shape length limit ≤
      maxObjectCount) :
    appendTensorRegions regions offset length
      (Contract.cutPoints contract name shape length limit) .tensor =
        .error .invalidCoverage :=
  appendSeams_misplaced .tensor (Nat.zero_le _) hcovers
    (Contract.seams_of_overruns (ε := Unit) hfusions hlength hoverruns).2
    hfits

end Tensor

namespace Safetensors

/-! When planning a safetensors layout fails. -/

def Exhausts (contract : Option Contract) (limit : Nat)
    (tensor : TensorEntry) : Prop :=
  Contract.Exhausts contract tensor.name tensor.shape tensor.length limit

def Overruns (contract : Option Contract) (limit : Nat)
    (tensor : TensorEntry) : Prop :=
  Contract.Overruns contract tensor.name tensor.shape tensor.length limit

/-- The grid objects one tensor takes; an empty tensor is passed over. -/
def tensorPieces (contract : Option Contract) (limit : Nat)
    (tensor : TensorEntry) : Nat :=
  if tensor.length = 0 then 0
  else Contract.pieces contract tensor.name tensor.shape tensor.length limit

def usedBy (contract : Option Contract) (limit : Nat)
    (tensors : List TensorEntry) : Nat :=
  (tensors.map (tensorPieces contract limit)).sum

/-- Some non-empty tensor is reached within the object limit whose fusion asks
for a vector past the limit, or whose fusion overflows and is cut at a misplaced
seam within the limit. -/
def Breaks (contract : Option Contract) (limit used : Nat)
    (tensors : List TensorEntry) : Prop :=
  ∃ before tensor after, tensors = before ++ tensor :: after ∧
    tensor.length ≠ 0 ∧
    ((Exhausts contract limit tensor ∧
        used + usedBy contract limit before ≤ maxObjectCount) ∨
      (Overruns contract limit tensor ∧
        used + usedBy contract limit before + tensorPieces contract limit tensor ≤
          maxObjectCount))

theorem breaks_cons {contract : Option Contract} {limit used : Nat}
    {tensor : TensorEntry} {tensors : List TensorEntry}
    (hused : used ≤ maxObjectCount) :
    Breaks contract limit used (tensor :: tensors) ↔
      (tensor.length ≠ 0 ∧ (Exhausts contract limit tensor ∨
        (Overruns contract limit tensor ∧
          used + tensorPieces contract limit tensor ≤ maxObjectCount))) ∨
      Breaks contract limit (used + tensorPieces contract limit tensor) tensors := by
  constructor
  · rintro ⟨before, found, after, hsplit, hne, hcase⟩
    cases before with
    | nil =>
        cases hsplit
        refine .inl ⟨hne, ?_⟩
        rcases hcase with ⟨hexhausts, _⟩ | ⟨hoverruns, hfits⟩
        · exact .inl hexhausts
        · exact .inr ⟨hoverruns, by simpa [usedBy] using hfits⟩
    | cons first before =>
        cases hsplit
        refine .inr ⟨before, found, after, rfl, hne, ?_⟩
        simpa [usedBy, Nat.add_assoc] using hcase
  · rintro (⟨hne, hcase⟩ | ⟨before, found, after, rfl, hne, hcase⟩)
    · refine ⟨[], tensor, tensors, rfl, hne, ?_⟩
      rcases hcase with hexhausts | ⟨hoverruns, hfits⟩
      · exact .inl ⟨hexhausts, by simpa [usedBy] using hused⟩
      · exact .inr ⟨hoverruns, by simpa [usedBy] using hfits⟩
    · refine ⟨tensor :: before, found, after, rfl, hne, ?_⟩
      simpa [usedBy, Nat.add_assoc] using hcase

theorem not_breaks_of_full {contract : Option Contract} {limit used : Nat}
    {tensors : List TensorEntry} (hfull : maxObjectCount < used) :
    ¬ Breaks contract limit used tensors := by
  rintro ⟨before, tensor, after, _, _, ⟨_, hfits⟩ | ⟨_, hfits⟩⟩
  · omega
  · omega

/-- Either the layout breaks and planning fails, or planning gives up or covers
the whole data section. -/
theorem appendTensors_spec {contract : Option Contract}
    {headerEnd dataSize cursor used limit : Nat} {regions : List Region}
    {tensors : List TensorEntry} (hfusions : Contract.FusionsOk contract)
    (hsize : headerEnd + dataSize < 2 ^ 64)
    (hordered : ∀ tensor ∈ tensors, tensor.start ≤ tensor.stop)
    (hcontiguous : contiguous dataSize cursor tensors = true)
    (hcovers : Covers 0 (headerEnd + cursor) used regions)
    (hused : used ≤ maxObjectCount) :
    (Breaks contract limit used tensors ∧
      ∃ failure, appendTensors contract headerEnd regions tensors limit =
        .error failure) ∨
    (¬ Breaks contract limit used tensors ∧
      (appendTensors contract headerEnd regions tensors limit = .ok none ∨
        ∃ extended count,
          appendTensors contract headerEnd regions tensors limit =
            .ok (some extended) ∧
          Covers 0 (headerEnd + dataSize) count extended ∧
          count ≤ maxObjectCount)) := by
  induction tensors generalizing cursor used regions with
  | nil =>
      have hcursor : cursor = dataSize := by simpa [contiguous] using hcontiguous
      subst hcursor
      refine .inr ⟨?_, .inr ⟨regions, used, rfl, hcovers, hused⟩⟩
      rintro ⟨before, tensor, after, hsplit, _⟩
      simp at hsplit
  | cons tensor tensors ih =>
      have horder := hordered tensor List.mem_cons_self
      have hrestOrder : ∀ other ∈ tensors, other.start ≤ other.stop :=
        fun other hother => hordered other (List.mem_cons_of_mem _ hother)
      simp only [contiguous, Bool.and_eq_true, beq_iff_eq,
        decide_eq_true_eq] at hcontiguous
      obtain ⟨⟨hstart, hstop⟩, hrest⟩ := hcontiguous
      have hlength : tensor.start + tensor.length = tensor.stop := by
        unfold TensorEntry.length
        omega
      rw [breaks_cons hused]
      by_cases hempty : tensor.length = 0
      · have hpieces : tensorPieces contract limit tensor = 0 := by
          simp [tensorPieces, hempty]
        have hsame : headerEnd + tensor.stop = headerEnd + cursor := by omega
        rw [appendTensors, if_pos hempty, hpieces, Nat.add_zero]
        simp only [hempty, ne_eq, not_true_eq_false, false_and, false_or]
        exact ih hrestOrder hrest (by rw [hsame]; exact hcovers) hused
      · have hpieces : tensorPieces contract limit tensor =
            Contract.pieces contract tensor.name tensor.shape
              tensor.length limit := by
          simp [tensorPieces, hempty]
        have hbound : tensor.length < 2 ^ 64 := by omega
        rw [appendTensors, if_neg hempty]
        simp only [ne_eq, hempty, not_false_eq_true, true_and]
        by_cases hexhausts : Exhausts contract limit tensor
        · refine .inl ⟨.inl (.inl hexhausts), .panicked, ?_⟩
          rw [Contract.seams_of_exhausts hbound hexhausts, except_error_bind]
        · by_cases hoverruns : Overruns contract limit tensor
          · rw [(Contract.seams_of_overruns hfusions hbound hoverruns).1,
              except_ok_bind]
            by_cases hfits :
                used + tensorPieces contract limit tensor ≤ maxObjectCount
            · refine .inl ⟨.inl (.inr ⟨hoverruns, hfits⟩),
                .refused .invalidCoverage, ?_⟩
              rw [hstart, tensorRegions_misplaced hfusions hbound hoverruns
                hcovers (by rw [← hpieces]; exact hfits)]
              rfl
            · have hfull := not_le.mp hfits
              refine .inr ⟨?_, .inl ?_⟩
              · rintro ((hagain | ⟨_, hagain⟩) | hlater)
                · exact hexhausts hagain
                · exact hfits hagain
                · exact not_breaks_of_full hfull hlater
              · rw [hstart, tensorRegions_limit hcovers hused
                  (by rw [← hpieces]; exact hfull)]
                rfl
          · rw [(Contract.seams_of_not hfusions hbound hexhausts hoverruns).1,
              except_ok_bind]
            simp only [hexhausts, hoverruns, false_and, false_or]
            by_cases hfits :
                used + tensorPieces contract limit tensor ≤ maxObjectCount
            · obtain ⟨extended, heq, hextended⟩ := tensorRegions_covers
                hfusions hbound hexhausts hoverruns hcovers
                (by rw [← hpieces]; exact hfits)
              rw [hstart, heq]
              have hnext : headerEnd + cursor + tensor.length =
                  headerEnd + tensor.stop := by omega
              rw [hnext, ← hpieces] at hextended
              exact ih hrestOrder hrest hextended hfits
            · have hfull := not_le.mp hfits
              refine .inr ⟨not_breaks_of_full hfull, .inl ?_⟩
              rw [hstart, tensorRegions_limit hcovers hused
                (by rw [← hpieces]; exact hfull)]
              rfl

/-! Layouts the reader returns. -/

structure LayoutOk (fileSize : Nat) (layout : Layout) : Prop where
  inside : layout.headerEnd ≤ fileSize
  small : objectCount layout.headerEnd ≤ maxObjectCount
  ordered : ∀ tensor ∈ layout.tensors, tensor.start ≤ tensor.stop
  contiguous : contiguous (fileSize - layout.headerEnd) 0 layout.tensors = true

theorem tensorEntry_ordered {name : Text} {tensor : TensorDescriptor}
    {entry : TensorEntry} (h : tensorEntry name tensor = some entry) :
    entry.start ≤ entry.stop := by
  simp only [tensorEntry] at h
  split at h
  · rename_i hordered
    cases h
    exact hordered.1
  · cases h

theorem mapM_tensorEntry_ordered {header : List (Text × TensorDescriptor)}
    {tensors : List TensorEntry}
    (h : (header.mapM fun item => tensorEntry item.1 item.2) = some tensors) :
    ∀ tensor ∈ tensors, tensor.start ≤ tensor.stop := by
  induction header generalizing tensors with
  | nil =>
      cases h
      simp
  | cons item header ih =>
      simp only [List.mapM_cons, Option.bind_eq_bind,
        Option.bind_eq_some_iff] at h
      obtain ⟨entry, hentry, rest, hrest, heq⟩ := h
      cases heq
      intro tensor htensor
      rcases List.mem_cons.mp htensor with rfl | htensor
      · exact tensorEntry_ordered hentry
      · exact ih hrest tensor htensor

theorem layoutOfHeader_ok {fileSize headerEnd : Nat}
    {header : List (Text × TensorDescriptor)} {layout : Layout}
    (h : layoutOfHeader fileSize headerEnd header = some layout) :
    layout.headerEnd = headerEnd ∧
      (∀ tensor ∈ layout.tensors, tensor.start ≤ tensor.stop) ∧
      contiguous (fileSize - layout.headerEnd) 0 layout.tensors = true := by
  simp only [layoutOfHeader, Option.bind_eq_bind, Option.bind_eq_some_iff] at h
  obtain ⟨tensors, htensors, h⟩ := h
  split at h
  · rename_i hcontiguous
    cases h
    refine ⟨rfl, ?_, hcontiguous⟩
    intro tensor htensor
    exact mapM_tensorEntry_ordered htensors tensor
      ((List.mem_insertionSort byExtent).mp htensor)
  · cases h

theorem objectCount_le {length : Nat}
    (h : length ≤ prefixSize + maxHeaderSize) :
    objectCount length ≤ maxObjectCount := by
  unfold prefixSize maxHeaderSize at h
  unfold objectCount maxObjectCount maxObjectSize
  omega

/-- A stable source's layout is read without an error, and is sound. -/
theorem readLayout_stable {P : Platform} {source : ByteSource}
    {byte : Nat → UInt8} (hstable : source.Stable byte) :
    readLayout P source = .ok none ∨
      ∃ layout, readLayout P source = .ok (some layout) ∧
        LayoutOk source.len layout := by
  unfold readLayout
  split
  · exact .inl rfl
  · rename_i hlen
    have hfront := hstable.reads 0 prefixSize
      (by unfold prefixSize at *; omega)
    rw [ByteSource.readExactAt, hfront]
    simp only [except_ok_bind]
    split
    · exact .inl rfl
    · rename_i hheader
      split
      · exact .inl rfl
      · rename_i hinside
        rw [ByteSource.readExactAt, hstable.reads prefixSize _
          (not_lt.mp hinside)]
        simp only [except_ok_bind]
        split
        · exact .inl rfl
        · generalize hfound : (do
              let json ← P.json _
              let header ← headerOfJson json
              layoutOfHeader source.len _ header) = found
          cases found with
          | none => exact .inl rfl
          | some layout =>
              refine .inr ⟨layout, rfl, ?_⟩
              simp only [Option.bind_eq_bind,
                Option.bind_eq_some_iff] at hfound
              obtain ⟨json, _, header, _, hlayout⟩ := hfound
              obtain ⟨hend, hordered, hcontiguous⟩ := layoutOfHeader_ok hlayout
              push Not at hheader
              refine ⟨by omega, objectCount_le (by omega), hordered,
                hcontiguous⟩

/-- A header of 100,000,000 bytes or more is no safetensors header. -/
theorem readLayout_of_large {P : Platform} {source : ByteSource}
    {byte : Nat → UInt8} (hstable : source.Stable byte)
    (hlarge : maxHeaderSize <
      leNat ((List.range prefixSize).map fun index => byte (0 + index))) :
    readLayout P source = .ok none := by
  unfold readLayout
  split
  · rfl
  · rename_i hlen
    have hfront := hstable.reads 0 prefixSize
      (by unfold prefixSize at *; omega)
    rw [ByteSource.readExactAt, hfront]
    simp only [except_ok_bind]
    rw [if_pos (.inr hlarge)]

theorem planLayout_spec {P : Platform} {fileSize : Nat}
    {contract : Option Contract} {layout : Layout} {limit : Nat}
    (hfusions : Contract.FusionsOk contract) (hsize : fileSize < 2 ^ 64)
    (hlayout : LayoutOk fileSize layout) :
    (Breaks contract limit (objectCount layout.headerEnd) layout.tensors ∧
      ∃ failure, planLayout P fileSize contract layout limit = .error failure) ∨
    (¬ Breaks contract limit (objectCount layout.headerEnd) layout.tensors ∧
      (planLayout P fileSize contract layout limit = .ok none ∨
        ∃ plan count, planLayout P fileSize contract layout limit = .ok (some plan) ∧
          plan.planner = .safetensorsV1 ∧ plan.fileSize = fileSize ∧
          Covers 0 fileSize count plan.regions ∧
          count ≤ maxObjectCount)) := by
  have hinside := hlayout.inside
  have hsmall := hlayout.small
  obtain ⟨regions, heq, hcovers⟩ := @appendSplitRegion_covers [] 0 0
    layout.headerEnd 0 .header (Covers.empty 0)
    (by rw [Nat.zero_add]; exact hsmall)
  rw [Nat.zero_add, Nat.zero_add] at hcovers
  unfold planLayout
  rw [heq, orNone, except_ok_bind]
  simp only
  rcases appendTensors_spec hfusions
      (show layout.headerEnd + (fileSize - layout.headerEnd) < 2 ^ 64 by
        omega) hlayout.ordered hlayout.contiguous hcovers hsmall with
    ⟨hbreaks, failure, htensors⟩ | ⟨hclean, htensors | ⟨extended, count,
      htensors, hextended, hcount⟩⟩
  · exact .inl ⟨hbreaks, failure, by rw [htensors, except_error_bind]⟩
  · exact .inr ⟨hclean, .inl (by rw [htensors, except_ok_bind])⟩
  · rw [htensors, except_ok_bind]
    rw [show layout.headerEnd + (fileSize - layout.headerEnd) = fileSize by
      omega] at hextended
    exact .inr ⟨hclean, .inr ⟨_, count, rfl, rfl, rfl, hextended, hcount⟩⟩

end Safetensors

end TensorFS
