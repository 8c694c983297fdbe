import TensorFS.Data.Sha256
import TensorFS.Planner.GgufCover
import TensorFS.Planner.PlanOnce
import TensorFS.Tfm1.Bijection

namespace TensorFS

open Data

/-! Planning is total on stable sources, up to the seams that cannot be cut. -/

/-- The plan cuts the whole source into consecutive non-empty regions: the
bounded grid of a tensor container, or one blob. -/
structure ExactPlan (source : ByteSource) (plan : Plan) : Prop where
  fileSize : plan.fileSize = source.len
  tiles : Tiles 0 source.len plan.regions
  tensor : plan.planner ≠ .blobV1 → plan.regions.length ≤ maxObjectCount ∧
    ∀ region ∈ plan.regions, region.length ≤ maxObjectSize
  blob : plan.planner = .blobV1 →
    plan.regions.length = if source.len = 0 then 0 else 1

/-- A declared fusion stops the planner: a GGUF tensor reached within the
object limit asks for a run vector past the allocator's limit, or a non-empty
safetensors tensor does, or its shares sum past 64 bits and still cut it. -/
def SeamsBreak (P : Platform) (source : ByteSource)
    (contract : Option Contract) (limit : Nat) : Prop :=
  (24 ≤ source.len ∧ ∃ layout, Gguf.parse source = .ok layout ∧
    Gguf.Breaks contract limit layout.alignment (Gguf.headerPieces layout)
      layout.tensors) ∨
  (10 ≤ source.len ∧ ∃ layout,
    Safetensors.readLayout P source = .ok (some layout) ∧
    Safetensors.Breaks contract limit (objectCount layout.headerEnd)
      layout.tensors)

section

variable {P : Platform} {source : ByteSource} {byte : Nat → UInt8}
  {contract : Option Contract} {limit : Nat}

theorem exactPlan_blob (source : ByteSource) :
    ExactPlan source (blobPlan source.len) := by
  refine ⟨rfl, ?_, fun hne => absurd rfl hne, ?_⟩
  · by_cases hzero : source.len = 0
    · simp [blobPlan, hzero, Tiles]
    · simp [blobPlan, hzero, Tiles, Nat.pos_of_ne_zero hzero]
  · intro _
    by_cases hzero : source.len = 0
    · simp [blobPlan, hzero]
    · simp [blobPlan, hzero]

theorem exactPlan_covers {plan : Plan} {count : Nat}
    (hplanner : plan.planner ≠ .blobV1) (hsize : plan.fileSize = source.len)
    (hcovers : Covers 0 source.len count plan.regions)
    (hcount : count ≤ maxObjectCount) : ExactPlan source plan :=
  ⟨hsize, hcovers.tiles,
    fun _ => ⟨by rw [hcovers.count]; exact hcount, hcovers.bounded⟩,
    fun hblob => absurd hblob hplanner⟩

theorem validated_blob :
    validated (blobPlan source.len) = .ok (blobPlan source.len) := by
  rw [validated, validate_blobPlan source.len_lt]
  rfl

theorem validated_covers {plan : Plan} {count : Nat}
    (hplanner : plan.planner ≠ .blobV1) (hsize : plan.fileSize = source.len)
    (hcovers : Covers 0 source.len count plan.regions)
    (hcount : count ≤ maxObjectCount) : validated plan = .ok plan := by
  rw [validated, validate_of_covers (by rw [hsize]; exact source.len_lt)
    hplanner hcount (by rw [hsize]; exact hcovers)]
  rfl

/-- The GGUF magic read as a length is no safetensors header. -/
theorem readLayout_of_gguf (hstable : source.Stable byte)
    (hlen : 24 ≤ source.len) {layout : Gguf.Layout}
    (h : Gguf.parse source = .ok layout) :
    Safetensors.readLayout P source = .ok none := by
  have hmagic := Gguf.parse_magic hstable (by omega) h
  refine Safetensors.readLayout_of_large hstable ?_
  simp only [List.range, List.range.loop, List.map_cons, List.map_nil,
    Gguf.magic, List.cons.injEq, and_true] at hmagic
  obtain ⟨h₀, h₁, h₂, h₃⟩ := hmagic
  simp only [Safetensors.prefixSize, Safetensors.maxHeaderSize, List.range,
    List.range.loop, List.map_cons, List.map_nil, leNat, Nat.zero_add, h₀, h₁,
    h₂, h₃]
  have hthird : (0x46 : UInt8).toNat = 70 := rfl
  omega

/-- Past the GGUF planner: a safetensors plan, a blob, or a broken seam. -/
theorem safetensors_cases (hstable : source.Stable byte)
    (hfusions : Contract.FusionsOk contract) :
    ((∃ layout, Safetensors.readLayout P source = .ok (some layout) ∧
        Safetensors.Breaks contract limit (objectCount layout.headerEnd)
          layout.tensors) ∧
      ∃ failure, Safetensors.tryPlan P source contract limit = .error failure) ∨
    ((¬ ∃ layout, Safetensors.readLayout P source = .ok (some layout) ∧
        Safetensors.Breaks contract limit (objectCount layout.headerEnd)
          layout.tensors) ∧
      (Safetensors.tryPlan P source contract limit = .ok none ∨
        ∃ plan, Safetensors.tryPlan P source contract limit = .ok (some plan) ∧
          validated plan = .ok plan ∧ ExactPlan source plan)) := by
  rcases @Safetensors.readLayout_stable P source byte hstable with
    hnone | ⟨layout, hlayout, hok⟩
  · right
    refine ⟨?_, .inl ?_⟩
    · rintro ⟨layout, hlayout, _⟩
      rw [hnone] at hlayout
      cases hlayout
    · rw [Safetensors.tryPlan, hnone, refusing, except_ok_bind]
  · have hiff : (∃ found, Safetensors.readLayout P source = .ok (some found) ∧
        Safetensors.Breaks contract limit (objectCount found.headerEnd)
          found.tensors) ↔
        Safetensors.Breaks contract limit (objectCount layout.headerEnd)
          layout.tensors := by
      constructor
      · rintro ⟨found, hfound, hbreaks⟩
        rw [hlayout] at hfound
        cases hfound
        exact hbreaks
      · exact fun hbreaks => ⟨layout, hlayout, hbreaks⟩
    have hplan : Safetensors.tryPlan P source contract limit =
        Safetensors.planLayout P source.len contract layout limit := by
      rw [Safetensors.tryPlan, hlayout, refusing, except_ok_bind]
    rw [hiff, hplan]
    rcases Safetensors.planLayout_spec hfusions source.len_lt hok with
      hbreaks | ⟨hclean, hnone | ⟨plan, count, hsome, hplanner, hsize,
        hcovers, hcount⟩⟩
    · exact .inl hbreaks
    · exact .inr ⟨hclean, .inl hnone⟩
    · have hne : plan.planner ≠ .blobV1 := by
        rw [hplanner]
        decide
      exact .inr ⟨hclean, .inr ⟨plan, hsome,
        validated_covers hne hsize hcovers hcount,
        exactPlan_covers hne hsize hcovers hcount⟩⟩

theorem gguf_cases (hstable : source.Stable byte)
    (hfusions : Contract.FusionsOk contract) :
    ((∃ layout, Gguf.parse source = .ok layout ∧
        Gguf.Breaks contract limit layout.alignment (Gguf.headerPieces layout)
          layout.tensors) ∧
      Gguf.tryPlan P source contract limit = .error .panicked) ∨
    ((¬ ∃ layout, Gguf.parse source = .ok layout ∧
        Gguf.Breaks contract limit layout.alignment (Gguf.headerPieces layout)
          layout.tensors) ∧
      (Gguf.tryPlan P source contract limit = .ok none ∨
        ((∃ layout, Gguf.parse source = .ok layout) ∧
        ∃ plan, Gguf.tryPlan P source contract limit = .ok (some plan) ∧
          validated plan = .ok plan ∧ ExactPlan source plan))) := by
  cases hparse : Gguf.parse source with
  | error refusal =>
      have hinvalid := Gguf.parse_error hstable hparse
      subst hinvalid
      refine .inr ⟨?_, .inl ?_⟩
      · rintro ⟨layout, hlayout, _⟩
        cases hlayout
      · rw [Gguf.tryPlan, hparse, refusing, except_error_bind, Gguf.lift]
  | ok layout =>
      have hok := Gguf.parse_ok hstable hparse
      have hiff : (∃ found, Except.ok layout =
          (.ok found : Except Gguf.ParseFailure Gguf.Layout) ∧
          Gguf.Breaks contract limit found.alignment (Gguf.headerPieces found)
            found.tensors) ↔
          Gguf.Breaks contract limit layout.alignment (Gguf.headerPieces layout)
            layout.tensors := by
        constructor
        · rintro ⟨found, hfound, hbreaks⟩
          cases hfound
          exact hbreaks
        · exact fun hbreaks => ⟨layout, rfl, hbreaks⟩
      have hplan : Gguf.tryPlan P source contract limit =
          Gguf.lift (Gguf.planLayout P source.len contract layout limit) := by
        rw [Gguf.tryPlan, hparse, refusing, except_ok_bind]
      rw [hiff, hplan]
      rcases @Gguf.planLayout_spec P source.len contract layout limit hfusions
          source.len_lt hok with
        ⟨hbreaks, heq⟩ | ⟨hclean, heq | ⟨plan, count, heq, hplanner, hsize,
          hcovers, hcount⟩⟩
      · exact .inl ⟨hbreaks, by rw [heq, Gguf.lift]⟩
      · exact .inr ⟨hclean, .inl (by rw [heq, Gguf.lift])⟩
      · have hne : plan.planner ≠ .blobV1 := by
          rw [hplanner]
          decide
        exact .inr ⟨hclean, .inr ⟨⟨layout, rfl⟩, plan, by rw [heq, Gguf.lift],
          validated_covers hne hsize hcovers hcount,
          exactPlan_covers hne hsize hcovers hcount⟩⟩

theorem planWith_stable (hstable : source.Stable byte) :
    planWith P source contract limit = planOnce P source contract limit := by
  rw [planWith, ByteSource.checkUnchanged, ensure_of hstable.unchanged]
  rfl

/-- Without a GGUF plan, planning ends as the safetensors planner does. -/
theorem safetensorsOrBlobPlan_iff (hstable : source.Stable byte)
    (hfusions : Contract.FusionsOk contract) :
    (∃ plan, safetensorsOrBlobPlan P source contract limit = .ok plan ∧
        ExactPlan source plan) ↔
      ¬ ∃ layout, Safetensors.readLayout P source = .ok (some layout) ∧
        Safetensors.Breaks contract limit (objectCount layout.headerEnd)
          layout.tensors := by
  unfold safetensorsOrBlobPlan
  rcases @safetensors_cases P source byte contract limit hstable hfusions with
    ⟨hbreaks, failure, heq⟩ | ⟨hclean, heq | ⟨plan, heq, hvalid, hexact⟩⟩
  · rw [heq, except_error_bind]
    refine ⟨?_, fun hclean => absurd hbreaks hclean⟩
    rintro ⟨plan, hplan, _⟩
    cases hplan
  · rw [heq, except_ok_bind]
    exact ⟨fun _ => hclean, fun _ => ⟨_, validated_blob, exactPlan_blob source⟩⟩
  · rw [heq, except_ok_bind]
    exact ⟨fun _ => hclean, fun _ => ⟨plan, hvalid, hexact⟩⟩

end

/-- Every stable source is planned exactly, except where a declared fusion
breaks the planner. -/
theorem plan_exact_iff (P : Platform) (source : ByteSource)
    (byte : Nat → UInt8) (hstable : source.Stable byte)
    (contract : Option Contract) (limit : Nat)
    (haccepted : ∀ found, contract = some found →
      ∃ fromStr document, Contract.parse fromStr document = .ok found) :
    (∃ plan, planWith P source contract limit = .ok plan ∧
        ExactPlan source plan) ↔
      ¬ SeamsBreak P source contract limit := by
  have hfusions : Contract.FusionsOk contract := by
    intro found name fusion hfound hfusion
    obtain ⟨fromStr, document, hparse⟩ := haccepted found hfound
    exact Contract.fusionsOk_of_parse hparse found name fusion rfl hfusion
  rw [planWith_stable hstable]
  by_cases hshort : source.len < 10
  · have hclean : ¬ SeamsBreak P source contract limit := by
      rintro (⟨hlen, _⟩ | ⟨hlen, _⟩)
      · omega
      · omega
    refine ⟨fun _ => hclean, fun _ => ⟨_, ?_, exactPlan_blob source⟩⟩
    rw [planOnce, if_pos hshort]
    exact validated_blob
  · rw [planOnce, if_neg hshort]
    by_cases hlong : 24 ≤ source.len
    · rw [ggufPlan, if_pos hlong]
      rcases @gguf_cases P source byte contract limit hstable hfusions with
        ⟨hbreaks, heq⟩ | ⟨hclean, heq | ⟨⟨layout, hparse⟩, plan, heq, hvalid,
          hexact⟩⟩
      · rw [heq, except_error_bind]
        refine ⟨?_, fun hnot => absurd (.inl ⟨hlong, hbreaks⟩) hnot⟩
        rintro ⟨plan, hplan, _⟩
        cases hplan
      · rw [heq, except_ok_bind]
        simp only
        rw [safetensorsOrBlobPlan_iff hstable hfusions]
        refine not_congr ⟨fun hbreaks => .inr ⟨not_lt.mp hshort, hbreaks⟩, ?_⟩
        rintro (⟨_, hbreaks⟩ | ⟨_, hbreaks⟩)
        · exact absurd hbreaks hclean
        · exact hbreaks
      · rw [heq, except_ok_bind]
        refine ⟨fun _ => ?_, fun _ => ⟨plan, hvalid, hexact⟩⟩
        rintro (⟨_, hbreaks⟩ | ⟨_, layout, hlayout, _⟩)
        · exact hclean hbreaks
        · rw [readLayout_of_gguf hstable hlong hparse] at hlayout
          cases hlayout
    · rw [ggufPlan, if_neg hlong, except_ok_bind]
      simp only
      rw [safetensorsOrBlobPlan_iff hstable hfusions]
      refine not_congr ⟨fun hbreaks => .inr ⟨not_lt.mp hshort, hbreaks⟩, ?_⟩
      rintro (⟨hlen, _⟩ | ⟨_, hbreaks⟩)
      · exact absurd hlen hlong
      · exact hbreaks

/-! A two-mebibyte safetensors file and the contracts that split it in two. -/

namespace SplitFile

def headerText : Text :=
  ("\x7b\"w\":\x7b\"dtype\":\"U8\",\"shape\":[2097152]," ++
    "\"data_offsets\":[0,2097152]\x7d\x7d").toList

def headerJson : Json :=
  .object [("w".toList, .object
    [("dtype".toList, .string "U8".toList),
      ("shape".toList, .array [.number (some 2097152)]),
      ("data_offsets".toList,
        .array [.number (some 0), .number (some 2097152)])])]

def platform : Platform where
  unicode := asciiUnicode
  sha256 := sha256
  json bytes := if bytes = headerText.utf8 then some headerJson else none

/-- The header, then zeros. -/
def byte (index : Nat) : UInt8 :=
  (leBytes 8 headerText.utf8Len ++ headerText.utf8).getD index 0

def source : ByteSource where
  len := 8 + headerText.utf8Len + 2097152
  len_lt := by decide +kernel
  readAt offset count :=
    if offset + count ≤ 8 + headerText.utf8Len + 2097152 then
      some ((List.range count).map fun index => byte (offset + index))
    else none
  unchanged := true

theorem stable : source.Stable byte :=
  ⟨rfl, fun _ _ hinside => if_pos hinside⟩

/-- One tensor in two parts of the given shares. -/
def documentText (left right : UInt64) : Text :=
  "\x7b\"format\":\"tensorfs-contract-v1\",\"name\":\"split.pair\",".toList ++
    "\"version\":1,\"tensors\":[\x7b\"role\":\"w\",".toList ++
    "\"pattern\":\"w\",\"fusion\":\x7b\"axis\":0,\"parts\":".toList ++
    "[\x7b\"role\":\"a\",\"share\":".toList ++ decimal left.toNat ++
    "\x7d,\x7b\"role\":\"b\",\"share\":".toList ++ decimal right.toNat ++
    "\x7d]\x7d\x7d]\x7d".toList

def rawDocument (left right : UInt64) : RawContract where
  format := contractFormat
  name := some "split.pair".toList
  version := some 1
  description := []
  dtype := none
  tensors := [{
    role := "w".toList
    pattern := "w".toList
    dtypes := []
    rank := none
    required := true
    fusion := some ⟨0, 1, [⟨"a".toList, left⟩, ⟨"b".toList, right⟩]⟩
    permute := none }]
  sets := .empty

def fromStr (left right : UInt64) (document : Text) :
    Except Text RawContract :=
  if document = documentText left right then .ok (rawDocument left right)
  else .error []

def contract (left right : UInt64) : Contract where
  handle := some ⟨"split.pair".toList, 1, by decide, Handle.version_one⟩
  description := []
  dtype := none
  tensors := [{
    role := ⟨[.literal "w".toList], "w".toList⟩
    pattern := ⟨[.literal "w".toList], "w".toList⟩
    dtypes := []
    rank := none
    required := true
    fusion := some ⟨1, [⟨"a".toList, left⟩, ⟨"b".toList, right⟩]⟩
    permute := none }]
  sets := .empty

end SplitFile

/-- Shares of `2 ^ 63` and `2 ^ 63 + 2 ^ 21` sum to the tensor's own rows after
the wrap, and the planner fails on the file. -/
theorem plan_refuses_wrapped_shares :
    Contract.parse
        (SplitFile.fromStr 9223372036854775808 9223372036856872960)
        (SplitFile.documentText 9223372036854775808 9223372036856872960) =
      .ok (SplitFile.contract 9223372036854775808 9223372036856872960) ∧
    SplitFile.source.Stable SplitFile.byte ∧
    planWith SplitFile.platform SplitFile.source
        (some (SplitFile.contract 9223372036854775808 9223372036856872960)) =
      .error (.refused .invalidCoverage) := by
  refine ⟨?_, SplitFile.stable, by decide +kernel⟩
  rw [Contract.parse, SplitFile.fromStr, if_pos rfl]
  rfl

namespace SplitFile

theorem contract_equal_shares (found : Contract)
    (hfound : some (contract 1 1) = some found) :
    ∃ fromStr document, Contract.parse fromStr document = .ok found := by
  cases hfound
  refine ⟨fromStr 1 1, documentText 1 1, ?_⟩
  rw [Contract.parse, fromStr, if_pos rfl]
  rfl

end SplitFile

/-- Equal shares cut the same file into its header and two mebibytes, once the
allocator grants a vector of two runs. -/
theorem plan_exact_iff_equal_shares :
    ¬ SeamsBreak SplitFile.platform SplitFile.source
        (some (SplitFile.contract 1 1)) 2 ∧
      SeamsBreak SplitFile.platform SplitFile.source
        (some (SplitFile.contract 1 1)) 1 := by
  constructor
  · refine (plan_exact_iff SplitFile.platform SplitFile.source SplitFile.byte
      SplitFile.stable _ 2 SplitFile.contract_equal_shares).mp
      ⟨⟨.safetensorsV1,
        .named ⟨"split.pair".toList, 1, by decide, Handle.version_one⟩,
        8 + SplitFile.headerText.utf8Len + 2097152,
        [⟨0, 8 + SplitFile.headerText.utf8Len, .header⟩,
          ⟨8 + SplitFile.headerText.utf8Len, 1048576, .tensor⟩,
          ⟨8 + SplitFile.headerText.utf8Len + 1048576, 1048576, .tensor⟩]⟩,
        by decide +kernel, ?_⟩
    refine ⟨rfl, ?_, fun _ => by decide +kernel, by decide⟩
    exact ⟨rfl, by decide +kernel, rfl, by decide, rfl, by decide, rfl⟩
  · by_contra hbreaks
    obtain ⟨plan, hplan, _⟩ := (plan_exact_iff SplitFile.platform
      SplitFile.source SplitFile.byte SplitFile.stable _ 1
      SplitFile.contract_equal_shares).mpr hbreaks
    have hpanicked : planWith SplitFile.platform SplitFile.source
        (some (SplitFile.contract 1 1)) 1 = .error .panicked := by
      decide +kernel
    rw [hpanicked] at hplan
    cases hplan

end TensorFS
