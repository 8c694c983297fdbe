import TensorFS.Contract.Rendering

namespace TensorFS

open Data

/-! What the digest of a contract pins: the declarations of every two accepted
documents whose fields hold nothing that may close them. -/

theorem Pattern.parse_ok {text : Text} {pattern : Pattern}
    (h : Pattern.parse text = .ok pattern) :
    pattern.text = text ∧ pattern.Parsed := by
  have htext : pattern.text = text := by
    unfold Pattern.parse at h
    simp only [except_bind_eq_ok, exists_unit] at h
    obtain ⟨-, hpieces⟩ := h
    split at hpieces
    · cases hpieces
    · simp only [except_bind_eq_ok, exists_unit, Except.ok.injEq] at hpieces
      obtain ⟨-, rfl⟩ := hpieces
      rfl
  refine ⟨htext, ?_⟩
  unfold Pattern.Parsed
  rw [htext]
  exact h

/-- The parts a document lists for a tensor. -/
def RawTensor.parts (raw : RawTensor) : List FusionPart :=
  raw.fusion.toList.flatMap RawFusion.parts

/-- No free text of the document holds what may close its field. -/
structure RawContract.Framed (raw : RawContract) : Prop where
  tensors : ∀ tensor ∈ raw.tensors,
    FramedTensor tensor.role tensor.pattern tensor.dtypes tensor.parts
  sets : ∀ set ∈ raw.sets.entries, FramedSet set.1 set.2

theorem validateFusion_parts {raw : RawTensor} {fusion : Option Fusion}
    (h : validateFusion raw = .ok fusion) :
    declaredParts fusion = raw.parts := by
  unfold validateFusion at h
  unfold declaredParts RawTensor.parts
  cases hraw : raw.fusion with
  | none =>
      rw [hraw] at h
      cases h
      rfl
  | some declared =>
      simp only [hraw, except_bind_eq_ok, Except.ok.injEq] at h
      obtain ⟨found, hfound, rfl⟩ := h
      simp only [RawFusion.validate, except_bind_eq_ok, exists_unit,
        Except.ok.injEq] at hfound
      obtain ⟨-, -, -, rfl⟩ := hfound
      simp

theorem RawTensor.validate_framed {raw : RawTensor}
    {patterns roles : List Text} {tensor : TensorPattern}
    (h : raw.validate patterns roles = .ok tensor)
    (hframed : FramedTensor raw.role raw.pattern raw.dtypes raw.parts) :
    tensor.Framed := by
  simp only [RawTensor.validate, except_bind_eq_ok, exists_unit,
    ensure_eq_ok, Except.ok.injEq] at h
  obtain ⟨pattern, hpattern, role, hrole, _, _, _, fusion, hfusion, permute, _,
    rfl⟩ := h
  obtain ⟨hpatternText, hpatternParsed⟩ := Pattern.parse_ok hpattern
  obtain ⟨hroleText, hroleParsed⟩ := Pattern.parse_ok hrole
  refine ⟨hroleParsed, hpatternParsed, ?_⟩
  simp only [hpatternText, hroleText, validateFusion_parts hfusion]
  exact hframed

theorem parsePatterns_framed {texts : List Text} {patterns : List Pattern}
    (h : parsePatterns texts = .ok patterns)
    (hframed : ∀ text ∈ texts, FramedMember text) :
    ∀ pattern ∈ patterns, pattern.FramedMember := by
  induction texts generalizing patterns with
  | nil =>
      cases h
      simp
  | cons text texts ih =>
      simp only [parsePatterns, except_bind_eq_ok, Except.ok.injEq] at h
      obtain ⟨head, hhead, tail, htail, rfl⟩ := h
      obtain ⟨htext, hparsed⟩ := Pattern.parse_ok hhead
      refine List.forall_mem_cons.mpr ⟨⟨hparsed, ?_⟩, ih htail
        fun text hmem => hframed text (List.mem_cons_of_mem _ hmem)⟩
      rw [htext]
      exact hframed text List.mem_cons_self

theorem validateSets_framed {raws : List (Text × List Text)}
    {sets accepted : OrdMap Text (List Pattern)}
    (h : validateSets sets raws = .ok accepted)
    (hsets : ∀ set ∈ sets.entries, Contract.FramedSet set)
    (hframed : ∀ set ∈ raws, FramedSet set.1 set.2) :
    ∀ set ∈ accepted.entries, Contract.FramedSet set := by
  induction raws generalizing sets with
  | nil =>
      cases h
      exact hsets
  | cons raw raws ih =>
      obtain ⟨name, members⟩ := raw
      simp only [validateSets, except_bind_eq_ok, exists_unit] at h
      obtain ⟨-, compiled, hcompiled, hrest⟩ := h
      obtain ⟨hname, hmembers⟩ := hframed _ List.mem_cons_self
      refine ih hrest (fun set hmem => ?_)
        fun set hmem => hframed set (List.mem_cons_of_mem _ hmem)
      rcases OrdMap.mem_insert.mp hmem with rfl | ⟨hold, -⟩
      · exact ⟨hname, parsePatterns_framed hcompiled hmembers⟩
      · exact hsets set hold

theorem usableDtype_newline {dtype : Text} (h : usableDtype dtype = true) :
    '\n' ∉ dtype := by
  intro hmem
  simp only [usableDtype, Bool.and_eq_true, List.all_eq_true] at h
  exact absurd (h.2 '\n' hmem) (by decide)

theorem RawContract.validate_framed {raw : RawContract} {contract : Contract}
    (h : raw.validate = .ok contract) (hframed : raw.Framed) :
    contract.Framed := by
  simp only [RawContract.validate, except_bind_eq_ok, exists_unit,
    Except.ok.injEq] at h
  obtain ⟨-, handle, -, hdtype, -, tensors, htensors, sets, hsets, rfl⟩ := h
  refine ⟨fun dtype hmem => ?_, fun tensor hmem => ?_, ?_⟩
  · simp only [Option.mem_def] at hmem
    simp only [validateDtype, hmem, ensure_eq_ok] at hdtype
    exact usableDtype_newline hdtype
  · obtain ⟨declared, hdeclared, _, _, hvalid⟩ :=
      validateTensors_mem htensors tensor hmem
    exact declared.validate_framed hvalid (hframed.tensors declared hdeclared)
  · exact validateSets_framed hsets (by simp [OrdMap.empty]) hframed.sets

/-- The same of the document a text spells. -/
def FramedDocument (fromStr : Text → Except Text RawContract)
    (document : Text) : Prop :=
  ∀ raw, fromStr document = .ok raw → raw.Framed

theorem Contract.parse_framed {fromStr : Text → Except Text RawContract}
    {document : Text} {contract : Contract}
    (h : Contract.parse fromStr document = .ok contract)
    (hframed : FramedDocument fromStr document) : contract.Framed := by
  unfold Contract.parse at h
  split at h
  · cases h
  · rename_i raw hraw
    exact raw.validate_framed h (hframed raw hraw)

namespace Contract

theorem Alike.entryFor {left right : Contract} (h : left.Alike right) :
    left.entryFor = right.entryFor := by
  funext name
  unfold Contract.entryFor
  rw [h.tensors]

theorem Alike.seams {left right : Contract} (h : left.Alike right)
    {ε : Type} (name : Text) (shape : List UInt64) (byteLength : Nat) :
    (Contract.seams (some left) name shape byteLength :
      Except (Failure ε) (List Nat)) =
      Contract.seams (some right) name shape byteLength := by
  unfold Contract.seams Contract.seamOffsets Contract.runsOf
    Contract.fusionFor
  simp only [h.entryFor]

/-- Two accepted documents in which no free text holds what may close its field
render alike only when they declare the same; with no collision between the two
renderings, nameless ones under one stamp cut and arrange every tensor alike. -/
theorem digest_pins {fromStr : Text → Except Text RawContract}
    {left right : Text} {a b : Contract}
    (ha : Contract.parse fromStr left = .ok a)
    (hb : Contract.parse fromStr right = .ok b)
    (hleft : FramedDocument fromStr left)
    (hright : FramedDocument fromStr right) :
    (a.canonical = b.canonical →
      a.handle = b.handle ∧ a.dtype = b.dtype ∧ a.tensors = b.tensors ∧
        a.sets = b.sets) ∧
    ∀ sha256 : Bytes → Digest,
      (sha256 a.canonical.utf8 = sha256 b.canonical.utf8 →
        a.canonical.utf8 = b.canonical.utf8) →
      a.handle = none → b.handle = none → a.stamp sha256 = b.stamp sha256 →
      ∀ name, a.entryFor name = b.entryFor name ∧
        ∀ (shape : List UInt64) (byteLength : Nat),
          (Contract.seams (some a) name shape byteLength :
            Except (Failure ContractError) (List Nat)) =
            Contract.seams (some b) name shape byteLength := by
  have halike : a.canonical = b.canonical → a.Alike b :=
    (parse_framed ha hleft).alike (parse_framed hb hright)
  constructor
  · intro h
    obtain ⟨hhandle, hdtype, htensors, hsets⟩ := halike h
    exact ⟨hhandle, hdtype, htensors, hsets⟩
  · intro sha256 hfree hanone hbnone hstamp name
    simp only [stamp, hanone, hbnone, Stamp.digest.injEq] at hstamp
    have hsame := halike (Text.utf8_injective (hfree hstamp))
    exact ⟨by rw [hsame.entryFor], fun shape byteLength =>
      hsame.seams name shape byteLength⟩

/-! A fusion, and a list of dtypes that spells one. -/

def fusedDocument : Text :=
  "\x7b\"format\":\"tensorfs-contract-v1\",\"tensors\":[\x7b\"role\":\"qkv\",".toList ++
    "\"pattern\":\"qkv\",\"dtypes\":[\"BF16\"],\"fusion\":\x7b\"axis\":0,\"parts\":[".toList ++
    "\x7b\"role\":\"q\",\"share\":1\x7d,\x7b\"role\":\"kv\",\"share\":2\x7d]\x7d\x7d".toList ++
    "]\x7d".toList

/-- The same, described. -/
def describedDocument : Text :=
  "\x7b\"format\":\"tensorfs-contract-v1\",\"description\":\"q over kv\",".toList ++
    "\"tensors\":[\x7b\"role\":\"qkv\",\"pattern\":\"qkv\",\"dtypes\":[\"BF16\"],".toList ++
    "\"fusion\":\x7b\"axis\":0,\"parts\":[\x7b\"role\":\"q\",\"share\":1\x7d,".toList ++
    "\x7b\"role\":\"kv\",\"share\":2\x7d]\x7d\x7d]\x7d".toList

def spelledDocument : Text :=
  "\x7b\"format\":\"tensorfs-contract-v1\",\"tensors\":[\x7b\"role\":\"qkv\",".toList ++
    "\"pattern\":\"qkv\",\"dtypes\":[\"BF16 fusion=groups:1\",\"q:1\",\"kv:2\",".toList ++
    "\"\"]\x7d]\x7d".toList

def joined : Fusion := ⟨1, [⟨"q".toList, 1⟩, ⟨"kv".toList, 2⟩]⟩

def spelledDtypes : List Text :=
  ["BF16 fusion=groups:1".toList, "q:1".toList, "kv:2".toList, []]

def rawOf (description : Text) (dtypes : List Text)
    (fusion : Option Fusion) : RawContract :=
  ⟨contractFormat, none, none, description, none,
    [⟨"qkv".toList, "qkv".toList, dtypes, none, true,
      fusion.map fun fusion => ⟨0, fusion.groups, fusion.parts⟩, none⟩],
    .empty⟩

def acceptedOf (description : Text) (dtypes : List Text)
    (fusion : Option Fusion) : Contract :=
  ⟨none, description, none, [⟨⟨[.literal "qkv".toList], "qkv".toList⟩,
    ⟨[.literal "qkv".toList], "qkv".toList⟩, dtypes, none, true, fusion,
    none⟩], .empty⟩

def readDocument (text : Text) : Except Text RawContract :=
  if text = fusedDocument then .ok (rawOf [] ["BF16".toList] joined)
  else if text = describedDocument then
    .ok (rawOf "q over kv".toList ["BF16".toList] joined)
  else if text = spelledDocument then .ok (rawOf [] spelledDtypes none)
  else .error []

theorem readDocument_fused : readDocument fusedDocument =
    .ok (rawOf [] ["BF16".toList] joined) := by
  rw [readDocument, if_pos rfl]

theorem readDocument_described : readDocument describedDocument =
    .ok (rawOf "q over kv".toList ["BF16".toList] joined) := by
  have hne : describedDocument ≠ fusedDocument := by decide +kernel
  rw [readDocument, if_neg hne, if_pos rfl]

theorem readDocument_spelled : readDocument spelledDocument =
    .ok (rawOf [] spelledDtypes none) := by
  have hfused : spelledDocument ≠ fusedDocument := by decide +kernel
  have hdescribed : spelledDocument ≠ describedDocument := by decide +kernel
  rw [readDocument, if_neg hfused, if_neg hdescribed, if_pos rfl]

theorem digest_pins_described :
    (acceptedOf [] ["BF16".toList] joined).tensors =
      (acceptedOf "q over kv".toList ["BF16".toList] joined).tensors := by
  have hframed : ∀ description,
      (rawOf description ["BF16".toList] joined).Framed := by
    intro description
    constructor
    · intro tensor hmem
      rw [List.mem_singleton.mp hmem]
      constructor <;> decide
    · intro set hmem
      exact absurd hmem List.not_mem_nil
  have hfused : Contract.parse readDocument fusedDocument =
      .ok (acceptedOf [] ["BF16".toList] joined) := by
    rw [Contract.parse, readDocument_fused]
    rfl
  have hdescribed : Contract.parse readDocument describedDocument =
      .ok (acceptedOf "q over kv".toList ["BF16".toList] joined) := by
    rw [Contract.parse, readDocument_described]
    rfl
  have hpins := digest_pins hfused hdescribed
    (fun raw hraw => by
      rw [readDocument_fused] at hraw
      cases hraw
      exact hframed _)
    (fun raw hraw => by
      rw [readDocument_described] at hraw
      cases hraw
      exact hframed _)
  exact (hpins.1 (by decide)).2.2.1

/-- The dtypes of the second document spell the fusion of the first. -/
theorem spelled_fusion :
    ∃ a b : Contract,
      Contract.parse readDocument fusedDocument = .ok a ∧
      Contract.parse readDocument spelledDocument = .ok b ∧
      a.canonical = b.canonical ∧ a.tensors ≠ b.tensors ∧
      (∀ sha256, a.stamp sha256 = b.stamp sha256) ∧
      a.fusionFor "qkv".toList ≠ b.fusionFor "qkv".toList := by
  refine ⟨acceptedOf [] ["BF16".toList] joined,
    acceptedOf [] spelledDtypes none, ?_, ?_, ?_, ?_, ?_, ?_⟩
  · rw [Contract.parse, readDocument_fused]
    rfl
  · rw [Contract.parse, readDocument_spelled]
    rfl
  · decide
  · decide
  · intro sha256
    rfl
  · decide

/-! What no condition on one document alone can give: nearly every document
has a twin that says in one dtype all that stands behind its dtypes. -/

theorem getLast?_append_flatMap {α β : Type} {f : α → List β} {c : β}
    (hf : ∀ a, (f a).getLast? = some c) {as : List α} {front : List β}
    (hfront : front.getLast? = some c) :
    (front ++ as.flatMap f).getLast? = some c := by
  induction as generalizing front with
  | nil => simpa using hfront
  | cons a as ih =>
      rw [List.flatMap_cons, ← List.append_assoc]
      apply ih
      simp [List.getLast?_append, hf a]

theorem getLast?_canonicalSuffix (front : Text) (permute : Option Permute)
    (fusion : Option Fusion) :
    (front ++ canonicalSuffix permute fusion).getLast? = some '\n' := by
  simp [canonicalSuffix, List.getLast?_append]

theorem getLast?_canonicalTensor (tensor : TensorPattern) :
    (canonicalTensor tensor).getLast? = some '\n' := by
  rw [canonicalTensor_eq]
  simp only [← List.append_assoc]
  exact getLast?_canonicalSuffix _ _ _

theorem getLast?_canonicalSet (set : Text × List Pattern) :
    (canonicalSet set).getLast? = some '\n' := by
  unfold canonicalSet
  rw [List.getLast?_append]
  simp

/-- One declaration with one dtype, and nothing behind it. -/
def OneLine (contract : Contract) : Prop :=
  ∃ tensor dtype, contract.tensors = [tensor] ∧ tensor.dtypes = [dtype] ∧
    tensor.permute = none ∧ tensor.fusion = none ∧
    contract.sets = OrdMap.empty

end Contract

/-- A declaration with one dtype and no byte layout. -/
def RawTensor.oneLine (raw : RawTensor) (dtype : Text) : RawTensor :=
  { raw with dtypes := [dtype], fusion := none, permute := none }

def TensorPattern.oneLine (tensor : TensorPattern) (dtype : Text) :
    TensorPattern :=
  { tensor with dtypes := [dtype], fusion := none, permute := none }

theorem RawTensor.validate_oneLine {raw : RawTensor} {tensor : TensorPattern}
    (h : raw.validate [] [] = .ok tensor) (dtype : Text) :
    (raw.oneLine dtype).validate [] [] = .ok (tensor.oneLine dtype) := by
  simp only [RawTensor.validate, except_bind_eq_ok, exists_unit,
    ensure_eq_ok, Except.ok.injEq] at h ⊢
  obtain ⟨pattern, hpattern, role, hrole, hholes, hnew, hother, _, _, _, _,
    rfl⟩ := h
  exact ⟨pattern, hpattern, role, hrole, hholes, hnew, hother, none, rfl,
    none, rfl, rfl⟩

/-- An accepted document of more than one line has an accepted twin that
renders alike and declares something else. -/
theorem RawContract.exists_twin {raw : RawContract} {contract : Contract}
    (h : raw.validate = .ok contract) (hmore : ¬ contract.OneLine) :
    ∃ twin accepted, RawContract.validate twin = .ok accepted ∧
      accepted.canonical = contract.canonical ∧
      ¬ accepted.Alike contract := by
  simp only [RawContract.validate, except_bind_eq_ok, exists_unit,
    ensure_eq_ok, Except.ok.injEq] at h
  obtain ⟨hformat, handle, hhandle, hdtype, hsome, tensors, htensors, sets, -,
    rfl⟩ := h
  obtain ⟨declared, raws, hraws⟩ := List.exists_cons_of_ne_nil hsome
  simp only [hraws, validateTensors, except_bind_eq_ok, Except.ok.injEq]
    at htensors
  obtain ⟨tensor, hvalid, rest, -, rfl⟩ := htensors
  -- The text behind the first dtypes is one dtype and the end of its line.
  obtain ⟨dtype, htext⟩ : ∃ dtype,
      ",".toList.intercalate tensor.dtypes ++
        canonicalSuffix tensor.permute tensor.fusion ++
        rest.flatMap Contract.canonicalTensor ++
        sets.entries.flatMap Contract.canonicalSet = dtype ++ ['\n'] :=
    List.getLast?_eq_some_iff.mp (Contract.getLast?_append_flatMap
      Contract.getLast?_canonicalSet (Contract.getLast?_append_flatMap
        Contract.getLast?_canonicalTensor
        (Contract.getLast?_canonicalSuffix _ _ _)))
  refine ⟨{ raw with tensors := [declared.oneLine dtype], sets := .empty },
    ⟨handle, raw.description, raw.dtype, [tensor.oneLine dtype], .empty⟩,
    ?_, ?_, ?_⟩
  · simp only [RawContract.validate, except_bind_eq_ok, exists_unit,
      ensure_eq_ok, Except.ok.injEq]
    refine ⟨hformat, handle, hhandle, hdtype, List.cons_ne_nil _ _,
      [tensor.oneLine dtype], ?_, .empty, rfl, rfl⟩
    simp only [validateTensors, except_bind_eq_ok, Except.ok.injEq]
    exact ⟨_, declared.validate_oneLine hvalid dtype, [], rfl, rfl⟩
  · have hline : canonicalSuffix none none = ['\n'] := rfl
    simp only [canonical_eq, canonicalTensor_eq, TensorPattern.oneLine,
      List.flatMap_cons, List.flatMap_nil, List.append_nil,
      List.intercalate_singleton, OrdMap.empty, List.append_assoc, hline]
    rw [← htext]
    simp only [List.append_assoc]
  · intro halike
    exact hmore ⟨tensor.oneLine dtype, dtype, halike.tensors.symm, rfl, rfl,
      rfl, halike.sets.symm⟩

end TensorFS
