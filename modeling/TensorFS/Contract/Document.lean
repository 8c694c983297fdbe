import TensorFS.Contract.Pattern
import TensorFS.Data.OrdMap

namespace TensorFS

open Data

/-! Seam descriptors: the documents that direct chunking. -/

def contractFormat : Text := "tensorfs-contract-v1".toList

/-- The smallest byte run a declared seam may produce. -/
def minSeamPartBytes : Nat := 1024 * 1024

structure FusionPart where
  role : Text
  share : UInt64
  deriving DecidableEq

structure FusionRun where
  role : Text
  length : Nat
  deriving DecidableEq

/-- An unfused tensor is a single run under its bare role. -/
def FusionRun.whole (length : Nat) : FusionRun := ⟨[], length⟩

structure Fusion where
  groups : UInt64
  parts : List FusionPart
  deriving DecidableEq

namespace Fusion

/-- The declared shares as an unbounded sum. -/
def shareSum (fusion : Fusion) : Nat :=
  (fusion.parts.map fun part => part.share.toNat).sum

/-- The summed shares wrap at 64 bits; only the product is checked. -/
def units (fusion : Fusion) : Option Nat :=
  checkedMul (fusion.shareSum % 2 ^ 64) fusion.groups.toNat

/-- A vector of runs takes 32 bytes a slot and at most `isize::MAX` in all. -/
def maxRunCapacity : Nat := (2 ^ 63 - 1) / 32

/-- The slots a vector of the given capacity has once it holds `count` runs:
growing doubles it, to no fewer than four. -/
def grownCapacity (capacity count : Nat) : Nat :=
  if count ≤ capacity then capacity
  else max 4 (capacity * 2 ^ Nat.clog 2 ((count + capacity - 1) / capacity))

def runRole (fusion : Fusion) (group : Nat) (part : FusionPart) : Text :=
  (if part.role = [] then [] else '#' :: part.role) ++
    (if 1 < fusion.groups.toNat then '@' :: decimal group else [])

def partRun (fusion : Fusion) (unitBytes group : Nat) (part : FusionPart) :
    Option FusionRun := do
  let length ← checkedMul unitBytes part.share.toNat
  some ⟨fusion.runRole group part, length⟩

/-- Every part of every group, in file order. -/
def cycle (fusion : Fusion) : List (Nat × FusionPart) :=
  (List.range fusion.groups.toNat).flatMap fun group =>
    fusion.parts.map fun part => (group, part)

/-- The runs pushed before one is too long, if any is. -/
def pushed (fusion : Fusion) (unitBytes : Nat) : Nat :=
  (fusion.cycle.takeWhile fun slot =>
    (fusion.partRun unitBytes slot.1 slot.2).isSome).length

/-- The vector has room for the units before the first run is pushed.  More
slots than `limit` are not allocated, and the call does not return; where no
limit is given, the address space is one. -/
def runs {ε : Type} (fusion : Fusion) (shape : List UInt64)
    (byteLength : Nat) (limit : Nat := maxRunCapacity) :
    Except (Failure ε) (Option (List FusionRun)) :=
  match shape.head?, fusion.units with
  | some rows, some units =>
      if rows.toNat = 0 ∨ units = 0 ∨ ¬ units ∣ rows.toNat then .ok none
      else if ¬ rows.toNat ∣ byteLength then .ok none
      else
        match checkedMul (byteLength / rows.toNat) (rows.toNat / units) with
        | none => .ok none
        | some unitBytes =>
            if limit < grownCapacity units (fusion.pushed unitBytes) then
              .error .panicked
            else
              .ok (fusion.cycle.mapM fun slot =>
                fusion.partRun unitBytes slot.1 slot.2)
  | _, _ => .ok none

end Fusion

inductive Dim where
  | literal (value : Nat)
  | axis (index divisor : Nat)
  | auto
  deriving DecidableEq

namespace Dim

def splitOnce (sep : Char) (text : Text) : Option (Text × Text) :=
  match text.span (· ≠ sep) with
  | (_, []) => none
  | (front, _ :: back) => some (front, back)

def parseAxis (head : Text) : Option Nat := do
  let rest ← Pattern.stripPrefix "shape[".toList head
  if rest.getLast? = some ']' then parseU64 rest.dropLast else none

def parse (text : Text) : Option Dim :=
  if text = "auto".toList then some .auto
  else
    match parseU64 text with
    | some value => if 0 < value then some (.literal value) else none
    | none =>
        match splitOnce '/' text with
        | none => (parseAxis text).map fun index => .axis index 1
        | some (head, tail) => do
            let divisor ← (parseU64 tail).filter fun value => 0 < value
            let index ← parseAxis head
            some (.axis index divisor)

def ofJson : Json → Option Dim
  | .number unsigned =>
      match unsigned with
      | some value =>
          if 0 < value.toNat then some (.literal value.toNat) else none
      | none => none
  | .string text => parse text
  | _ => none

def render : Dim → Text
  | .literal value => decimal value
  | .auto => "auto".toList
  | .axis index divisor =>
      "shape[".toList ++ decimal index ++ "]/".toList ++ decimal divisor

end Dim

structure Permute where
  view : List Dim
  axes : List Nat
  deriving DecidableEq

namespace Permute

def resolveDim (shape : List UInt64) : Dim → Option Nat
  | .literal value => some value
  | .axis index divisor => do
      let extent ← shape[index]?
      if divisor = 0 ∨ ¬ divisor ∣ extent.toNat then none
      else some (extent.toNat / divisor)
  | .auto => some 1

/-- The dimensions in order with the inferred one still at 1, its position, and
the product of the others. -/
def resolveView (shape : List UInt64) :
    Nat → Option Nat → Nat → List Dim → Option (List Nat × Option Nat × Nat)
  | _, auto, known, [] => some ([], auto, known)
  | index, auto, known, dim :: dims => do
      let value ← resolveDim shape dim
      if dim = .auto ∧ auto.isSome then none
      else if value = 0 then none
      else do
        let known ← checkedMul known value
        let auto := if dim = .auto then some index else auto
        let (resolved, auto, known) ←
          resolveView shape (index + 1) auto known dims
        some (value :: resolved, auto, known)

/-- The concrete view dimensions for a tensor of this shape. -/
def resolve (permute : Permute) (shape : List UInt64) :
    Option (List Nat) := do
  let elements ← checkedProduct 1 (shape.map UInt64.toNat)
  let (resolved, auto, known) ← resolveView shape 0 none 1 permute.view
  match auto with
  | none => if known = elements then some resolved else none
  | some index =>
      if known = 0 ∨ ¬ known ∣ elements then none
      else some (resolved.set index (elements / known))

end Permute

structure TensorPattern where
  role : Pattern
  pattern : Pattern
  dtypes : List Text
  rank : Option Nat
  required : Bool
  fusion : Option Fusion
  permute : Option Permute
  deriving DecidableEq

structure Contract where
  handle : Option Handle
  description : Text
  dtype : Option Text
  tensors : List TensorPattern
  sets : OrdMap Text (List Pattern)

/-! Document parsing. -/

structure RawFusion where
  axis : Nat
  groups : UInt64
  parts : List FusionPart

structure RawPermute where
  view : List Json
  axes : List Nat

structure RawTensor where
  role : Text
  pattern : Text
  dtypes : List Text
  rank : Option Nat
  required : Bool
  fusion : Option RawFusion
  permute : Option RawPermute

structure RawContract where
  format : Text
  name : Option Text
  version : Option UInt32
  description : Text
  dtype : Option Text
  tensors : List RawTensor
  sets : OrdMap Text (List Text)

/-- The parts with positive shares, distinct roles, and no unnamed part after
another. -/
def validateParts (malformed : ContractError) :
    List Text → List FusionPart → Except ContractError Unit
  | _, [] => .ok ()
  | roles, part :: parts => do
      ensure (part.share ≠ 0 ∧ part.role ∉ roles) malformed
      ensure (¬ (part.role = [] ∧ roles ≠ [])) malformed
      validateParts malformed (part.role :: roles) parts

def RawFusion.validate (raw : RawFusion) (malformed : ContractError) :
    Except ContractError Fusion := do
  ensure (raw.axis = 0 ∧ raw.groups ≠ 0 ∧ raw.parts ≠ [] ∧
    ¬ (raw.groups = 1 ∧ raw.parts.length < 2)) malformed
  validateParts malformed [] raw.parts
  ensure (¬ (raw.parts.any (fun part => part.role = []) ∧
    1 < raw.parts.length)) malformed
  .ok ⟨raw.groups, raw.parts⟩

def RawPermute.validate (raw : RawPermute) (fused : Bool)
    (malformed : ContractError) : Except ContractError Permute := do
  ensure (fused = false) malformed
  ensure (2 ≤ raw.view.length ∧ raw.axes.length = raw.view.length) malformed
  ensure (raw.axes.all (· < raw.axes.length) ∧ raw.axes.Nodup) malformed
  ensure (raw.axes ≠ List.range raw.axes.length) malformed
  match raw.view.mapM Dim.ofJson with
  | none => .error malformed
  | some view => .ok ⟨view, raw.axes⟩

def validateFusion (raw : RawTensor) :
    Except ContractError (Option Fusion) :=
  match raw.fusion with
  | none => .ok none
  | some fusion => do
      let fusion ← fusion.validate (.fusion raw.pattern)
      .ok (some fusion)

def validatePermute (raw : RawTensor) (fused : Bool) :
    Except ContractError (Option Permute) :=
  match raw.permute with
  | none => .ok none
  | some permute => do
      let permute ← permute.validate fused (.permute raw.pattern)
      .ok (some permute)

def RawTensor.validate (raw : RawTensor) (patterns roles : List Text) :
    Except ContractError TensorPattern := do
  let pattern ← Pattern.parse raw.pattern
  let role ← Pattern.parse raw.role
  ensure (role.holes = pattern.holes) (.roleHoles raw.role)
  ensure (raw.pattern ∉ patterns) (.duplicate raw.pattern)
  ensure (raw.role ∉ roles) (.duplicate raw.role)
  let fusion ← validateFusion raw
  let permute ← validatePermute raw fusion.isSome
  .ok ⟨role, pattern, raw.dtypes, raw.rank, raw.required, fusion, permute⟩

def validateTensors : List Text → List Text → List RawTensor →
    Except ContractError (List TensorPattern)
  | _, _, [] => .ok []
  | patterns, roles, raw :: rest => do
      let tensor ← raw.validate patterns roles
      let tensors ← validateTensors (raw.pattern :: patterns)
        (raw.role :: roles) rest
      .ok (tensor :: tensors)

/-- Every accepted declaration is one of the document's. -/
theorem validateTensors_mem {patterns roles : List Text}
    {raws : List RawTensor} {tensors : List TensorPattern}
    (h : validateTensors patterns roles raws = .ok tensors) :
    ∀ tensor ∈ tensors, ∃ raw ∈ raws, ∃ patterns roles,
      RawTensor.validate raw patterns roles = .ok tensor := by
  induction raws generalizing patterns roles tensors with
  | nil =>
      cases h
      simp
  | cons raw raws ih =>
      simp only [validateTensors, except_bind_eq_ok, Except.ok.injEq] at h
      obtain ⟨head, hhead, tail, htail, rfl⟩ := h
      refine List.forall_mem_cons.mpr
        ⟨⟨raw, List.mem_cons_self, _, _, hhead⟩, fun tensor hmem => ?_⟩
      obtain ⟨found, hfound, hvalid⟩ := ih htail tensor hmem
      exact ⟨found, List.mem_cons_of_mem _ hfound, hvalid⟩

def parsePatterns : List Text → Except ContractError (List Pattern)
  | [] => .ok []
  | text :: rest => do
      let pattern ← Pattern.parse text
      let patterns ← parsePatterns rest
      .ok (pattern :: patterns)

def validateSets : OrdMap Text (List Pattern) → List (Text × List Text) →
    Except ContractError (OrdMap Text (List Pattern))
  | sets, [] => .ok sets
  | sets, (name, members) :: rest => do
      ensure (members ≠ []) (.set name)
      let compiled ← parsePatterns members
      validateSets (sets.insert name compiled) rest

def validateHandle : Option Text → Option UInt32 →
    Except ContractError (Option Handle)
  | none, none => .ok none
  | some name, some version => do
      let handle ← Handle.new name version
      .ok (some handle)
  | _, _ => .error .identity

def usableDtype (dtype : Text) : Bool :=
  dtype ≠ [] && dtype.utf8Len ≤ 32 &&
    dtype.all fun c => c.isLower || c.isDigit || c = '_'

def validateDtype : Option Text → Except ContractError Unit
  | none => .ok ()
  | some dtype => ensure (usableDtype dtype) (.dtype dtype)

def RawContract.validate (raw : RawContract) :
    Except ContractError Contract := do
  ensure (raw.format = contractFormat) .format
  let handle ← validateHandle raw.name raw.version
  validateDtype raw.dtype
  ensure (raw.tensors ≠ []) .noTensors
  let tensors ← validateTensors [] [] raw.tensors
  let sets ← validateSets .empty raw.sets.entries
  .ok ⟨handle, raw.description, raw.dtype, tensors, sets⟩

namespace Contract

/-- `fromStr` is the derived deserializer of the document type. -/
def parse (fromStr : Text → Except Text RawContract) (document : Text) :
    Except ContractError Contract :=
  match fromStr document with
  | .error detail => .error (.json detail)
  | .ok raw => raw.validate

/-! Identity. -/

def joinTexts (sep : Text) : List Text → Text
  | [] => []
  | [text] => text
  | text :: rest => text ++ sep ++ joinTexts sep rest

def canonicalPermute (permute : Permute) : Text :=
  " permute=".toList ++
    (permute.view.flatMap fun dim => dim.render ++ [',']) ++ ":[".toList ++
    joinTexts ", ".toList (permute.axes.map decimal) ++ "]".toList

def canonicalFusion (fusion : Fusion) : Text :=
  " fusion=groups:".toList ++ decimal fusion.groups.toNat ++ ",".toList ++
    fusion.parts.flatMap fun part =>
      part.role ++ ":".toList ++ decimal part.share.toNat ++ ",".toList

def canonicalTensor (tensor : TensorPattern) : Text :=
  "tensor role=".toList ++ tensor.role.text ++ " pattern=".toList ++
    tensor.pattern.text ++ " rank=".toList ++
    (match tensor.rank with
      | none => "any".toList
      | some rank => decimal rank) ++
    " required=".toList ++
    (if tensor.required then "true" else "false").toList ++
    " dtypes=".toList ++ joinTexts ",".toList tensor.dtypes ++
    (match tensor.permute with
      | none => []
      | some permute => canonicalPermute permute) ++
    (match tensor.fusion with
      | none => []
      | some fusion => canonicalFusion fusion) ++ ['\n']

def canonicalSet (set : Text × List Pattern) : Text :=
  "set ".toList ++ set.1 ++ "=".toList ++
    (set.2.flatMap fun pattern => pattern.text ++ ",".toList) ++ ['\n']

def canonical (contract : Contract) : Text :=
  contractFormat ++ ['\n'] ++
    (match contract.handle with
      | none => []
      | some handle => "name=".toList ++ handle.name ++ "\nversion=".toList ++
          decimal handle.version.toNat ++ ['\n']) ++
    (match contract.dtype with
      | none => []
      | some dtype => "dtype=".toList ++ dtype ++ ['\n']) ++
    contract.tensors.flatMap canonicalTensor ++
    contract.sets.entries.flatMap canonicalSet

def digest (sha256 : Bytes → Digest) (contract : Contract) : Digest :=
  sha256 contract.canonical.utf8

def stamp (sha256 : Bytes → Digest) (contract : Contract) : Stamp :=
  match contract.handle with
  | some handle => .named handle
  | none => .digest (contract.digest sha256)

/-! Seams. -/

/-- The first declared entry whose pattern matches the name. -/
def entryFor (contract : Contract) (name : Text) : Option TensorPattern :=
  contract.tensors.find? fun tensor => tensor.pattern.isMatch name

/-- The fusion that governs a tensor name, if one is declared. -/
def fusionFor (contract : Contract) (name : Text) : Option Fusion := do
  let entry ← contract.entryFor name
  entry.fusion

def runsOf {ε : Type} (contract : Contract) (name : Text)
    (shape : List UInt64) (byteLength : Nat)
    (limit : Nat := Fusion.maxRunCapacity) :
    Except (Failure ε) (Option (List FusionRun)) :=
  match contract.fusionFor name with
  | none => .ok none
  | some fusion => do
      let found ← fusion.runs shape byteLength limit
      .ok (found.filter fun runs =>
        runs.all fun run => minSeamPartBytes ≤ run.length)

/-- The running sums of every run but the last; the sum wraps at 64 bits. -/
def seamCuts : Nat → List FusionRun → List Nat
  | _, [] => []
  | _, [_] => []
  | cursor, run :: rest =>
      (cursor + run.length) % 2 ^ 64 ::
        seamCuts ((cursor + run.length) % 2 ^ 64) rest

def seamOffsets {ε : Type} (contract : Contract) (name : Text)
    (shape : List UInt64) (byteLength : Nat)
    (limit : Nat := Fusion.maxRunCapacity) :
    Except (Failure ε) (List Nat) := do
  match ← contract.runsOf name shape byteLength limit with
  | none => .ok []
  | some [] => .error .panicked
  | some runs => .ok (seamCuts 0 runs)

/-- The cut points a planner asks for; no contract, no seams. -/
def seams {ε : Type} (contract : Option Contract) (name : Text)
    (shape : List UInt64) (byteLength : Nat)
    (limit : Nat := Fusion.maxRunCapacity) :
    Except (Failure ε) (List Nat) :=
  match contract with
  | none => .ok []
  | some contract => contract.seamOffsets name shape byteLength limit

end Contract

end TensorFS
