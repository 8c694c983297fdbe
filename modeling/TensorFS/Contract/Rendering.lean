import TensorFS.Contract.Document
import TensorFS.Data.Framing
import TensorFS.Tfm1.RulesParity

namespace TensorFS

open Data

/-! When the canonical rendering of a contract can be read back.  Nothing in it
is escaped, so a field reads back when it holds no literal that may close it. -/

section

def roleEnd : Delimiters Char :=
  ⟨[" pattern=".toList], by decide, by decide⟩

def patternEnd : Delimiters Char :=
  ⟨[" rank=".toList], by decide, by decide⟩

def rankEnd : Delimiters Char :=
  ⟨[" required=".toList], by decide, by decide⟩

/-- The dtypes end at the permute, the fusion or the line, whichever comes. -/
def dtypesEnd : Delimiters Char :=
  ⟨[",".toList, " permute=".toList, " fusion=groups:".toList, ['\n']],
    by decide, by decide⟩

def axesEnd : Delimiters Char :=
  ⟨[", ".toList, "]".toList], by decide, by decide⟩

end

/-- A part's role is met where the line might end, and a colon closes it. -/
def FusionPart.Framed (part : FusionPart) : Prop :=
  part.role.head? ≠ some '\n' ∧ ':' ∉ part.role

instance (part : FusionPart) : Decidable part.Framed :=
  inferInstanceAs (Decidable (_ ∧ _))

def declaredParts (fusion : Option Fusion) : List FusionPart :=
  fusion.toList.flatMap Fusion.parts

/-- The texts of one tensor declaration. -/
structure FramedTensor (role pattern : Text) (dtypes : List Text)
    (parts : List FusionPart) : Prop where
  role_free : roleEnd.Free role
  pattern_free : patternEnd.Free pattern
  dtypes_free : ∀ dtype ∈ dtypes, dtypesEnd.Free dtype
  dtypes_told : dtypes ≠ [[]]
  parts_framed : ∀ part ∈ parts, part.Framed

/-- A member of a set is met where the line might end, and a comma closes it. -/
def FramedMember (member : Text) : Prop :=
  member.head? ≠ some '\n' ∧ ',' ∉ member

def FramedSet (name : Text) (members : List Text) : Prop :=
  '=' ∉ name ∧ ∀ member ∈ members, FramedMember member

/-! The fields with no free text in them. -/

theorem joinTexts_eq (sep : Text) (texts : List Text) :
    Contract.joinTexts sep texts = sep.intercalate texts := by
  induction texts with
  | nil => rfl
  | cons text rest ih =>
      cases rest with
      | nil => simp [Contract.joinTexts]
      | cons next rest => simp [Contract.joinTexts, ih]

@[simp] theorem Dim.render_literal (value : Nat) :
    (Dim.literal value).render = decimal value := rfl

@[simp] theorem Dim.render_axis (index divisor : Nat) :
    (Dim.axis index divisor).render = "shape[".toList ++
      (decimal index ++ ']' :: '/' :: decimal divisor) := by
  change "shape[".toList ++ decimal index ++ "]/".toList ++ _ = _
  simp

@[simp] theorem Dim.render_auto : Dim.auto.render = "auto".toList := rfl

theorem Dim.render_injective : Function.Injective Dim.render := by
  intro left right h
  -- The first character tells the kinds apart.
  have hhead := congrArg List.head? h
  have haxis : ∀ {n : Nat}, (decimal n).head? ≠ some 's' :=
    head?_decimal_ne (by decide)
  have hauto : ∀ {n : Nat}, (decimal n).head? ≠ some 'a' :=
    head?_decimal_ne (by decide)
  cases left with
  | literal value =>
      cases right with
      | literal other =>
          rw [Dim.render_literal, Dim.render_literal] at h
          rw [decimal_injective h]
      | axis => exact absurd (by simpa using hhead) haxis
      | auto => exact absurd (by simpa using hhead) hauto
  | axis index divisor =>
      cases right with
      | literal => exact absurd (by simpa using hhead.symm) haxis
      | axis =>
          rw [Dim.render_axis, Dim.render_axis, List.append_cancel_left_eq] at h
          obtain ⟨hindex, htail⟩ := decimal_split (by decide) h
          rw [hindex, decimal_injective (List.cons.inj htail).2]
      | auto => simp at hhead
  | auto =>
      cases right with
      | literal => exact absurd (by simpa using hhead.symm) hauto
      | axis => simp at hhead
      | auto => rfl

theorem Dim.comma_not_mem_render (dim : Dim) : ',' ∉ dim.render := by
  have hcomma : ∀ {n : Nat}, ',' ∉ decimal n := not_mem_decimal (by decide)
  cases dim with
  | literal => simp [hcomma]
  | axis => simp [hcomma]
  | auto => simp

theorem readable_dim :
    Readable (fun _ => True) fun dim : Dim => dim.render ++ [','] := by
  intro left right _ _ x y h
  simp only [List.append_assoc, List.singleton_append] at h
  obtain ⟨hrender, htail⟩ := Delimiters.split_char
    left.comma_not_mem_render right.comma_not_mem_render h
  exact ⟨Dim.render_injective hrender, htail⟩

theorem readable_axes : Readable (fun _ => True) fun axes : List Nat =>
    ", ".toList.intercalate (axes.map decimal) ++ "]".toList :=
  readable_list (d := axesEnd) decimal_injective
    (fun _ => Delimiters.free_decimal _ (by simp [axesEnd]))
    (fun _ => decimal_ne_nil) (by simp [axesEnd]) (by simp [axesEnd]) (by simp)

theorem Dim.head?_render (dim : Dim) :
    (dim.render ++ [',']).head? ≠ some ':' := by
  cases dim with
  | literal value =>
      exact head?_append_cons_ne (head?_decimal_ne (by decide)) (by decide)
  | axis => simp
  | auto => simp

theorem readable_permute :
    Readable (fun _ => True) Contract.canonicalPermute := by
  intro left right _ _ x y h
  obtain ⟨view, axes⟩ := left
  obtain ⟨view', axes'⟩ := right
  -- No dimension is met at the colon behind the last one.
  have hcolon : ∀ rest : Text, ∀ dim : Dim, True →
      ¬ dim.render ++ [','] <+: ":[".toList ++ rest := by
    intro rest dim _
    simpa using not_prefix_cons (by simp) dim.head?_render
  unfold Contract.canonicalPermute at h
  simp only [joinTexts_eq, List.append_assoc,
    List.append_cancel_left_eq] at h
  obtain ⟨rfl, haxes⟩ := readable_dim.flatMap (fun _ _ => trivial)
    (fun _ _ => trivial) (hcolon _) (hcolon _) h
  rw [List.append_cancel_left_eq, ← List.append_assoc, ← List.append_assoc]
    at haxes
  obtain ⟨rfl, htail⟩ := readable_axes trivial trivial haxes
  exact ⟨rfl, htail⟩

/-- One part of a fusion, as the rendering spells it. -/
def canonicalPart (part : FusionPart) : Text :=
  part.role ++ ':' :: (decimal part.share.toNat ++ [','])

theorem canonicalFusion_eq (fusion : Fusion) :
    Contract.canonicalFusion fusion = " fusion=groups:".toList ++
      (decimal fusion.groups.toNat ++
        ',' :: fusion.parts.flatMap canonicalPart) := by
  unfold Contract.canonicalFusion canonicalPart
  simp

theorem readable_part : Readable FusionPart.Framed canonicalPart := by
  intro left right hleft hright x y h
  obtain ⟨role, share⟩ := left
  obtain ⟨role', share'⟩ := right
  unfold canonicalPart at h
  simp only [List.append_assoc, List.cons_append] at h
  obtain ⟨hrole, hshares⟩ := Delimiters.split_char hleft.2 hright.2 h
  obtain ⟨hshare, htail⟩ := decimal_split (by decide) hshares
  simp only at hrole hshare
  rw [hrole, UInt64.toNat_inj.mp hshare]
  exact ⟨rfl, htail⟩

theorem FusionPart.Framed.not_line {part : FusionPart} (h : part.Framed)
    (rest : Text) : ¬ canonicalPart part <+: '\n' :: rest := by
  unfold canonicalPart
  exact not_prefix_cons (by simp) (head?_append_cons_ne h.1 (by decide))

/-- The parts of a fusion, up to the end of the line. -/
theorem readable_fusion :
    Readable (fun fusion : Fusion => ∀ part ∈ fusion.parts, part.Framed)
      fun fusion => Contract.canonicalFusion fusion ++ ['\n'] := by
  intro left right hleft hright x y h
  obtain ⟨groups, parts⟩ := left
  obtain ⟨groups', parts'⟩ := right
  simp only [canonicalFusion_eq, List.append_assoc, List.cons_append,
    List.nil_append, List.append_cancel_left_eq] at h
  obtain ⟨hgroups, hparts⟩ := decimal_split (by decide) h
  obtain ⟨hsame, htail⟩ := readable_part.flatMap hleft hright
    (fun part h => h.not_line x) (fun part h => h.not_line y) hparts
  simp only at hgroups hsame
  rw [UInt64.toNat_inj.mp hgroups, hsame]
  exact ⟨rfl, (List.cons.inj htail).2⟩

/-! One tensor declaration. -/

def canonicalRank : Option Nat → Text
  | none => "any".toList
  | some rank => decimal rank

def canonicalRequired (required : Bool) : Text :=
  (if required then "true" else "false").toList

/-- What stands behind the dtypes. -/
def canonicalSuffix (permute : Option Permute) (fusion : Option Fusion) :
    Text :=
  permute.toList.flatMap Contract.canonicalPermute ++
    (fusion.toList.flatMap Contract.canonicalFusion ++ ['\n'])

theorem canonicalTensor_eq (tensor : TensorPattern) :
    Contract.canonicalTensor tensor = "tensor role=".toList ++
      (tensor.role.text ++ (" pattern=".toList ++
      (tensor.pattern.text ++ (" rank=".toList ++
      (canonicalRank tensor.rank ++ (" required=".toList ++
      (canonicalRequired tensor.required ++ (" dtypes=".toList ++
      (",".toList.intercalate tensor.dtypes ++
        canonicalSuffix tensor.permute tensor.fusion))))))))) := by
  obtain ⟨role, pattern, dtypes, rank, required, fusion, permute⟩ := tensor
  unfold Contract.canonicalTensor canonicalSuffix
  cases rank <;> cases permute <;> cases fusion <;>
    simp [canonicalRank, canonicalRequired, joinTexts_eq]

theorem canonicalRank_injective : Function.Injective canonicalRank := by
  have hany : ∀ {n : Nat}, "any".toList ≠ decimal n := by
    intro n h
    have hmem : 'a' ∈ decimal n := by
      rw [← h]
      simp
    exact not_mem_decimal (by decide) hmem
  intro left right h
  cases left with
  | none =>
      cases right with
      | none => rfl
      | some rank => exact absurd h hany
  | some rank =>
      cases right with
      | none => exact absurd h.symm hany
      | some other =>
          unfold canonicalRank at h
          rw [decimal_injective h]

theorem free_canonicalRank (rank : Option Nat) :
    rankEnd.Free (canonicalRank rank) := by
  cases rank with
  | none => decide
  | some rank => exact Delimiters.free_decimal rank (by simp [rankEnd])

theorem required_split {left right : Bool} {x y : Text}
    (h : canonicalRequired left ++ (" dtypes=".toList ++ x) =
      canonicalRequired right ++ (" dtypes=".toList ++ y)) :
    left = right ∧ x = y := by
  cases left <;> cases right <;> simp_all [canonicalRequired]

/-- The permute, the fusion or the line's end stands behind the dtypes. -/
theorem canonicalSuffix_stop (permute : Option Permute)
    (fusion : Option Fusion) (x : Text) :
    ∃ stop ∈ dtypesEnd.stops, stop ≠ ",".toList ∧
      ∃ rest, canonicalSuffix permute fusion ++ x = stop ++ rest := by
  unfold canonicalSuffix
  cases permute with
  | some permute =>
      refine ⟨" permute=".toList, by simp [dtypesEnd], by simp, ?_⟩
      unfold Contract.canonicalPermute
      simp only [Option.toList_some, List.flatMap_singleton, List.append_assoc]
      exact ⟨_, rfl⟩
  | none =>
      cases fusion with
      | some fusion =>
          refine ⟨" fusion=groups:".toList, by simp [dtypesEnd], by simp, ?_⟩
          simp only [Option.toList_none, Option.toList_some,
            List.flatMap_nil, List.nil_append, List.flatMap_singleton,
            canonicalFusion_eq, List.append_assoc]
          exact ⟨_, rfl⟩
      | none => exact ⟨['\n'], by simp [dtypesEnd], by simp, x, by simp⟩

/-- Whether a fusion is declared shows where it would start. -/
theorem fusion_split {left right : Option Fusion} {x y : Text}
    (hleft : ∀ part ∈ declaredParts left, part.Framed)
    (hright : ∀ part ∈ declaredParts right, part.Framed)
    (h : left.toList.flatMap Contract.canonicalFusion ++ '\n' :: x =
      right.toList.flatMap Contract.canonicalFusion ++ '\n' :: y) :
    left = right ∧ x = y := by
  have hmixed : ∀ (fusion : Fusion) (x y : Text),
      Contract.canonicalFusion fusion ++ x ≠ '\n' :: y := by
    intro fusion x y
    simp [canonicalFusion_eq]
  cases left with
  | none =>
      cases right with
      | none => exact ⟨rfl, (List.cons.inj h).2⟩
      | some fusion => exact absurd (by simpa using h.symm) (hmixed fusion _ x)
  | some fusion =>
      cases right with
      | none => exact absurd (by simpa using h) (hmixed fusion _ y)
      | some other =>
          have hline : Contract.canonicalFusion fusion ++ ['\n'] ++ x =
              Contract.canonicalFusion other ++ ['\n'] ++ y := by
            simpa using h
          obtain ⟨hsame, htail⟩ := readable_fusion
            (by simpa [declaredParts] using hleft)
            (by simpa [declaredParts] using hright) hline
          exact ⟨by rw [hsame], htail⟩

theorem suffix_split {permute permute' : Option Permute}
    {fusion fusion' : Option Fusion} {x y : Text}
    (hleft : ∀ part ∈ declaredParts fusion, part.Framed)
    (hright : ∀ part ∈ declaredParts fusion', part.Framed)
    (h : canonicalSuffix permute fusion ++ x =
      canonicalSuffix permute' fusion' ++ y) :
    permute = permute' ∧ fusion = fusion' ∧ x = y := by
  have hother : ∀ (permute : Permute) (fusion : Option Fusion) (x : Text),
      ¬ Contract.canonicalPermute permute <+:
        fusion.toList.flatMap Contract.canonicalFusion ++ '\n' :: x := by
    intro permute fusion x
    unfold Contract.canonicalPermute
    cases fusion with
    | none => simp
    | some fusion => simp [canonicalFusion_eq]
  unfold canonicalSuffix at h
  simp only [List.append_assoc, List.cons_append, List.nil_append] at h
  obtain ⟨hpermute, hfusion⟩ := readable_permute.option
    (fun _ _ => trivial) (fun _ _ => trivial)
    (fun permute _ => hother permute fusion x)
    (fun permute _ => hother permute fusion' y) h
  obtain ⟨hsame, htail⟩ := fusion_split hleft hright hfusion
  exact ⟨hpermute, hsame, htail⟩

/-- The pattern is what its text parses to. -/
def Pattern.Parsed (pattern : Pattern) : Prop :=
  Pattern.parse pattern.text = .ok pattern

theorem Pattern.Parsed.eq {left right : Pattern} (hleft : left.Parsed)
    (hright : right.Parsed) (h : left.text = right.text) : left = right := by
  unfold Pattern.Parsed at hleft hright
  rw [h, hright] at hleft
  exact (Except.ok.inj hleft).symm

structure TensorPattern.Framed (tensor : TensorPattern) : Prop where
  role_parsed : tensor.role.Parsed
  pattern_parsed : tensor.pattern.Parsed
  texts : FramedTensor tensor.role.text tensor.pattern.text tensor.dtypes
    (declaredParts tensor.fusion)

theorem readable_tensor :
    Readable TensorPattern.Framed Contract.canonicalTensor := by
  intro left right hleft hright x y h
  obtain ⟨role, pattern, dtypes, rank, required, fusion, permute⟩ := left
  obtain ⟨role', pattern', dtypes', rank', required', fusion', permute'⟩ :=
    right
  simp only [canonicalTensor_eq, List.append_assoc,
    List.append_cancel_left_eq] at h
  obtain ⟨hrole, hpatterns⟩ := Delimiters.split_same hleft.texts.role_free
    hright.texts.role_free (by simp [roleEnd]) h
  obtain ⟨hpattern, hranks⟩ := Delimiters.split_same hleft.texts.pattern_free
    hright.texts.pattern_free (by simp [patternEnd]) hpatterns
  obtain ⟨hrank, hrequired⟩ := Delimiters.split_same (free_canonicalRank rank)
    (free_canonicalRank rank') (by simp [rankEnd]) hranks
  obtain ⟨hsame, hdtypes⟩ := required_split hrequired
  obtain ⟨stop, hstop, hcomma, rest, hrest⟩ :=
    canonicalSuffix_stop permute fusion x
  obtain ⟨stop', hstop', hcomma', rest', hrest'⟩ :=
    canonicalSuffix_stop permute' fusion' y
  rw [hrest, hrest'] at hdtypes
  obtain ⟨hlist, hsuffix⟩ := Delimiters.split_list hleft.texts.dtypes_free
    hright.texts.dtypes_free (by simp [dtypesEnd]) hstop hstop' hcomma hcomma'
    hleft.texts.dtypes_told hright.texts.dtypes_told hdtypes
  rw [← hrest, ← hrest'] at hsuffix
  obtain ⟨hpermute, hfusion, htail⟩ := suffix_split hleft.texts.parts_framed
    hright.texts.parts_framed hsuffix
  have hroles := hleft.role_parsed.eq hright.role_parsed hrole
  have hnames := hleft.pattern_parsed.eq hright.pattern_parsed hpattern
  simp only at hroles hnames hlist hpermute hfusion
  rw [hroles, hnames, hlist, canonicalRank_injective hrank, hsame, hpermute,
    hfusion]
  exact ⟨rfl, htail⟩

/-! Sets, and the document. -/

/-- What the members of a set parse to. -/
structure Pattern.FramedMember (pattern : Pattern) : Prop where
  parsed : pattern.Parsed
  text : TensorFS.FramedMember pattern.text

theorem readable_member : Readable Pattern.FramedMember fun pattern =>
    pattern.text ++ ",".toList := by
  intro left right hleft hright x y h
  simp only [String.reduceToList, List.append_assoc, List.cons_append,
    List.nil_append] at h
  obtain ⟨htext, htail⟩ := Delimiters.split_char hleft.text.2 hright.text.2 h
  exact ⟨hleft.parsed.eq hright.parsed htext, htail⟩

structure Contract.FramedSet (set : Text × List Pattern) : Prop where
  name : '=' ∉ set.1
  members : ∀ pattern ∈ set.2, pattern.FramedMember

theorem readable_set : Readable Contract.FramedSet Contract.canonicalSet := by
  intro left right hleft hright x y h
  obtain ⟨name, members⟩ := left
  obtain ⟨name', members'⟩ := right
  have hline : ∀ (rest : Text) (pattern : Pattern), pattern.FramedMember →
      ¬ pattern.text ++ ",".toList <+: '\n' :: rest := by
    intro rest pattern hpattern
    simp only [String.reduceToList]
    exact not_prefix_cons (by simp)
      (head?_append_cons_ne hpattern.text.1 (by decide))
  unfold Contract.canonicalSet at h
  simp only [List.append_assoc, List.append_cancel_left_eq] at h
  obtain ⟨hname, hmembers⟩ := Delimiters.split_char hleft.name hright.name h
  obtain ⟨hsame, htail⟩ := readable_member.flatMap hleft.members
    hright.members (hline x) (hline y) hmembers
  simp only at hname hsame
  rw [hname, hsame]
  exact ⟨rfl, (List.cons.inj htail).2⟩

def canonicalHandle (handle : Handle) : Text :=
  "name=".toList ++ (handle.name ++ ("\nversion=".toList ++
    (decimal handle.version.toNat ++ ['\n'])))

def canonicalDtype (dtype : Text) : Text :=
  "dtype=".toList ++ (dtype ++ ['\n'])

theorem canonical_eq (contract : Contract) :
    contract.canonical = contractFormat ++
      '\n' :: (contract.handle.toList.flatMap canonicalHandle ++
        (contract.dtype.toList.flatMap canonicalDtype ++
          (contract.tensors.flatMap Contract.canonicalTensor ++
            contract.sets.entries.flatMap Contract.canonicalSet))) := by
  obtain ⟨handle, description, dtype, tensors, sets⟩ := contract
  unfold Contract.canonical canonicalHandle canonicalDtype
  cases handle <;> cases dtype <;> simp

/-- The version, and with it the name, ends the handle's line. -/
def nameEnd : Delimiters Char :=
  ⟨["\nversion=".toList], by decide, by decide⟩

theorem Handle.newline_not_mem (handle : Handle) : '\n' ∉ handle.name := by
  intro hmem
  have hchar := isContractName_mem handle.name_ok hmem
  exact absurd hchar (by decide)

theorem readable_handle : Readable (fun _ => True) canonicalHandle := by
  intro left right _ _ x y h
  have hfree : ∀ handle : Handle, nameEnd.Free handle.name := fun handle =>
    Delimiters.free_of_not_mem (by simp [nameEnd]) handle.newline_not_mem
  unfold canonicalHandle at h
  simp only [List.append_assoc, List.cons_append, List.nil_append,
    List.append_cancel_left_eq] at h
  obtain ⟨hname, hversions⟩ := Delimiters.split_same (hfree left)
    (hfree right) (by simp [nameEnd]) h
  obtain ⟨hversion, htail⟩ := decimal_split (by decide) hversions
  obtain ⟨name, version, _, _⟩ := left
  obtain ⟨name', version', _, _⟩ := right
  simp only at hname hversion
  have hsame := UInt32.toNat_inj.mp hversion
  subst hname hsame
  exact ⟨rfl, htail⟩

theorem readable_dtype :
    Readable (fun dtype : Text => '\n' ∉ dtype) canonicalDtype := by
  intro left right hleft hright x y h
  unfold canonicalDtype at h
  simp only [List.append_assoc, List.cons_append, List.nil_append,
    List.append_cancel_left_eq] at h
  exact Delimiters.split_char hleft hright h

structure Contract.Framed (contract : Contract) : Prop where
  dtype : ∀ dtype ∈ contract.dtype, '\n' ∉ dtype
  tensors : ∀ tensor ∈ contract.tensors, tensor.Framed
  sets : ∀ set ∈ contract.sets.entries, Contract.FramedSet set

/-- Two contracts that differ at most in their descriptions. -/
structure Contract.Alike (left right : Contract) : Prop where
  handle : left.handle = right.handle
  dtype : left.dtype = right.dtype
  tensors : left.tensors = right.tensors
  sets : left.sets = right.sets

theorem Contract.Framed.alike {left right : Contract} (hleft : left.Framed)
    (hright : right.Framed) (h : left.canonical = right.canonical) :
    left.Alike right := by
  have hhandle : ∀ handle, (canonicalHandle handle).head? = some 'n' := by
    simp [canonicalHandle]
  have hdtype : ∀ dtype, (canonicalDtype dtype).head? = some 'd' := by
    simp [canonicalDtype]
  have htensor : ∀ tensor, (canonicalTensor tensor).head? = some 't' := by
    simp [canonicalTensor_eq]
  have hset : ∀ set, (canonicalSet set).head? = some 's' := by
    intro set
    unfold canonicalSet
    simp
  have hsets : ∀ (contract : Contract) {c : Char}, 's' ≠ c →
      (contract.sets.entries.flatMap canonicalSet).head? ≠ some c := by
    intro contract c hc
    simpa using head?_flatMap_append_ne (x := []) hset hc (by simp)
  have htensors : ∀ (contract : Contract) {c : Char}, 't' ≠ c → 's' ≠ c →
      (contract.tensors.flatMap canonicalTensor ++
        contract.sets.entries.flatMap canonicalSet).head? ≠ some c :=
    fun contract _ ht hs => head?_flatMap_append_ne htensor ht
      (hsets contract hs)
  have hbody : ∀ contract : Contract,
      (contract.dtype.toList.flatMap canonicalDtype ++
        (contract.tensors.flatMap canonicalTensor ++
          contract.sets.entries.flatMap canonicalSet)).head? ≠ some 'n' :=
    fun contract => head?_flatMap_append_ne hdtype (by decide)
      (htensors contract (by decide) (by decide))
  rw [canonical_eq, canonical_eq, List.append_cancel_left_eq] at h
  obtain ⟨hhandles, hdtypes⟩ := readable_handle.option
    (fun _ _ => trivial) (fun _ _ => trivial)
    (fun handle _ => not_prefix_of_head (hhandle handle) (hbody left))
    (fun handle _ => not_prefix_of_head (hhandle handle) (hbody right))
    (List.cons.inj h).2
  obtain ⟨hsame, hlines⟩ := readable_dtype.option hleft.dtype hright.dtype
    (fun dtype _ => not_prefix_of_head (hdtype dtype)
      (htensors left (by decide) (by decide)))
    (fun dtype _ => not_prefix_of_head (hdtype dtype)
      (htensors right (by decide) (by decide))) hdtypes
  obtain ⟨hentries, hmaps⟩ := readable_tensor.flatMap hleft.tensors
    hright.tensors
    (fun tensor _ => not_prefix_of_head (htensor tensor)
      (hsets left (by decide)))
    (fun tensor _ => not_prefix_of_head (htensor tensor)
      (hsets right (by decide))) hlines
  obtain ⟨hset, -⟩ := readable_set.flatMap hleft.sets hright.sets
    (fun set _ => not_prefix_of_head (hset set) (x := []) (by simp))
    (fun set _ => not_prefix_of_head (hset set) (x := []) (by simp))
    (by simpa using hmaps)
  exact ⟨hhandles, hsame, hentries, OrdMap.ext_entries hset⟩

end TensorFS
