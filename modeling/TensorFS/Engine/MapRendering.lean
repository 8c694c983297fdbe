import TensorFS.Engine.RuleRendering

namespace TensorFS.Go

open Data

/-! The renderings of morphisms, and of layout morphisms. -/

def arrowMark : Delimiters Char :=
  ⟨["->".toList], by decide, by decide⟩

/-- It starts as it ends, so a field may run into it. -/
def keyMark : Text := " key ".toList

def componentMark : Delimiters Char :=
  ⟨[" component=".toList], by decide, by decide⟩

def groupsMark : Delimiters Char :=
  ⟨[" groups=".toList], by decide, by decide⟩

def shareMark : Delimiters Char :=
  ⟨[" share=".toList], by decide, by decide⟩

/-- No text of the row holds what may close its field. -/
structure Rekey.Framed (row : Rekey) : Prop where
  fromPrefix : arrowMark.Free row.fromPrefix
  toPrefix : ¬ keyMark <:+: row.toPrefix ++ keyMark.dropLast
  fromKey : arrowMark.Free row.fromKey
  toKey : '\n' ∉ row.toKey

structure SeamPart.Framed (part : SeamPart) : Prop where
  role : shareMark.Free part.role
  key : '\n' ∉ part.key

structure Seam.Framed (seam : Seam) : Prop where
  target : componentMark.Free seam.target
  component : groupsMark.Free seam.component
  parts : ∀ part ∈ seam.parts, part.Framed

inductive MorphismLine where
  | rekey (row : Rekey)
  | seam (target component : Text) (groups : UInt64)
  | part (part : SeamPart)

namespace MorphismLine

def render : MorphismLine → Text
  | rekey row => "rekey prefix ".toList ++ (row.fromPrefix ++
      ("->".toList ++ (row.toPrefix ++ (" key ".toList ++ (row.fromKey ++
        ("->".toList ++ (row.toKey ++ ['\n'])))))))
  | seam target component groups => "seam target=".toList ++ (target ++
      (" component=".toList ++ (component ++ (" groups=".toList ++
        (decimal groups.toNat ++ ['\n'])))))
  | part piece => "part role=".toList ++ (piece.role ++ (" share=".toList ++
      (decimal piece.share.toNat ++ ' ' :: ("key=".toList ++
        (piece.key ++ ['\n'])))))

@[simp] theorem render_rekey (row : Rekey) :
    (rekey row).render = "rekey prefix ".toList ++ (row.fromPrefix ++
      ("->".toList ++ (row.toPrefix ++ (" key ".toList ++ (row.fromKey ++
        ("->".toList ++ (row.toKey ++ ['\n']))))))) := rfl

@[simp] theorem render_seam (target component : Text) (groups : UInt64) :
    (seam target component groups).render = "seam target=".toList ++
      (target ++ (" component=".toList ++ (component ++
        (" groups=".toList ++ (decimal groups.toNat ++ ['\n']))))) := rfl

@[simp] theorem render_part (piece : SeamPart) :
    (part piece).render = "part role=".toList ++ (piece.role ++
      (" share=".toList ++ (decimal piece.share.toNat ++
        ' ' :: ("key=".toList ++ (piece.key ++ ['\n']))))) := rfl

def Framed : MorphismLine → Prop
  | rekey row => row.Framed
  | seam target component _ =>
      componentMark.Free target ∧ groupsMark.Free component
  | part piece => piece.Framed

def isSeam : MorphismLine → Bool
  | seam _ _ _ => true
  | _ => false

theorem render_ne_nil (line : MorphismLine) : line.render ≠ [] := by
  cases line <;> simp

theorem readable : Readable Framed render := by
  intro left right hleft hright x y h
  cases left with
  | rekey row =>
      cases right with
      | rekey other =>
          simp only [render_rekey, List.append_assoc,
            List.append_cancel_left_eq, List.cons_append, List.nil_append] at h
          obtain ⟨hfromPrefix, htoPrefixes⟩ := Delimiters.split_same
            hleft.fromPrefix hright.fromPrefix (by simp [arrowMark]) h
          obtain ⟨htoPrefix, hfromKeys⟩ := Delimiters.split_literal
            hleft.toPrefix hright.toPrefix htoPrefixes
          obtain ⟨hfromKey, htoKeys⟩ := Delimiters.split_same hleft.fromKey
            hright.fromKey (by simp [arrowMark]) hfromKeys
          obtain ⟨htoKey, htail⟩ :=
            Delimiters.split_char hleft.toKey hright.toKey htoKeys
          obtain ⟨_, _, _, _⟩ := row
          obtain ⟨_, _, _, _⟩ := other
          simp only at hfromPrefix htoPrefix hfromKey htoKey
          rw [hfromPrefix, htoPrefix, hfromKey, htoKey]
          exact ⟨rfl, htail⟩
      | seam => simp at h
      | part => simp at h
  | seam target component groups =>
      cases right with
      | rekey => simp at h
      | seam target' component' groups' =>
          simp only [render_seam, List.append_assoc,
            List.append_cancel_left_eq, List.cons_append, List.nil_append] at h
          obtain ⟨rfl, hcomponents⟩ := Delimiters.split_same hleft.1 hright.1
            (by simp [componentMark]) h
          obtain ⟨rfl, hgroups⟩ := Delimiters.split_same hleft.2 hright.2
            (by simp [groupsMark]) hcomponents
          obtain ⟨hgroup, htail⟩ := decimal_split (by decide) hgroups
          rw [UInt64.toNat_inj.mp hgroup]
          exact ⟨rfl, htail⟩
      | part => simp at h
  | part piece =>
      cases right with
      | rekey => simp at h
      | seam => simp at h
      | part other =>
          simp only [render_part, List.append_assoc,
            List.append_cancel_left_eq, List.cons_append, List.nil_append] at h
          obtain ⟨hrole, hshares⟩ := Delimiters.split_same hleft.role
            hright.role (by simp [shareMark]) h
          obtain ⟨hshare, hkeys⟩ := decimal_split (by decide) hshares
          rw [List.append_cancel_left_eq] at hkeys
          obtain ⟨hkey, htail⟩ :=
            Delimiters.split_char hleft.key hright.key hkeys
          obtain ⟨_, _, _⟩ := piece
          obtain ⟨_, _, _⟩ := other
          simp only at hrole hshare hkey
          rw [hrole, UInt64.toNat_inj.mp hshare, hkey]
          exact ⟨rfl, htail⟩

def rekeyOf : MorphismLine → Option Rekey
  | rekey row => some row
  | _ => none

def notRekey : MorphismLine → Bool
  | rekey _ => false
  | _ => true

end MorphismLine

namespace Seam

def heading (seam : Seam) : MorphismLine :=
  .seam seam.target seam.component seam.groups

def body (seam : Seam) : List MorphismLine := seam.parts.map .part

/-- Two seams that differ at most in their evidence. -/
structure Alike (left right : Seam) : Prop where
  target : left.target = right.target
  parts : left.parts = right.parts
  groups : left.groups = right.groups
  component : left.component = right.component

theorem alike_of_lines {left right : Seam}
    (hhead : left.heading = right.heading) (hbody : left.body = right.body) :
    left.Alike right := by
  obtain ⟨target, parts, groups, component, provenance⟩ := left
  obtain ⟨target', parts', groups', component', provenance'⟩ := right
  cases hhead
  have hinjective : Function.Injective MorphismLine.part := by
    intro first second h
    cases h
    rfl
  have hparts : parts = parts' := List.map_injective_iff.mpr hinjective hbody
  exact ⟨rfl, hparts, rfl, rfl⟩

theorem Framed.lines {seam : Seam} (h : seam.Framed) :
    ∀ line ∈ sectionOf heading body seam, line.Framed :=
  List.forall_mem_cons.mpr ⟨⟨h.target, h.component⟩,
    List.forall_mem_map.mpr h.parts⟩

theorem alike_of_sections {left right : List Seam}
    (h : left.map (fun seam => (seam.heading, seam.body)) =
      right.map fun seam => (seam.heading, seam.body)) :
    List.Forall₂ Alike left right := by
  induction left generalizing right with
  | nil =>
      cases right with
      | nil => exact .nil
      | cons seam right => cases h
  | cons seam left ih =>
      cases right with
      | nil => cases h
      | cons other right =>
          obtain ⟨hlines, hrest⟩ := List.cons.inj h
          obtain ⟨hhead, hbody⟩ := Prod.mk.inj hlines
          exact .cons (alike_of_lines hhead hbody) (ih hrest)

end Seam

/-- No text of the record holds what may close its field. -/
structure Morphism.Framed (morphism : Morphism) : Prop where
  handle : morphism.handle.Valid
  source : morphism.source.Valid
  target : morphism.target.Valid
  rekeys : ∀ row ∈ morphism.rekeys, row.Framed
  seams : ∀ seam ∈ morphism.seams, seam.Framed

/-- Two morphisms that differ at most in their descriptions and evidence. -/
structure Morphism.Alike (left right : Morphism) : Prop where
  handle : left.handle = right.handle
  source : left.source = right.source
  target : left.target = right.target
  tier : left.tier = right.tier
  invertible : left.invertible = right.invertible
  rekeys : left.rekeys = right.rekeys
  seams : List.Forall₂ Seam.Alike left.seams right.seams

namespace Morphism

open Seam

def lines (morphism : Morphism) : List MorphismLine :=
  morphism.rekeys.map .rekey ++ morphism.seams.flatMap (sectionOf heading body)

theorem Framed.lines {morphism : Morphism} (h : morphism.Framed) :
    ∀ line ∈ morphism.lines, line.Framed := by
  refine List.forall_mem_append.mpr ⟨List.forall_mem_map.mpr h.rekeys, ?_⟩
  intro line hmem
  obtain ⟨seam, hseam, hline⟩ := List.mem_flatMap.mp hmem
  exact (h.seams seam hseam).lines line hline

theorem notRekey_seams (seams : List Seam) :
    ∀ line ∈ seams.flatMap (sectionOf heading body),
      line.notRekey = true := by
  intro line hmem
  obtain ⟨seam, -, hline⟩ := List.mem_flatMap.mp hmem
  rcases List.mem_cons.mp hline with rfl | hline
  · rfl
  · obtain ⟨_, -, rfl⟩ := List.mem_map.mp hline
    rfl

theorem eq_of_lines {left right : Morphism} (h : left.lines = right.lines) :
    left.rekeys = right.rekeys ∧
      List.Forall₂ Seam.Alike left.seams right.seams := by
  have hrekeys : ∀ morphism : Morphism,
      morphism.lines.filterMap MorphismLine.rekeyOf = morphism.rekeys := by
    intro morphism
    have hnone : (morphism.seams.flatMap
        (sectionOf heading body)).filterMap MorphismLine.rekeyOf = [] := by
      refine List.filterMap_eq_nil_iff.mpr fun line hmem => ?_
      have hline := notRekey_seams morphism.seams line hmem
      cases line with
      | rekey row => cases hline
      | seam => rfl
      | part => rfl
    simp only [Morphism.lines, List.filterMap_append, hnone,
      List.filterMap_map, Function.comp_def, MorphismLine.rekeyOf,
      List.filterMap_some, List.append_nil]
  have hseams : ∀ morphism : Morphism,
      morphism.lines.filter MorphismLine.notRekey =
        morphism.seams.flatMap (sectionOf heading body) := by
    intro morphism
    have hnone : (morphism.rekeys.map .rekey).filter
        MorphismLine.notRekey = [] := by
      simp [MorphismLine.notRekey]
    rw [Morphism.lines, List.filter_append, hnone, List.nil_append]
    exact List.filter_eq_self.mpr (notRekey_seams morphism.seams)
  have hparts : ∀ seam : Seam, ∀ line ∈ seam.body, line.isSeam = false := by
    intro seam line hmem
    obtain ⟨_, -, rfl⟩ := List.mem_map.mp hmem
    rfl
  constructor
  · rw [← hrekeys left, h, hrekeys]
  · apply alike_of_sections
    apply sections_eq (fun _ => rfl) hparts
    rw [← hseams left, h, hseams]

theorem canonical_eq (morphism : Morphism) :
    morphism.canonical = morphismFormat ++ "\nname=".toList ++
      (morphism.handle.name ++ ("\nversion=".toList ++
      (decimal morphism.handle.version.toNat ++
        '\n' :: ("from=".toList ++ (morphism.source.render ++
        '\n' :: ("to=".toList ++ (morphism.target.render ++
        '\n' :: ("tier=".toList ++ (renderInt morphism.tier ++
        '\n' :: ("invertible=".toList ++ (renderBool morphism.invertible ++
        '\n' :: morphism.lines.flatMap MorphismLine.render))))))))))) := by
  unfold canonical lines
  simp [List.flatMap_map, List.flatMap_assoc, sectionOf, heading, body]

theorem Framed.alike {left right : Morphism} (hleft : left.Framed)
    (hright : right.Framed) (h : left.canonical = right.canonical) :
    left.Alike right := by
  rw [canonical_eq, canonical_eq, List.append_cancel_left_eq] at h
  obtain ⟨hhandle, hsources⟩ := handle_split hleft.handle hright.handle h
  rw [List.append_cancel_left_eq] at hsources
  obtain ⟨hsource, htargets⟩ :=
    render_split hleft.source hright.source hsources
  rw [List.append_cancel_left_eq] at htargets
  obtain ⟨htarget, htiers⟩ :=
    render_split hleft.target hright.target htargets
  rw [List.append_cancel_left_eq] at htiers
  obtain ⟨htier, hinvertibles⟩ := int_split (by decide) (by decide) htiers
  rw [List.append_cancel_left_eq] at hinvertibles
  obtain ⟨hinvertible, hlines⟩ := bool_split hinvertibles
  have hend : ∀ line : MorphismLine, line.Framed →
      ¬ line.render <+: [] := by
    intro line _ hnil
    exact line.render_ne_nil (List.prefix_nil.mp hnil)
  obtain ⟨hsame, -⟩ := MorphismLine.readable.flatMap hleft.lines hright.lines
    hend hend (congrArg (· ++ []) hlines)
  obtain ⟨hrekeys, hseams⟩ := eq_of_lines hsame
  exact ⟨hhandle, hsource, htarget, htier, hinvertible, hrekeys, hseams⟩

end Morphism

/-! Layout morphisms. -/

theorem mem_renderInt {c : Char} {value : Int} (h : c ∈ renderInt value) :
    (c.isDigit || c == '-') = true := by
  unfold renderInt at h
  split at h
  · rcases List.mem_cons.mp h with rfl | hmem
    · rfl
    · rw [isDigit_of_mem_decimal hmem]
      rfl
  · rw [isDigit_of_mem_decimal h]
    rfl

/-- The storage order, and the end of its line. -/
def positions (perm : List Int) : Text :=
  ",".toList.intercalate (perm.map renderInt) ++ ['\n']

theorem readable_positions : Readable (fun _ => True) positions :=
  readable_list (d := exactEnd) renderInt_injective
    (fun _ => Delimiters.free_of_all (fun c => c.isDigit || c == '-')
      (by simp [exactEnd]) fun _ => mem_renderInt)
    (fun _ => renderInt_ne_nil) (by simp [exactEnd]) (by simp [exactEnd])
    (by simp)

def SubAxis.render (sub : SubAxis) : Text :=
  "sub axis=".toList ++ (renderInt sub.axis ++
    ' ' :: ("extent=".toList ++ (sub.extent ++ ['\n'])))

theorem readable_subAxis :
    Readable (fun sub : SubAxis => '\n' ∉ sub.extent) SubAxis.render := by
  intro left right hleft hright x y h
  unfold SubAxis.render at h
  simp only [List.append_assoc, List.cons_append, List.nil_append,
    List.append_cancel_left_eq] at h
  obtain ⟨haxis, hextents⟩ := int_split (by decide) (by decide) h
  rw [List.append_cancel_left_eq] at hextents
  obtain ⟨hextent, htail⟩ := Delimiters.split_char hleft hright hextents
  obtain ⟨_, _⟩ := left
  obtain ⟨_, _⟩ := right
  simp only at haxis hextent
  rw [haxis, hextent]
  exact ⟨rfl, htail⟩

/-- What validation leaves in a record. -/
structure LayoutMorphism.Validated (record : LayoutMorphism) : Prop where
  handle : record.handle.Valid
  layoutClass : record.layoutClass = "inductor".toList ∨
    record.layoutClass = "endpoint-declared".toList
  extents : parseFormula (record.subAxes.map SubAxis.extent) =
    .ok record.extents

namespace LayoutMorphism

theorem canonical_eq (record : LayoutMorphism) :
    record.canonical = layoutMorphismFormat ++ "\nname=".toList ++
      (record.handle.name ++ ("\nversion=".toList ++
      (decimal record.handle.version.toNat ++
        '\n' :: ("class=".toList ++ (record.layoutClass ++
        '\n' :: ("rank=".toList ++ (renderInt record.rank ++
        '\n' :: ("candidate=".toList ++ (renderBool record.candidate ++
        '\n' :: (record.subAxes.flatMap SubAxis.render ++
          ("perm=".toList ++ positions record.perm))))))))))) := by
  have hrender : SubAxis.render = fun sub => "sub axis=".toList ++
      renderInt sub.axis ++ " extent=".toList ++ sub.extent ++ ['\n'] := by
    funext sub
    unfold SubAxis.render
    simp
  unfold canonical positions
  rw [hrender]
  simp [joinStrings_eq]

theorem Validated.extent_line {record : LayoutMorphism}
    (h : record.Validated) : ∀ sub ∈ record.subAxes, '\n' ∉ sub.extent := by
  intro sub hmem hnewline
  obtain ⟨_, hparsed⟩ := parseFormula_mem h.extents sub.extent
    (List.mem_map_of_mem hmem)
  exact absurd ((parseShapeExpr_formula hparsed).2 '\n' hnewline) (by decide)

theorem Validated.class_line {record : LayoutMorphism}
    (h : record.Validated) : '\n' ∉ record.layoutClass := by
  rcases h.layoutClass with hclass | hclass <;> simp [hclass]

/-- A layout record prints nothing that may be read in two ways. -/
theorem Validated.eq {left right : LayoutMorphism} (hleft : left.Validated)
    (hright : right.Validated) (h : left.canonical = right.canonical) :
    left = right := by
  have hline : ∀ (text : Text) (sub : SubAxis), '\n' ∉ sub.extent →
      ¬ sub.render <+: "perm=".toList ++ text := by
    intro text sub _
    unfold SubAxis.render
    simp
  rw [canonical_eq, canonical_eq, List.append_cancel_left_eq] at h
  obtain ⟨hhandle, hclasses⟩ := handle_split hleft.handle hright.handle h
  rw [List.append_cancel_left_eq] at hclasses
  obtain ⟨hclass, hranks⟩ := Delimiters.split_char hleft.class_line
    hright.class_line hclasses
  rw [List.append_cancel_left_eq] at hranks
  obtain ⟨hrank, hcandidates⟩ := int_split (by decide) (by decide) hranks
  rw [List.append_cancel_left_eq] at hcandidates
  obtain ⟨hcandidate, hsubs⟩ := bool_split hcandidates
  obtain ⟨hsub, hperms⟩ := readable_subAxis.flatMap hleft.extent_line
    hright.extent_line (hline _) (hline _) hsubs
  rw [List.append_cancel_left_eq] at hperms
  have hperm := readable_positions.eq trivial trivial hperms
  have hextents : left.extents = right.extents := by
    have hparsed := hleft.extents
    rw [hsub, hright.extents] at hparsed
    exact (Except.ok.inj hparsed).symm
  obtain ⟨_, _, _, _, _, _, _⟩ := left
  obtain ⟨_, _, _, _, _, _, _⟩ := right
  simp only at hhandle hclass hrank hcandidate hsub hperm hextents
  rw [hhandle, hclass, hrank, hcandidate, hsub, hperm, hextents]

end LayoutMorphism

end TensorFS.Go
