import TensorFS.Engine.Spelling
import TensorFS.Repository.Manifest

namespace TensorFS.Go

open Data

/-! Derived trees: the bridge a derivation names, and the digest over its
text. -/

theorem parseBridge_eq_ok {text : Text} {source target : Handle} :
    parseBridge text = .ok (source, target) ↔
      ∃ left right, text = left ++ '>' :: right ∧
        parseHandle left = .ok source ∧ parseHandle right = .ok target := by
  unfold parseBridge
  constructor
  · intro h
    split at h
    · cases h
    · rename_i left right hsplit
      simp only [except_bind_eq_ok, mapError_eq_ok, Except.ok.injEq,
        Prod.mk.injEq] at h
      obtain ⟨_, hsource, _, htarget, rfl, rfl⟩ := h
      exact ⟨left, right, (Dim.splitOnce_eq_some.mp hsplit).1, hsource,
        htarget⟩
  · intro h
    obtain ⟨left, right, htext, hsource, htarget⟩ := h
    have hsplit : Dim.splitOnce '>' text = some (left, right) :=
      Dim.splitOnce_eq_some.mpr ⟨htext, parseHandle_not_mem hsource (by decide)
        (by decide) (by decide)⟩
    simp only [hsplit, except_bind_eq_ok, mapError_eq_ok]
    exact ⟨source, hsource, target, htarget, rfl⟩

/-- A bridge has the spelling it renders, unless a zero leads a version. -/
theorem bridge_eq_iff {text : Text} {source target : Handle}
    (h : parseBridge text = .ok (source, target)) :
    bridge source target = text ↔ ¬ zeroLed <:+: text := by
  obtain ⟨left, right, rfl, hsource, htarget⟩ := parseBridge_eq_ok.mp h
  have hleft : '>' ∉ left := parseHandle_not_mem hsource (by decide)
    (by decide) (by decide)
  have hrendered : '>' ∉ source.render :=
    Handle.not_mem_render (parseHandle_eq_ok.mp hsource).1 (by decide)
      (by decide) (by decide)
  rw [LayoutID.zeroLed_append (by decide) (by decide), not_or,
    ← Handle.render_eq_iff hsource, ← Handle.render_eq_iff htarget, bridge]
  constructor
  · exact Delimiters.split_char hrendered hleft
  · intro hgiven
    obtain ⟨hfrom, hto⟩ := hgiven
    rw [hfrom, hto]

inductive DerivedFault where
  | noDerivation
  | manifest (fault : ManifestFault)
  deriving DecidableEq

def derivedFormat : Text := "tensorfs-derived-v2".toList

/-- What a derivation does, and to what. -/
def Derivation.preamble (d : Derivation) : Text :=
  derivedFormat ++ "\nmorphism=".toList ++ d.morphism ++
    "\nsource=".toList ++ d.source.render ++ ['\n']

namespace Manifest

/-- The digest of a derivation: the edge is stated before the manifest without
it. -/
def derivedDigest (sha256 : Bytes → Digest) (m : Manifest) :
    Except DerivedFault Ref :=
  match m.derived with
  | none => .error .noDerivation
  | some d => do
      d.validate.mapError .manifest
      let body ← ({ m with derived := none }.canonical).mapError .manifest
      .ok (.ofDigest (sha256 (d.preamble.utf8 ++ body)))

variable {sha256 : Bytes → Digest} {m n : Manifest} {d e : Derivation}
  {ref : Ref}

/-- What is hashed behind the edge. -/
def sourceBody (m : Manifest) : Bytes :=
  Text.utf8 (marshal ⟨m.format, sortFiles m.files, none⟩)

theorem derivedDigest_eq_ok (hd : m.derived = some d) :
    m.derivedDigest sha256 = .ok ref ↔
      d.validate = .ok () ∧ m.format = formatV1 ∧ (∀ f ∈ m.files, f.Valid) ∧
        (m.files.map fun f => asciiFold f.path).Nodup ∧
        ref = .ofDigest (sha256 (d.preamble.utf8 ++ m.sourceBody)) := by
  unfold derivedDigest
  simp only [hd, except_bind_eq_ok, mapError_eq_ok, exists_unit,
    canonical_eq_ok, Except.ok.injEq]
  constructor
  · intro h
    obtain ⟨hvalid, body, ⟨hformat, -, hfiles, hnodup, rfl⟩, rfl⟩ := h
    exact ⟨hvalid, hformat, hfiles, hnodup, rfl⟩
  · intro h
    obtain ⟨hvalid, hformat, hfiles, hnodup, href⟩ := h
    exact ⟨hvalid, m.sourceBody, ⟨hformat, by simp, hfiles, hnodup, rfl⟩,
      href.symm⟩

/-- Two derived manifests that say the same: the edges name one source and
bridges between the same handles, and the files are the same in some order. -/
structure SameDerived (m n : Manifest) (d e : Derivation) : Prop where
  left : m.derived = some d
  right : n.derived = some e
  format : m.format = n.format
  files : m.files.Perm n.files
  source : d.source = e.source
  bridges : ∃ pair, parseBridge d.morphism = .ok pair ∧
    parseBridge e.morphism = .ok pair

theorem SameDerived.sourceBody (h : SameDerived m n d e)
    (hnodup : (m.files.map fun f => asciiFold f.path).Nodup) :
    m.sourceBody = n.sourceBody := by
  unfold Manifest.sourceBody
  rw [h.format, sortFiles_congr h.files hnodup]

theorem SameDerived.validate (h : SameDerived m n d e) :
    d.validate = .ok () ↔ e.validate = .ok () := by
  obtain ⟨pair, hleft, hright⟩ := h.bridges
  simp [Derivation.validate, hleft, hright, h.source]

theorem preamble_inj (hsource : d.source = e.source) :
    d.preamble = e.preamble ↔ d.morphism = e.morphism := by
  unfold Derivation.preamble
  rw [hsource]
  simp

/-- Only the spellings of their bridges can tell two such manifests apart. -/
theorem SameDerived.derivedDigest_eq (h : SameDerived m n d e)
    (hmorphism : d.morphism = e.morphism) :
    m.derivedDigest sha256 = .ok ref ↔ n.derivedDigest sha256 = .ok ref := by
  have hpreamble := (preamble_inj h.source).mpr hmorphism
  have hnodups := (h.files.map fun f => asciiFold f.path).nodup_iff
  have hvalid : (∀ f ∈ m.files, f.Valid) ↔ ∀ f ∈ n.files, f.Valid := by
    simp only [h.files.mem_iff]
  rw [derivedDigest_eq_ok h.left, derivedDigest_eq_ok h.right, h.validate,
    h.format, hvalid, hnodups, hpreamble]
  refine and_congr_right fun _ => and_congr_right fun _ =>
    and_congr_right fun _ => and_congr_right fun hnodup => ?_
  rw [h.sourceBody (hnodups.mpr hnodup)]

theorem SameDerived.refs_eq_iff (h : SameDerived m n d e) {other : Ref}
    (hleft : m.derivedDigest sha256 = .ok ref)
    (hright : n.derivedDigest sha256 = .ok other)
    (hfree : sha256 (d.preamble.utf8 ++ m.sourceBody) =
        sha256 (e.preamble.utf8 ++ n.sourceBody) →
      d.preamble.utf8 ++ m.sourceBody = e.preamble.utf8 ++ n.sourceBody) :
    ref = other ↔ d.morphism = e.morphism := by
  constructor
  · intro heq
    obtain ⟨-, -, -, hnodup, href⟩ := (derivedDigest_eq_ok h.left).mp hleft
    obtain ⟨-, -, -, -, hother⟩ := (derivedDigest_eq_ok h.right).mp hright
    rw [href, hother] at heq
    have hbytes := hfree (Ref.ofDigest_inj.mp heq)
    rw [h.sourceBody hnodup, List.append_cancel_right_eq] at hbytes
    exact (preamble_inj h.source).mp (Text.utf8_injective hbytes)
  · intro hmorphism
    rw [h.derivedDigest_eq hmorphism, hright] at hleft
    exact (Except.ok.inj hleft).symm

end Manifest

/-- An accepted text is what its value renders exactly when no zero leads a
version in it; every id parses back; and two derivations that say the same in
such texts have one digest, which otherwise the spellings alone can split. -/
theorem spelled_once (text : Text) :
    (∀ handle, parseHandle text = .ok handle →
      (handle.render = text ↔ ¬ zeroLed <:+: text)) ∧
    (∀ id, LayoutID.parse text = .ok id →
      (id.render = text ↔ ¬ zeroLed <:+: text)) ∧
    (∀ source target, parseBridge text = .ok (source, target) →
      (bridge source target = text ↔ ¬ zeroLed <:+: text)) ∧
    (∀ id : LayoutID, id.Valid →
      ∃ back, LayoutID.parse id.render = .ok back ∧ back.equal id = true) ∧
    ∀ (sha256 : Bytes → Digest) (m n : Manifest) (d e : Derivation),
      Manifest.SameDerived m n d e →
      (¬ zeroLed <:+: d.morphism → ¬ zeroLed <:+: e.morphism → ∀ ref,
        m.derivedDigest sha256 = .ok ref ↔
          n.derivedDigest sha256 = .ok ref) ∧
      ∀ left right, m.derivedDigest sha256 = .ok left →
        n.derivedDigest sha256 = .ok right →
        (sha256 (d.preamble.utf8 ++ m.sourceBody) =
            sha256 (e.preamble.utf8 ++ n.sourceBody) →
          d.preamble.utf8 ++ m.sourceBody =
            e.preamble.utf8 ++ n.sourceBody) →
        (left = right ↔ d.morphism = e.morphism) := by
  refine ⟨fun _ => Handle.render_eq_iff, fun _ => LayoutID.render_eq_iff,
    fun _ _ => bridge_eq_iff, fun _ => LayoutID.parse_render,
    fun sha256 m n d e h => ⟨fun hleft hright ref => ?_,
      fun left right => h.refs_eq_iff⟩⟩
  obtain ⟨⟨source, target⟩, hd, he⟩ := h.bridges
  apply h.derivedDigest_eq
  rw [← (bridge_eq_iff hd).mpr hleft, ← (bridge_eq_iff he).mpr hright]

/-- A handle, a layout and a bridge that do not render as they are spelled. -/
theorem spelled_twice :
    (∃ handle, parseHandle "a.b@01".toList = .ok handle ∧
      handle.render ≠ "a.b@01".toList) ∧
    (∃ id, LayoutID.parse "a.b@1+c.d@02".toList = .ok id ∧
      id.render ≠ "a.b@1+c.d@02".toList) ∧
    ∃ source target,
      parseBridge "a.b@1>c.d@02".toList = .ok (source, target) ∧
        parseBridge "a.b@1>c.d@2".toList = .ok (source, target) ∧
        bridge source target ≠ "a.b@1>c.d@02".toList := by
  refine ⟨⟨⟨"a.b".toList, 1⟩, rfl, by decide⟩,
    ⟨⟨⟨"a.b".toList, 1⟩, ⟨"c.d".toList, 2⟩, defaultLayout⟩, rfl, by decide⟩,
    ⟨"a.b".toList, 1⟩, ⟨"c.d".toList, 2⟩, rfl, rfl, by decide⟩

end TensorFS.Go
