import TensorFS.Data.Lockstep
import TensorFS.Tfm1.Go

namespace TensorFS

open Data

/-! The two implementations' rules side by side: each pair accepts the same
values and refuses with the same label. -/

def Tfm1Error.reason : Tfm1Error → String
  | .truncated => "truncated"
  | .badMagic => "bad-magic"
  | .parentFlag => "parent-flag"
  | .countExceedsInput => "count-exceeds-input"
  | .trailingBytes => "trailing-bytes"
  | .entryOrder => "entry-order"
  | .duplicatePath => "duplicate-path"
  | .pathUtf8 => "path-utf8"
  | .pathLength => "path-length"
  | .pathNotNfc => "path-not-nfc"
  | .pathAbsolute => "path-absolute"
  | .pathEmptySegment => "path-empty-segment"
  | .pathDotSegment => "path-dot-segment"
  | .pathForbiddenCharacter => "path-forbidden-character"
  | .pathTrailingDotSpace => "path-trailing-dot-space"
  | .pathWindowsReserved => "path-windows-reserved"
  | .caseFoldCollision => "case-fold-collision"
  | .missingParentDirectory => "missing-parent-directory"
  | .unknownEntryKind => "unknown-entry-kind"
  | .executableFlag => "executable-flag"
  | .unknownPlanner => "unknown-planner"
  | .contractName => "contract-name"
  | .contractVersion => "contract-version"
  | .unknownRecordTag => "unknown-record-tag"
  | .zeroLengthRecord => "zero-length-record"
  | .adjacentHoles => "adjacent-holes"
  | .dataTooLarge => "data-too-large"
  | .recordLimit => "record-limit"
  | .lengthSumMismatch => "length-sum-mismatch"
  | .emptyBlobDigest => "empty-blob-digest"
  | .blobRecords => "blob-records"
  | .symlinkTarget => "symlink-target"
  | .hardlinkOrdinal => "hardlink-ordinal"
  | .hardlinkTarget => "hardlink-target"

def SameLabel (refusal : Tfm1Error) (other : Go.TFM1Error) : Prop :=
  refusal.reason = other.reason

/-- The two languages' Unicode tables agree. -/
structure Go.Tables.Agree (tables : Go.Tables) (U : Unicode) : Prop where
  nfc : ∀ path, tables.isNormalString path = U.isNfc path
  lower : ∀ c, U.toLowercase c =
    if c = 'İ' then ['i', '\u0307'] else [tables.toLower c]

/-! Paths and link targets. -/

theorem Go.asciiFold_eq (value : Text) :
    Go.asciiFold value = value.map Char.toLower := by
  unfold Go.asciiFold
  refine List.map_congr_left fun c _ => ?_
  by_cases hupper : 'A' ≤ c ∧ c ≤ 'Z'
  · rw [if_pos hupper]
    have hlow : 65 ≤ c.toNat := hupper.1
    have hhigh : c.toNat ≤ 90 := hupper.2
    have hsplit : ∀ n, 65 ≤ n → n ≤ 90 →
        Char.ofNat (n + 32) = (Char.ofNat n).toLower := by decide
    have hchar := hsplit c.toNat hlow hhigh
    rwa [Char.ofNat_toNat] at hchar
  · rw [if_neg hupper]
    have hval : ¬ (c.val ≥ 'A'.val ∧ c.val ≤ 'Z'.val) := hupper
    unfold Char.toLower
    rw [dif_neg hval]

theorem isWindowsReserved_eq (segment : Text) :
    isWindowsReserved segment = false ↔
      (Text.utf8Len (segment.takeWhile (· ≠ '.')) ≤ 4 →
        Go.asciiFold (segment.takeWhile (· ≠ '.')) ∉
          Go.tfm1WindowsReserved) := by
  have hlists : Go.tfm1WindowsReserved =
      windowsReserved.map (List.map Char.toLower) := by decide
  simp only [isWindowsReserved, Go.asciiFold_eq, hlists, List.mem_map,
    Bool.and_eq_false_iff, decide_eq_false_iff_not, List.any_eq_false,
    eqIgnoreAsciiCase, decide_eq_true_eq, not_exists, not_and,
    Decidable.imp_iff_not_or]
  refine or_congr_right (forall_congr' fun reserved => ?_)
  exact or_congr_right (not_congr eq_comm)

theorem validateSegment_lockstep (segment : Text) :
    Lockstep SameLabel (fun _ _ => True) False (validateSegment segment)
      (Go.validateTFM1Segment segment) := by
  have hforbidden : (segment.all fun c => !isForbidden c) = true ↔
      segment.any Go.isForbiddenRune = false := by
    have hrune : Go.isForbiddenRune = isForbidden := by
      funext c
      simp [Go.isForbiddenRune, isForbidden]
    simp [hrune]
  unfold validateSegment Go.validateTFM1Segment
  refine Lockstep.guard_agree rfl Iff.rfl fun _ => ?_
  refine Lockstep.guard_agree rfl not_or.symm fun _ => ?_
  refine Lockstep.guard_agree rfl hforbidden fun _ => ?_
  refine Lockstep.guard_agree rfl not_or.symm fun _ => ?_
  refine Lockstep.mono (Lockstep.ensure (isWindowsReserved_eq segment) ?_)
    fun _ _ _ _ => trivial
  rfl

theorem validatePath_lockstep {tables : Go.Tables} {U : Unicode}
    (htables : tables.Agree U) (path : Text) :
    Lockstep SameLabel (fun _ _ => True) False (validatePath U path)
      (Go.validateTFM1Path tables path) := by
  have hlength : path ≠ [] ∧ path.utf8Len ≤ maxPathBytes ↔
      ¬ (path = [] ∨ path.utf8Len > Go.tfm1MaxPathBytes) := by
    rw [not_or, not_lt]
    rfl
  unfold validatePath Go.validateTFM1Path
  refine Lockstep.guard_agree rfl hlength fun _ => ?_
  refine Lockstep.guard_agree rfl (by rw [htables.nfc]) fun _ => ?_
  refine Lockstep.guard_agree rfl Iff.rfl fun _ => ?_
  exact Lockstep.checkAll
    (List.forall₂_same.mpr fun segment _ => validateSegment_lockstep segment)

theorem validateSymlinkTarget_lockstep (target : Text) :
    Lockstep SameLabel (fun _ _ => True) False (validateSymlinkTarget target)
      (Go.validateTFM1SymlinkTarget target) := by
  unfold validateSymlinkTarget Go.validateTFM1SymlinkTarget
  by_cases hshape : target = [] ∨ target.utf8Len > Go.tfm1MaxPathBytes
  · have hnot : ¬ (target ≠ [] ∧ target.utf8Len ≤ maxSymlinkTargetBytes ∧
        target.any isControl = false) := by
      rintro ⟨hne, hle, _⟩
      rcases hshape with hempty | hlong
      · exact hne hempty
      · exact absurd hle (not_le.mpr hlong)
    rw [ensure_of_not hnot, ensure_of_not (not_not.mpr hshape),
      except_error_bind]
    exact .refuse rfl
  · obtain ⟨hne, hle⟩ := not_or.mp hshape
    have hsame : (target ≠ [] ∧ target.utf8Len ≤ maxSymlinkTargetBytes ∧
        target.any isControl = false) ↔ target.any isControl = false :=
      ⟨fun h => h.2.2, fun h => ⟨hne, not_lt.mp hle, h⟩⟩
    rw [ensure_of hshape, except_ok_bind]
    refine Lockstep.mono (Lockstep.ensure hsame ?_) fun _ _ _ _ => trivial
    rfl

theorem checkOrder_lockstep (previous : Option Text) (path : Text) :
    Lockstep SameLabel (fun _ _ => True) False (checkOrder previous path)
      (Go.checkTFM1Order previous path) := by
  cases previous with
  | none => exact .pure trivial
  | some previous =>
      rcases lt_trichotomy previous path with hlt | rfl | hgt
      · simp only [checkOrder, Go.checkTFM1Order, if_pos hlt, if_neg hlt.ne,
          if_neg hlt.not_gt]
        exact .pure trivial
      · simp only [checkOrder, Go.checkTFM1Order, lt_irrefl, if_true, if_false]
        exact .refuse rfl
      · simp only [checkOrder, Go.checkTFM1Order, if_neg hgt.not_gt,
          if_neg hgt.ne', if_pos hgt]
        exact .refuse rfl

/-! Record runs.  The tensor cap is the one rule the two check at different
places. -/

def describeRecord : FileRecord → Go.TFM1Record
  | .data digest length =>
      { digest := Go.hexEncode digest.bytes, length := length }
  | .hole length => { hole := true, length := length }

@[simp] theorem describeRecord_length (record : FileRecord) :
    (describeRecord record).length = record.length := by
  cases record <;> rfl

@[simp] theorem describeRecord_hole (record : FileRecord) :
    (describeRecord record).hole = record.isHole := by
  cases record <;> rfl

theorem withinObjectSize_iff (record : FileRecord) :
    withinObjectSize record = true ↔
      ((describeRecord record).hole = false →
        (describeRecord record).length.toNat ≤ Go.maxChunkSize) := by
  have hcap : maxObjectSize = Go.maxChunkSize := rfl
  cases record with
  | data digest length => simp [withinObjectSize, describeRecord, hcap]
  | hole length => simp [withinObjectSize, describeRecord]

/-- A record over the cap comes before any rule of the run is broken. -/
def MeetsOversize (previousWasHole : Bool) (sum : Nat)
    (records : List FileRecord) : Prop :=
  ∃ front record rest, records = front ++ record :: rest ∧
    withinObjectSize record = false ∧ RunShape previousWasHole front ∧
    sum + totalSize front < 2 ^ 64

theorem not_meetsOversize_nil {previousWasHole : Bool} {sum : Nat} :
    ¬ MeetsOversize previousWasHole sum [] := by
  rintro ⟨front, record, rest, hsplit, _⟩
  simp at hsplit

theorem meetsOversize_cons {previousWasHole : Bool} {sum : Nat}
    {record : FileRecord} {records : List FileRecord} (hsum : sum < 2 ^ 64) :
    MeetsOversize previousWasHole sum (record :: records) ↔
      withinObjectSize record = false ∨
        (record.length ≠ 0 ∧ (previousWasHole && record.isHole) = false ∧
          MeetsOversize record.isHole (sum + record.size) records) := by
  constructor
  · rintro ⟨front, found, rest, hsplit, hover, hshape, hfits⟩
    cases front with
    | nil =>
        cases hsplit
        exact .inl hover
    | cons head front =>
        cases hsplit
        refine .inr ⟨hshape.1, hshape.2.1, front, found, rest, rfl, hover,
          hshape.2.2, ?_⟩
        simpa [Nat.add_assoc] using hfits
  · rintro (hover | ⟨hzero, hhole, front, found, rest, rfl, hover, hshape,
      hfits⟩)
    · exact ⟨[], record, records, rfl, hover, trivial, by simpa using hsum⟩
    · refine ⟨record :: front, found, rest, rfl, hover,
        ⟨hzero, hhole, hshape⟩, ?_⟩
      simpa [Nat.add_assoc] using hfits

theorem MeetsOversize.fits {previousWasHole : Bool} {sum : Nat}
    {records : List FileRecord}
    (h : MeetsOversize previousWasHole sum records) : sum < 2 ^ 64 := by
  obtain ⟨front, _, _, _, _, _, hfits⟩ := h
  omega

theorem wrapping_sum_iff {sum : Nat} {length : UInt64} (hsum : sum < 2 ^ 64) :
    sum + length.toNat < 2 ^ 64 ↔
      ¬ UInt64.ofNat sum + length < UInt64.ofNat sum := by
  have hlength := length.toNat_lt
  have hword : (UInt64.ofNat sum).toNat = sum :=
    UInt64.toNat_ofNat_of_lt' (by simpa using hsum)
  rw [UInt64.lt_iff_toNat_lt, UInt64.toNat_add, hword]
  omega

/-- Both loops over a run, when no record over the cap is met. -/
theorem sumRun_lockstep {previousWasHole : Bool} {sum : Nat}
    {records : List FileRecord} (hsum : sum < 2 ^ 64)
    (hmeets : ¬ MeetsOversize previousWasHole sum records) :
    Lockstep SameLabel
      (fun total word => word = UInt64.ofNat total ∧ total < 2 ^ 64 ∧
        records.all withinObjectSize = true) False
      (sumRun previousWasHole sum records)
      (Go.sumTFM1Records previousWasHole (UInt64.ofNat sum)
        (records.map describeRecord)) := by
  induction records generalizing previousWasHole sum with
  | nil => exact .pure ⟨rfl, hsum, rfl⟩
  | cons record records ih =>
      rw [meetsOversize_cons hsum, not_or, Bool.not_eq_false] at hmeets
      obtain ⟨hwithin, hrest⟩ := hmeets
      rw [List.map_cons]
      unfold sumRun Go.sumTFM1Records
      rw [describeRecord_length, describeRecord_hole]
      refine Lockstep.guard_agree rfl Iff.rfl fun hzero => ?_
      refine Lockstep.guard_agree rfl (by rw [Bool.and_comm]) fun hhole => ?_
      have hcap := (withinObjectSize_iff record).mp hwithin
      rw [describeRecord_length, describeRecord_hole] at hcap
      rw [ensure_of hcap, except_ok_bind]
      refine Lockstep.guard_agree rfl (wrapping_sum_iff hsum) fun hfits => ?_
      have hstep : UInt64.ofNat sum + record.length =
          UInt64.ofNat (sum + record.size) := by
        rw [UInt64.ofNat_add, FileRecord.size, UInt64.ofNat_toNat]
      rw [hstep]
      refine (ih hfits fun hmeet => hrest ⟨hzero, hhole, hmeet⟩).mono ?_
      rintro total word _ ⟨hword, hlt, hall⟩
      exact ⟨hword, hlt, by simp [hwithin, hall]⟩

theorem sumTFM1Records_of_meets {previousWasHole : Bool} {sum : Nat}
    {records : List FileRecord}
    (hmeets : MeetsOversize previousWasHole sum records) :
    Go.sumTFM1Records previousWasHole (UInt64.ofNat sum)
        (records.map describeRecord) =
      .error (Go.tfm1Refuse "data-too-large") := by
  induction records generalizing previousWasHole sum with
  | nil => exact absurd hmeets not_meetsOversize_nil
  | cons record records ih =>
      have hsum := hmeets.fits
      rw [List.map_cons]
      unfold Go.sumTFM1Records
      rw [describeRecord_length, describeRecord_hole]
      by_cases hwithin : withinObjectSize record = true
      · rw [meetsOversize_cons hsum, hwithin] at hmeets
        obtain hfalse | ⟨hzero, hhole, hmeet⟩ := hmeets
        · cases hfalse
        have hcap := (withinObjectSize_iff record).mp hwithin
        rw [describeRecord_length, describeRecord_hole] at hcap
        have hstep : UInt64.ofNat sum + record.length =
            UInt64.ofNat (sum + record.size) := by
          rw [UInt64.ofNat_add, FileRecord.size, UInt64.ofNat_toNat]
        rw [ensure_of hzero, except_ok_bind,
          ensure_of (by rw [Bool.and_comm]; exact hhole), except_ok_bind,
          ensure_of hcap, except_ok_bind,
          ensure_of ((wrapping_sum_iff hsum).mp hmeet.fits), except_ok_bind,
          hstep]
        exact ih hmeet
      · have hcap := mt (withinObjectSize_iff record).mpr hwithin
        rw [describeRecord_length, describeRecord_hole] at hcap
        have hdata : record.isHole = false := by
          by_contra hhole
          exact hcap fun hfalse => absurd hfalse hhole
        have hzero : record.length ≠ 0 := by
          intro hzero
          exact hcap fun _ => by simp [hzero]
        rw [ensure_of hzero, except_ok_bind, ensure_of (by simp [hdata]),
          except_ok_bind, ensure_of_not hcap, except_error_bind]

theorem Tfm1Error.eq_dataTooLarge {refusal : Tfm1Error}
    (h : refusal.reason = "data-too-large") : refusal = .dataTooLarge := by
  cases refusal <;> first | rfl | exact absurd h (by decide)

theorem sumRun_ne_dataTooLarge {previousWasHole : Bool} {sum : Nat}
    {records : List FileRecord} :
    sumRun previousWasHole sum records ≠ .error .dataTooLarge := by
  induction records generalizing previousWasHole sum with
  | nil => simp [sumRun]
  | cons record records ih =>
      unfold sumRun
      intro h
      by_cases hzero : record.length ≠ 0
      · rw [ensure_of hzero, except_ok_bind] at h
        by_cases hhole : (previousWasHole && record.isHole) = false
        · rw [ensure_of hhole, except_ok_bind] at h
          by_cases hfits : sum + record.size < 2 ^ 64
          · rw [ensure_of hfits, except_ok_bind] at h
            exact ih h
          · rw [ensure_of_not hfits] at h
            cases h
        · rw [ensure_of_not hhole] at h
          cases h
      · rw [ensure_of_not hzero] at h
        cases h

theorem validateRecordRun_ne_dataTooLarge {records : List FileRecord}
    {logicalSize : UInt64} :
    validateRecordRun records logicalSize ≠ .error .dataTooLarge := by
  intro h
  unfold validateRecordRun at h
  by_cases hcount : records.length ≤ maxFileRecords
  · rw [ensure_of hcount, except_ok_bind] at h
    cases hrun : sumRun false 0 records with
    | error refusal =>
        rw [hrun, except_error_bind] at h
        cases h
        exact sumRun_ne_dataTooLarge hrun
    | ok total =>
        rw [hrun, except_ok_bind] at h
        by_cases htotal : total = logicalSize.toNat
        · rw [ensure_of htotal] at h
          cases h
        · rw [ensure_of_not htotal] at h
          cases h
  · rw [ensure_of_not hcount] at h
    cases h

/-- A record over the cap comes before any rule of the run is broken, and the
run does break one. -/
def DisputedRecords (records : List FileRecord) (logicalSize : UInt64) :
    Prop :=
  MeetsOversize false 0 records ∧
    ¬ (ValidRun records ∧ totalSize records = logicalSize.toNat)

theorem validateRecords_lockstep {records : List FileRecord}
    {logicalSize : UInt64} (hcount : records.length ≤ maxFileRecords) :
    Lockstep SameLabel (fun _ _ => True)
      (DisputedRecords records logicalSize)
      (validateRecords records logicalSize)
      (Go.validateTFM1Records (records.map describeRecord) logicalSize) := by
  have hlimit : (records.map describeRecord).length ≤
      Go.tfm1MaxFileRecords := by
    rw [List.length_map]
    exact hcount
  unfold Go.validateTFM1Records
  rw [ensure_of hlimit, except_ok_bind]
  by_cases hmeets : MeetsOversize false 0 records
  · have hgo := sumTFM1Records_of_meets hmeets
    rw [show UInt64.ofNat 0 = 0 from rfl] at hgo
    rw [hgo, except_error_bind]
    unfold validateRecords
    cases hrun : validateRecordRun records logicalSize with
    | ok u =>
        have hvalid := validateRecordRun_eq_ok.mp hrun
        have hover : ¬ (records.all withinObjectSize = true) := by
          obtain ⟨front, record, rest, rfl, hover, _⟩ := hmeets
          simp [hover]
        rw [except_ok_bind, ensure_of_not hover]
        refine (Lockstep.refuse ?_).congr ?_
        · rfl
        · simp [DisputedRecords, hvalid]
    | error refusal =>
        have hinvalid : ¬ (ValidRun records ∧
            totalSize records = logicalSize.toNat) := by
          intro hvalid
          rw [validateRecordRun_eq_ok (u := ()) |>.mpr hvalid] at hrun
          cases hrun
        rw [except_error_bind]
        constructor
        · intro hsame
          rw [Tfm1Error.eq_dataTooLarge hsame] at hrun
          exact absurd hrun validateRecordRun_ne_dataTooLarge
        · exact fun hnot => absurd ⟨hmeets, hinvalid⟩ hnot
  · have hagree := sumRun_lockstep (by norm_num) hmeets
    rw [show UInt64.ofNat 0 = 0 from rfl] at hagree
    unfold validateRecords validateRecordRun
    rw [ensure_of hcount, except_ok_bind, bind_assoc]
    refine (hagree.bind_agree ?_).congr
      (by simp [DisputedRecords, hmeets])
    rintro total word _ ⟨rfl, hlt, hall⟩
    have hsize : total = logicalSize.toNat ↔
        UInt64.ofNat total = logicalSize := by
      rw [← UInt64.toNat_inj,
        UInt64.toNat_ofNat_of_lt' (by simpa using hlt)]
    by_cases htotal : total = logicalSize.toNat
    · rw [ensure_of htotal, ensure_of (hsize.mp htotal), except_ok_bind,
        ensure_of hall]
      exact .pure trivial
    · rw [ensure_of_not htotal, except_error_bind,
        ensure_of_not (mt hsize.mpr htotal)]
      exact .refuse rfl

/-! Whole trees. -/

section Tree

variable {tables : Go.Tables} {U : Unicode}

theorem Go.Tables.Agree.caseFold (htables : tables.Agree U) (path : Text) :
    caseFold U path = Go.tfm1CaseFold tables path := by
  unfold TensorFS.caseFold Go.tfm1CaseFold
  exact congrArg (path.flatMap ·) (funext htables.lower)

theorem Go.checkFolded_eq (folded : List Text)
    (entries : List Go.TFM1Entry) :
    Go.checkFolded tables folded entries =
      ensure ((entries.map fun entry =>
          Go.tfm1CaseFold tables entry.path).Nodup ∧
        ∀ entry ∈ entries, Go.tfm1CaseFold tables entry.path ∉ folded)
        (Go.tfm1Refuse "case-fold-collision") := by
  induction entries generalizing folded with
  | nil => rfl
  | cons entry entries ih =>
      unfold Go.checkFolded
      dsimp only
      by_cases hseen : Go.tfm1CaseFold tables entry.path ∉ folded
      · rw [ensure_of hseen, except_ok_bind, ih]
        congr 1
        simp only [List.map_cons, List.nodup_cons, List.mem_map, not_exists,
          not_and, List.mem_cons, not_or, forall_eq_or_imp]
        apply propext
        constructor
        · rintro ⟨hnodup, hfresh⟩
          exact ⟨⟨fun other hmem => (hfresh other hmem).1, hnodup⟩, hseen,
            fun other hmem => (hfresh other hmem).2⟩
        · rintro ⟨⟨hhead, hnodup⟩, _, hfresh⟩
          exact ⟨hnodup, fun other hmem => ⟨hhead other hmem,
            hfresh other hmem⟩⟩
      · rw [ensure_of_not hseen, except_error_bind, ensure_of_not]
        rintro ⟨_, hfresh⟩
        exact hseen (hfresh entry (by simp))

theorem Go.checkParent_eq (directories : List Text) (entry : Go.TFM1Entry) :
    Go.checkParent directories entry =
      ensure ((parentOf entry.path).all (· ∈ directories) = true)
        (Go.tfm1Refuse "missing-parent-directory") := by
  unfold Go.checkParent parentOf
  cases rsplitOnce '/' entry.path with
  | none => rfl
  | some parts => simp

/-- The two tree checks, over entry lists that agree on paths and on which
entries are directories. -/
theorem validateTree_lockstep (htables : tables.Agree U)
    {isDirectory : α → Bool} {describe : Text × α → Go.TFM1Entry}
    (hpath : ∀ pair, (describe pair).path = pair.1)
    (hkind : ∀ pair, (describe pair).kind = .directory ↔
      isDirectory pair.2 = true) (entries : List (Text × α)) :
    Lockstep SameLabel (fun _ _ => True) False
      (validateTree U isDirectory entries)
      (Go.validateTFM1Tree tables (entries.map describe)) := by
  have hfold : (entries.map fun pair => caseFold U pair.1).Nodup ↔
      ((entries.map describe).map fun entry =>
        Go.tfm1CaseFold tables entry.path).Nodup ∧
        ∀ entry ∈ entries.map describe,
          Go.tfm1CaseFold tables entry.path ∉ ([] : List Text) := by
    simp only [List.map_map, Function.comp_def, hpath, htables.caseFold,
      List.not_mem_nil, not_false_eq_true, implies_true, and_true]
  have hdirectories :
      ((entries.map describe).filter fun entry =>
        decide (entry.kind = .directory)).map Go.TFM1Entry.path =
        (entries.filter fun pair => isDirectory pair.2).map Prod.fst := by
    simp only [List.filter_map, List.map_map, Function.comp_def, hpath, hkind,
      Bool.decide_eq_true]
  unfold validateTree Go.validateTFM1Tree
  rw [Go.checkFolded_eq]
  refine Lockstep.guard_agree rfl hfold fun _ => ?_
  dsimp only
  rw [hdirectories, checkAll_ensure (Go.checkParent_eq _)]
  refine Lockstep.mono (Lockstep.ensure ?_ ?_) fun _ _ _ _ => trivial
  · simp only [List.all_eq_true, List.forall_mem_map, hpath]
  · rfl

end Tree

/-! Contract names.  A name both accept is ASCII, where bytes and characters
agree. -/

def asciiByte (c : Char) : UInt8 := UInt8.ofNat c.toNat

def IsAscii (text : Text) : Prop := ∀ c ∈ text, c.toNat < 128

theorem IsAscii.utf8 {text : Text} (h : IsAscii text) :
    text.utf8 = text.map asciiByte := by
  induction text with
  | nil => rfl
  | cons c text ih =>
      have hc : c.toNat < 128 := h c (by simp)
      have hrest : IsAscii text := fun d hd => h d (by simp [hd])
      have hsize : c.utf8Size = 1 := by
        rw [Char.utf8Size_eq_one_iff]
        exact Nat.le_of_lt_succ hc
      rw [Text.utf8_cons, ih hrest, List.map_cons,
        String.utf8EncodeChar_eq_singleton hsize]
      rfl

theorem asciiByte_eq_iff {c d : Char} (hc : c.toNat < 128)
    (hd : d.toNat < 128) : asciiByte c = asciiByte d ↔ c = d := by
  constructor
  · intro heq
    have hnat := congrArg UInt8.toNat heq
    simp only [asciiByte, UInt8.toNat_ofNat'] at hnat
    apply Char.toNat_inj.mp
    omega
  · exact congrArg asciiByte

theorem isTFM1Lower_asciiByte {c : Char} (hc : c.toNat < 128) :
    Go.isTFM1Lower (asciiByte c) = isHandleChar c := by
  have htable : ∀ n < 128,
      Go.isTFM1Lower (UInt8.ofNat n) = isHandleChar (Char.ofNat n) := by
    decide
  have hchar := htable c.toNat hc
  rwa [Char.ofNat_toNat] at hchar

theorem IsAscii.span_dot {text : Text} (h : IsAscii text) :
    (text.map asciiByte).span (· ≠ 46) =
      ((text.takeWhile (· ≠ '.')).map asciiByte,
        (text.dropWhile (· ≠ '.')).map asciiByte) := by
  rw [List.span_eq_takeWhile_dropWhile]
  induction text with
  | nil => rfl
  | cons c text ih =>
      have hc : c.toNat < 128 := h c (by simp)
      have hdot : asciiByte c = 46 ↔ c = '.' :=
        @asciiByte_eq_iff c '.' hc (by decide)
      have hrest := ih fun d hd => h d (by simp [hd])
      rw [Prod.mk.injEq] at hrest ⊢
      by_cases hcase : c = '.'
      · simp [hcase, show asciiByte '.' = 46 from rfl]
      · simp only [ne_eq, decide_not] at hrest
        simp [hdot, hcase, hrest]

theorem IsAscii.of_sublist {text part : Text} (h : IsAscii text)
    (hpart : part.Sublist text) : IsAscii part :=
  fun c hc => h c (hpart.subset hc)

theorem IsAscii.all_map {text : Text} (h : IsAscii text)
    {p : UInt8 → Bool} {q : Char → Bool}
    (hpq : ∀ c, c.toNat < 128 → p (asciiByte c) = q c) :
    (text.map asciiByte).all p = text.all q := by
  induction text with
  | nil => rfl
  | cons c text ih =>
      rw [List.map_cons, List.all_cons, List.all_cons, hpq c (h c (by simp)),
        ih (h.of_sublist (List.sublist_cons_self c text))]

theorem IsAscii.head_map {text : Text} (h : IsAscii text) :
    (text.map asciiByte).head?.any Go.isTFM1Lower =
      text.head?.any isHandleChar := by
  cases text with
  | nil => rfl
  | cons c text => exact isTFM1Lower_asciiByte (h c (by simp))

theorem isHandleChar_lt {c : Char} (h : isHandleChar c = true) :
    c.toNat < 128 := by
  simp only [isHandleChar, Char.isLower, Char.isDigit, Bool.or_eq_true,
    Bool.and_eq_true, decide_eq_true_eq] at h
  rcases h with h | h
  · have hle : c.toNat ≤ 122 := h.2
    omega
  · have hle : c.toNat ≤ 57 := h.2
    omega

/-- On ASCII text both read the name rule alike. -/
theorem isTFM1ContractName_map {text : Text} (h : IsAscii text)
    (hlen : text.utf8Len ≤ maxContractNameBytes) :
    Go.isTFM1ContractName (text.map asciiByte) = isContractName text := by
  unfold Go.isTFM1ContractName isContractName
  rw [h.span_dot, List.span_eq_takeWhile_dropWhile, decide_eq_true hlen,
    Bool.and_true]
  have hproducer := h.of_sublist
    (List.takeWhile_sublist (l := text) (· ≠ '.'))
  have hformat := h.of_sublist
    (List.dropWhile_sublist (l := text) (· ≠ '.'))
  cases hrest : text.dropWhile (· ≠ '.') with
  | nil => simp
  | cons dot format =>
      rw [hrest] at hformat
      have htail := hformat.of_sublist (List.sublist_cons_self dot format)
      have hne : text.isEmpty = false := by
        cases text with
        | nil => simp at hrest
        | cons c text => rfl
      have hproducerAll := hproducer.all_map
        (p := fun character => Go.isTFM1Lower character || character = 45)
        (q := fun c => isHandleChar c || c = '-') fun c hc => by
          have hdash : asciiByte c = 45 ↔ c = '-' :=
            @asciiByte_eq_iff c '-' hc (by decide)
          simp only [isTFM1Lower_asciiByte hc, hdash]
      have hformatAll := htail.all_map
        (p := fun character => Go.isTFM1Lower character || character = 46 ||
          character = 45 || character = 95)
        (q := fun c => isHandleChar c || c = '.' || c = '-' || c = '_')
        fun c hc => by
          have hdot : asciiByte c = 46 ↔ c = '.' :=
            @asciiByte_eq_iff c '.' hc (by decide)
          have hdash : asciiByte c = 45 ↔ c = '-' :=
            @asciiByte_eq_iff c '-' hc (by decide)
          have hscore : asciiByte c = 95 ↔ c = '_' :=
            @asciiByte_eq_iff c '_' hc (by decide)
          simp only [isTFM1Lower_asciiByte hc, hdot, hdash, hscore]
      rw [List.map_cons]
      dsimp only
      rw [hproducer.head_map, hproducerAll, htail.head_map, hformatAll, hne,
        Bool.not_false, Bool.true_and, Bool.and_assoc]
      cases format with
      | nil => simp
      | cons c format =>
          cases hhandle : isHandleChar c with
          | false => simp [hhandle]
          | true => simp [hhandle]

theorem head_of_dropWhile {p : α → Bool} {xs rest : List α} {x : α}
    (h : xs.dropWhile p = x :: rest) : p x = false := by
  have hhead := List.head_dropWhile_not p (l := xs) (by simp [h])
  simpa [h] using hhead

theorem isTFM1ContractName_ascii {name : Bytes}
    (h : Go.isTFM1ContractName name = true) : ∀ b ∈ name, b.toNat < 128 := by
  have hlower : ∀ {b : UInt8}, Go.isTFM1Lower b = true → b.toNat < 128 := by
    intro b hb
    simp only [Go.isTFM1Lower, Bool.or_eq_true, Bool.and_eq_true,
      decide_eq_true_eq, UInt8.le_iff_toNat_le, UInt8.reduceToNat] at hb
    omega
  unfold Go.isTFM1ContractName at h
  rw [List.span_eq_takeWhile_dropWhile] at h
  intro b hb
  rw [← List.takeWhile_append_dropWhile (p := (· ≠ 46)) (l := name),
    List.mem_append] at hb
  cases hrest : name.dropWhile (· ≠ 46) with
  | nil =>
      rw [hrest] at h
      exact absurd h (by simp)
  | cons dot format =>
      have hdot : dot = 46 := by simpa using head_of_dropWhile hrest
      simp only [hrest, Bool.and_eq_true, List.all_eq_true, Bool.or_eq_true,
        decide_eq_true_eq] at h
      obtain ⟨⟨⟨_, hproducer⟩, _⟩, hformat⟩ := h
      rw [hrest, List.mem_cons] at hb
      rcases hb with hb | rfl | hb
      · rcases hproducer b hb with hb | rfl
        · exact hlower hb
        · decide
      · rw [hdot]
        decide
      · rcases hformat b hb with ((hb | rfl) | rfl) | rfl
        · exact hlower hb
        all_goals decide

theorem isContractName_mem {text : Text} (h : isContractName text = true)
    {c : Char} (hc : c ∈ text) :
    isHandleChar c = true ∨ c = '.' ∨ c = '-' ∨ c = '_' := by
  unfold isContractName at h
  rw [List.span_eq_takeWhile_dropWhile, Bool.and_eq_true] at h
  replace h := h.2
  rw [← List.takeWhile_append_dropWhile (p := (· ≠ '.')) (l := text),
    List.mem_append] at hc
  cases hrest : text.dropWhile (· ≠ '.') with
  | nil =>
      rw [hrest] at h
      exact absurd h (by simp)
  | cons dot format =>
      have hdot : dot = '.' := by simpa using head_of_dropWhile hrest
      simp only [hrest, Bool.and_eq_true, List.all_eq_true, Bool.or_eq_true,
        decide_eq_true_eq] at h
      obtain ⟨⟨_, hproducer⟩, hfirst, hformat⟩ := h
      rw [hrest, List.mem_cons] at hc
      rcases hc with hc | rfl | hc
      · rcases hproducer c hc with hc | hc
        · exact .inl hc
        · exact .inr (.inr (.inl hc))
      · exact .inr (.inl hdot)
      · cases format with
        | nil => simp at hc
        | cons first format =>
            rcases List.mem_cons.mp hc with rfl | hc
            · exact .inl hfirst
            · rcases hformat c hc with ((hc | hc) | hc) | hc
              · exact .inl hc
              · exact .inr (.inl hc)
              · exact .inr (.inr (.inl hc))
              · exact .inr (.inr (.inr hc))

theorem isContractName_not_mem {name : Text} (h : isContractName name = true)
    {c : Char} (hc : isHandleChar c = false ∧ c ≠ '.' ∧ c ≠ '-' ∧ c ≠ '_') :
    c ∉ name := by
  intro hmem
  rcases isContractName_mem h hmem with hchar | hchar | hchar | hchar
  · rw [hc.1] at hchar
    cases hchar
  · exact hc.2.1 hchar
  · exact hc.2.2.1 hchar
  · exact hc.2.2.2 hchar

theorem isContractName_ascii {text : Text} (h : isContractName text = true) :
    IsAscii text := by
  intro c hc
  rcases isContractName_mem h hc with hlower | rfl | rfl | rfl
  · exact isHandleChar_lt hlower
  all_goals decide

/-- The byte rule accepts exactly the encodings of the names the character
rule accepts. -/
theorem isTFM1ContractName_iff {name : Bytes}
    (hlen : name.length ≤ maxContractNameBytes) :
    Go.isTFM1ContractName name = true ↔
      ∃ text, Text.fromUtf8 name = some text ∧ isContractName text = true := by
  constructor
  · intro h
    have hbytes := isTFM1ContractName_ascii h
    let text : Text := name.map fun b => Char.ofNat b.toNat
    have hnat : ∀ b ∈ name, (Char.ofNat b.toNat).toNat = b.toNat := by
      intro b hb
      have hlt := hbytes b hb
      rw [Char.toNat_ofNat, if_pos (.inl (by omega))]
    have hascii : IsAscii text := by
      intro c hc
      obtain ⟨b, hb, rfl⟩ := List.mem_map.mp hc
      rw [hnat b hb]
      exact hbytes b hb
    have hback : text.map asciiByte = name := by
      rw [List.map_map]
      refine (List.map_congr_left fun b hb => ?_).trans (List.map_id name)
      simp [asciiByte, hnat b hb]
    have hutf8 : text.utf8 = name := by rw [hascii.utf8, hback]
    refine ⟨text, by rw [← hutf8, Text.fromUtf8_utf8], ?_⟩
    rw [← isTFM1ContractName_map hascii (by rwa [Text.utf8Len, hutf8]), hback]
    exact h
  · rintro ⟨text, hdecode, hname⟩
    have hutf8 := Text.utf8_of_fromUtf8 hdecode
    have hascii := isContractName_ascii hname
    rw [hutf8, hascii.utf8, isTFM1ContractName_map hascii
      (by rwa [Text.utf8Len, ← hutf8])]
    exact hname

end TensorFS
