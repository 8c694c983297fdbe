import TensorFS.Tfm1.RulesParity
import TensorFS.Tfm1.Canonical

namespace TensorFS

open Data

/-! The two decoders side by side. -/

def stampText : Stamp → Text
  | .none => []
  | .named handle => handle.name ++ '@' :: decimal handle.version.toNat
  | .digest digest => "sha256:".toList ++ Go.hexEncode digest.bytes

def plannerText : TensorFormat → String
  | .safetensorsV1 => Go.tfm1PlannerSafetensorsV1
  | .ggufV1 => Go.tfm1PlannerGgufV1

def describeBody (path : Text) (executable : Bool) : FileBody → Go.TFM1Entry
  | .tensor format contract logicalSize records =>
      { path := path, kind := .file, executable := executable,
        planner := plannerText format, contract := (stampText contract).utf8,
        logicalSize := logicalSize, records := records.map describeRecord }
  | .blob logicalSize digest =>
      { path := path, kind := .file, executable := executable,
        planner := Go.tfm1PlannerBlobV1, logicalSize := logicalSize,
        digest := Go.hexEncode digest.bytes }

/-- One entry as the verifier's struct holds it. -/
def describeEntry (pair : Text × Entry) : Go.TFM1Entry :=
  match pair.2 with
  | .directory => { path := pair.1, kind := .directory }
  | .file executable body => describeBody pair.1 executable body
  | .symlink target => { path := pair.1, kind := .symlink, target := target }
  | .hardlink ordinal =>
      { path := pair.1, kind := .hardlink, ordinal := ordinal }

def describeParent : Option SnapshotId → Text
  | none => []
  | some parent => Go.hexEncode parent.bytes

theorem describeEntry_path (pair : Text × Entry) :
    (describeEntry pair).path = pair.1 := by
  obtain ⟨path, entry⟩ := pair
  cases entry with
  | file executable body => cases body <;> rfl
  | _ => rfl

theorem describeEntry_kind (pair : Text × Entry) :
    (describeEntry pair).kind = .directory ↔ pair.2.isDirectory = true := by
  obtain ⟨path, entry⟩ := pair
  cases entry with
  | file executable body =>
      cases body <;> simp [describeEntry, describeBody, Entry.isDirectory]
  | _ => simp [describeEntry, Entry.isDirectory]

theorem utf8_stampText (handle : Handle) :
    (stampText (.named handle)).utf8 =
      handle.name.utf8 ++ Text.utf8 ('@' :: decimal handle.version.toNat) :=
  Text.utf8_append _ _

theorem emptyBlobDigest_iff {digest : Digest} :
    digest = emptyBlobDigest ↔
      Go.hexEncode digest.bytes = Go.tfm1EmptyBlobDigest := by
  have hempty : Go.hexEncode emptyBlobDigest.bytes =
      Go.tfm1EmptyBlobDigest := by decide
  constructor
  · rintro rfl
    exact hempty
  · intro h
    rw [← hempty] at h
    obtain ⟨bytes, hsize⟩ := digest
    have hbytes : bytes = emptyBlobDigest.bytes := Go.hexEncode_inj h
    subst hbytes
    rfl

/-! Primitive readers. -/

theorem take_agrees (count : Nat) :
    Reader.Agrees SameLabel (fun a b => a = b ∧ a.length = count)
      (take count) (Go.take count) :=
  @Reader.Agrees.take _ _ SameLabel .truncated _ rfl count

theorem takeU8_agrees : Reader.Agrees SameLabel (· = ·) takeU8 Go.takeU8 :=
  (take_agrees 1).bind fun _ _ h => .pure (by rw [h.1])

theorem takeU32_agrees :
    Reader.Agrees SameLabel (fun a b => a = b ∧ a < 2 ^ 32)
      takeU32 Go.takeU32 := by
  refine (take_agrees 4).bind ?_
  rintro bytes _ ⟨rfl, hlen⟩
  have hlt := leNat_lt bytes
  rw [hlen] at hlt
  exact .pure ⟨rfl, by simpa using hlt⟩

theorem takeU64_agrees :
    Reader.Agrees SameLabel (fun a b => a = b ∧ a < 2 ^ 64)
      takeU64 Go.takeU64 := by
  refine (take_agrees 8).bind ?_
  rintro bytes _ ⟨rfl, hlen⟩
  have hlt := leNat_lt bytes
  rw [hlen] at hlt
  exact .pure ⟨rfl, by simpa using hlt⟩

theorem takeDigest_agrees :
    Reader.Agrees SameLabel (fun digest bytes => bytes = digest.bytes)
      takeDigest (Go.take 32) := by
  intro input
  unfold takeDigest Go.take Reader.take
  by_cases hle : 32 ≤ input.length
  · rw [dif_pos hle, if_pos hle]
    exact .pure ⟨rfl, rfl⟩
  · rw [dif_neg hle, if_neg hle]
    exact .refuse rfl

theorem takeText_agrees (count : Nat) {refusal : Tfm1Error} {reason : String}
    (h : refusal.reason = reason) :
    Reader.Agrees SameLabel (· = ·) (takeText count refusal)
      (Go.parseText count reason) := by
  unfold takeText Go.parseText
  refine (take_agrees count).bind ?_
  rintro bytes _ ⟨rfl, _⟩
  cases Text.fromUtf8 bytes with
  | none => exact .fail h
  | some text => exact .pure rfl

/-! The stamp. -/

/-- A stamp both refuse, naming different rules: the name is not UTF-8 and its
version is cut off, or the name breaks the name rule and the version is
zero. -/
def DisputedStamp (input : Bytes) : Prop :=
  ∃ (name rest : Bytes),
    input = UInt8.ofNat name.length :: (name ++ rest) ∧
    name.length ≤ maxContractNameBytes ∧
    ((Text.fromUtf8 name = none ∧ rest.length < 4) ∨
      ∃ (text : Text) (after : Bytes), name = text.utf8 ∧ text ≠ [] ∧
        isContractName text = false ∧ rest = leBytes 4 0 ++ after)

/-- What follows a name the reader took whole. -/
def decodeNamed (bytes : Bytes) : Tfm1Reader Stamp :=
  match Text.fromUtf8 bytes with
  | none => Reader.fail .contractName
  | some name => do
      let version ← takeU32
      if name = [] then
        Reader.ensure (version = 0) .contractVersion
        pure .none
      else
        Reader.ensure (version ≠ 0) .contractVersion
        match Handle.new name (UInt32.ofNat version) with
        | .ok handle => pure (.named handle)
        | .error _ => Reader.fail .contractName

theorem decodeNamed_eq (count : Nat) :
    (take count >>= decodeNamed) = (do
      let name ← takeText count .contractName
      let version ← takeU32
      if name = [] then
        Reader.ensure (version = 0) .contractVersion
        pure .none
      else
        Reader.ensure (version ≠ 0) .contractVersion
        match Handle.new name (UInt32.ofNat version) with
        | .ok handle => pure (.named handle)
        | .error _ => Reader.fail .contractName) := by
  unfold takeText
  rw [bind_assoc]
  congr 1
  funext bytes
  unfold decodeNamed
  cases Text.fromUtf8 bytes with
  | none => rfl
  | some name => rw [pure_bind]

def Go.takeNamed (nameBytes : Bytes) : Go.TFM1Reader Bytes := do
  let version ← Go.takeU32
  if nameBytes = [] then
    Reader.ensure (version = 0) (Go.tfm1Refuse "contract-version")
    pure []
  else
    Reader.ensure (Go.isTFM1ContractName nameBytes = true)
      (Go.tfm1Refuse "contract-name")
    Reader.ensure (version ≠ 0) (Go.tfm1Refuse "contract-version")
    pure (nameBytes ++ Text.utf8 ('@' :: decimal version))

/-- The two refusals differ after this name and before these bytes. -/
def DisputedNamed (name rest : Bytes) : Prop :=
  (Text.fromUtf8 name = none ∧ rest.length < 4) ∨
    ∃ text, Text.fromUtf8 name = some text ∧ text ≠ [] ∧
      isContractName text = false ∧ ∃ after, takeU32 rest = .ok (0, after)

abbrev SameStamp (stamp : Stamp) (contract : Bytes) : Prop :=
  contract = (stampText stamp).utf8

theorem takeNamed_of_not_utf8 {name : Bytes}
    (hlen : name.length ≤ maxContractNameBytes)
    (hutf8 : Text.fromUtf8 name = none) :
    Reader.Matches SameLabel SameStamp (fun rest => rest.length < 4)
      (Reader.fail .contractName) (Go.takeNamed name) := by
  have hne : name ≠ [] := by
    rintro rfl
    exact absurd (Text.fromUtf8_utf8 []) (by simp [hutf8])
  have hname : ¬ (Go.isTFM1ContractName name = true) := by
    rw [isTFM1ContractName_iff hlen, hutf8]
    simp
  intro rest
  unfold Go.takeNamed
  by_cases hshort : rest.length < 4
  · have hgo : Go.takeU32 rest = .error (Go.tfm1Refuse "truncated") := by
      show (Reader.take _ 4 rest >>= _) = _
      rw [Reader.take, if_neg (by omega)]
      rfl
    rw [Reader.bind_of_error hgo]
    exact ⟨fun h => absurd h (show "contract-name" ≠ "truncated" by decide),
      fun h => absurd hshort h⟩
  · have hgo : Go.takeU32 rest = .ok (leNat (rest.take 4), rest.drop 4) := by
      show (Reader.take _ 4 rest >>= _) = _
      rw [Reader.take, if_pos (by omega)]
      rfl
    rw [Reader.bind_of_ok hgo, if_neg hne,
      Reader.bind_of_error (Reader.ensure_of_not hname _)]
    refine Lockstep.congr (.refuse ?_) (by simp [hshort])
    rfl

theorem takeNamed_of_utf8 {name : Bytes} {text : Text}
    (hlen : name.length ≤ maxContractNameBytes)
    (hutf8 : Text.fromUtf8 name = some text) :
    Reader.Matches SameLabel SameStamp
      (fun rest => text ≠ [] ∧ isContractName text = false ∧
        ∃ after, takeU32 rest = .ok (0, after))
      (decodeNamed name) (Go.takeNamed name) := by
  have hbytes := Text.utf8_of_fromUtf8 hutf8
  have hempty : text = [] ↔ name = [] := by
    rw [hbytes, Text.utf8_eq_nil]
  have hname : Go.isTFM1ContractName name = true ↔
      isContractName text = true := by
    rw [isTFM1ContractName_iff hlen, hutf8]
    simp
  unfold decodeNamed Go.takeNamed
  rw [hutf8]
  refine (@Reader.Agrees.bind_matches _ _ _ _ _ _ _ _ SameStamp
    (fun version _ => text ≠ [] ∧ isContractName text = false ∧ version = 0)
    _ _ _ _ takeU32_agrees ?_).congr ?_
  · rintro version _ ⟨rfl, hlt⟩
    by_cases hnil : text = []
    · rw [if_pos hnil, if_pos (hempty.mp hnil)]
      refine Reader.Matches.congr
        (Reader.Agrees.guard rfl Iff.rfl fun _ => .pure rfl) (by simp [hnil])
    · rw [if_neg hnil, if_neg (mt hempty.mpr hnil)]
      by_cases hok : isContractName text = true
      · rw [Reader.ensure_bind (hname.mpr hok)]
        refine Reader.Matches.congr (Reader.Agrees.guard rfl Iff.rfl
          fun hzero => ?_) (by simp [hok])
        have hword : (UInt32.ofNat version).toNat = version :=
          UInt32.toNat_ofNat_of_lt' (by simpa using hlt)
        have hne : UInt32.ofNat version ≠ 0 := by
          intro hzero'
          rw [hzero'] at hword
          exact hzero hword.symm
        obtain ⟨handle, hnew, hn, hv⟩ : ∃ handle,
            Handle.new text (UInt32.ofNat version) = .ok handle ∧
              handle.name = text ∧ handle.version.toNat = version :=
          ⟨⟨text, UInt32.ofNat version, hok, hne⟩,
            handle_new_eq_ok.mpr ⟨rfl, rfl⟩, rfl, hword⟩
        rw [hnew, hbytes, ← hn, ← hv]
        exact .pure (utf8_stampText handle).symm
      · intro rest
        rw [Reader.bind_of_error
          (Reader.ensure_of_not (mt hname.mp hok) rest)]
        by_cases hzero : version ≠ 0
        · have hnew : Handle.new text (UInt32.ofNat version) =
              .error (.name text) := by
            unfold Handle.new
            rw [dif_neg hok]
          rw [Reader.bind_of_ok (Reader.ensure_eq_ok.mpr ⟨hzero, rfl⟩), hnew]
          refine Lockstep.congr (.refuse ?_) (by simp [hzero])
          rfl
        · rw [Reader.bind_of_error (Reader.ensure_of_not hzero rest)]
          exact ⟨fun h => absurd h
            (show "contract-version" ≠ "contract-name" by decide),
            fun h => absurd ⟨hnil, by simpa using hok, not_not.mp hzero⟩ h⟩
  · intro rest
    constructor
    · rintro ⟨version, after, htake, hnil, hbad, rfl⟩
      exact ⟨hnil, hbad, after, htake⟩
    · rintro ⟨hnil, hbad, after, htake⟩
      exact ⟨0, after, htake, hnil, hbad, rfl⟩

theorem decodeNamed_matches {name : Bytes}
    (hlen : name.length ≤ maxContractNameBytes) :
    Reader.Matches SameLabel SameStamp (DisputedNamed name)
      (decodeNamed name) (Go.takeNamed name) := by
  cases hutf8 : Text.fromUtf8 name with
  | none =>
      have hfail : decodeNamed name = Reader.fail .contractName := by
        unfold decodeNamed
        rw [hutf8]
      rw [hfail]
      exact (takeNamed_of_not_utf8 hlen hutf8).congr
        fun rest => by simp [DisputedNamed, hutf8]
  | some text =>
      exact (takeNamed_of_utf8 hlen hutf8).congr
        fun rest => by simp [DisputedNamed, hutf8]

theorem decodeStamp_matches :
    Reader.Matches SameLabel SameStamp DisputedStamp decodeStamp
      Go.takeContract := by
  have hdecode : decodeStamp = (do
      let length ← takeU8
      if length = stampDigestMarker then
        let digest ← takeDigest
        pure (.digest digest)
      else
        Reader.ensure (length.toNat ≤ maxContractNameBytes) .contractName
        take length.toNat >>= decodeNamed) := by
    unfold decodeStamp
    apply congrArg (takeU8 >>= ·)
    funext length
    exact congrArg (ite _ _) (congrArg (_ >>= ·)
      (funext fun _ => (decodeNamed_eq length.toNat).symm))
  rw [hdecode]
  unfold Go.takeContract
  refine (@Reader.Agrees.bind_matches _ _ _ _ _ _ _ _ SameStamp
    (fun length rest => length ≠ stampDigestMarker ∧
      length.toNat ≤ maxContractNameBytes ∧
      ∃ name after, take length.toNat rest = .ok (name, after) ∧
        DisputedNamed name after)
    _ _ _ _ takeU8_agrees ?_).congr ?_
  · rintro length _ rfl
    by_cases hmarker : length = stampDigestMarker
    · rw [if_pos hmarker, if_pos (show length = 0xff from hmarker)]
      refine Reader.Matches.congr (takeDigest_agrees.bind ?_)
        (by simp [hmarker])
      rintro digest _ rfl
      exact .pure rfl
    · rw [if_neg hmarker, if_neg (show ¬ length = 0xff from hmarker)]
      refine Reader.Matches.congr (Reader.Matches.guard rfl Iff.rfl
        fun hbound => (take_agrees length.toNat).bind_matches ?_)
        fun rest => (and_iff_right hmarker).symm
      rintro name _ ⟨rfl, hlen⟩
      exact decodeNamed_matches (by rw [hlen]; exact hbound)
  · intro input
    constructor
    · rintro ⟨length, rest, hlength, _, hbound, name, after, hname, hdisputed⟩
      have hinput := takeU8_sound hlength
      obtain ⟨hlen, hrest⟩ := Reader.take_sound hname
      refine ⟨name, after, ?_, by rw [hlen]; exact hbound, ?_⟩
      · rw [hinput, hrest, hlen, UInt8.ofNat_toNat]
      · rcases hdisputed with hshort | ⟨text, hutf8, hne, hbad, last, hzero⟩
        · exact .inl hshort
        · exact .inr ⟨text, last, Text.utf8_of_fromUtf8 hutf8, hne, hbad,
            (takeU32_sound hzero).2⟩
    · rintro ⟨name, rest, hinput, hbound, hdisputed⟩
      have hbyte : (UInt8.ofNat name.length).toNat = name.length := by
        rw [UInt8.toNat_ofNat']
        unfold maxContractNameBytes at hbound
        omega
      have hmarker : UInt8.ofNat name.length ≠ stampDigestMarker := by
        intro heq
        rw [heq] at hbyte
        simp only [stampDigestMarker, UInt8.reduceToNat] at hbyte
        unfold maxContractNameBytes at hbound
        omega
      refine ⟨UInt8.ofNat name.length, name ++ rest, ?_, hmarker,
        by rw [hbyte]; exact hbound, name, rest, ?_, ?_⟩
      · rw [hinput]
        exact takeU8_reads _ _
      · rw [hbyte]
        exact Reader.take_append
      · rcases hdisputed with hshort | ⟨text, after, rfl, hne, hbad, rfl⟩
        · exact .inl hshort
        · exact .inr ⟨text, Text.fromUtf8_utf8 text, hne, hbad, after,
            takeU32_reads (by norm_num) after⟩

/-! File bodies. -/

theorem decodeRecord_agrees :
    Reader.Agrees SameLabel (fun record other => other = describeRecord record)
      decodeRecord Go.parseRecord := by
  unfold decodeRecord Go.parseRecord
  refine takeU8_agrees.bind ?_
  rintro tag _ rfl
  by_cases hdata : tag = recordData
  · rw [if_pos hdata, if_pos (show tag = 1 from hdata)]
    refine takeDigest_agrees.bind ?_
    rintro digest _ rfl
    refine takeU64_agrees.bind ?_
    rintro length _ ⟨rfl, _⟩
    exact .pure rfl
  · rw [if_neg hdata, if_neg (show ¬ tag = 1 from hdata)]
    by_cases hhole : tag = recordHole
    · rw [if_pos hhole, if_pos (show tag = 2 from hhole)]
      refine takeU64_agrees.bind ?_
      rintro length _ ⟨rfl, _⟩
      exact .pure rfl
    · rw [if_neg hhole, if_neg (show ¬ tag = 2 from hhole)]
      exact .fail rfl

theorem decodeRecords_agrees (count : Nat) :
    Reader.Agrees SameLabel
      (fun records others => others = records.map describeRecord ∧
        records.length = count)
      (decodeRecords count) (Go.parseRecords count) := by
  induction count with
  | zero => exact .pure ⟨rfl, rfl⟩
  | succ count ih =>
      refine decodeRecord_agrees.bind ?_
      rintro record _ rfl
      refine ih.bind ?_
      rintro records _ ⟨rfl, hlen⟩
      exact .pure ⟨rfl, by simp [hlen]⟩

/-- A tensor body, behind its planner byte, whose refusals differ. -/
def DisputedTensor (input : Bytes) : Prop :=
  ∃ (size : Nat) (rest : Bytes), size < 2 ^ 64 ∧
    input = leBytes 8 size ++ rest ∧
    (DisputedStamp rest ∨
      ∃ (stamp : Stamp) (records : List FileRecord) (after : Bytes),
        rest = emitStamp stamp ++ (leBytes 8 records.length ++
          (records.flatMap emitRecord ++ after)) ∧
        records.length ≤ maxFileRecords ∧
        DisputedRecords records (UInt64.ofNat size))

/-- Where the two record lists behind a stamp differ. -/
def DisputedRun (size : Nat) (input : Bytes) : Prop :=
  ∃ count rest, takeU64 input = .ok (count, rest) ∧
    count ≤ maxFileRecords ∧ count ≤ rest.length / minRecordBytes ∧
    ∃ records after, decodeRecords count rest = .ok (records, after) ∧
      DisputedRecords records (UInt64.ofNat size)

/-- The record list of a tensor body, behind its stamp. -/
def decodeRun (format : TensorFormat) (logicalSize : Nat) (contract : Stamp) :
    Tfm1Reader FileBody := do
  let recordCount ← takeU64
  Reader.ensure (recordCount ≤ maxFileRecords) .recordLimit
  let remaining ← Reader.remaining
  Reader.ensure (recordCount ≤ remaining / minRecordBytes) .countExceedsInput
  let records ← decodeRecords recordCount
  Reader.lift (validateRecords records (UInt64.ofNat logicalSize))
  pure (.tensor format contract (UInt64.ofNat logicalSize) records)

def Go.parseRun (entry : Go.TFM1Entry) (contract : Bytes) :
    Go.TFM1Reader Go.TFM1Entry := do
  let recordCount ← Go.takeU64
  Reader.ensure (recordCount ≤ Go.tfm1MaxFileRecords)
    (Go.tfm1Refuse "record-limit")
  let remaining ← Reader.remaining
  Reader.ensure (recordCount ≤ remaining / Go.tfm1MinRecordBytes)
    (Go.tfm1Refuse "count-exceeds-input")
  let records ← Go.parseRecords recordCount
  Reader.lift (Go.validateTFM1Records records entry.logicalSize)
  pure { entry with contract := contract, records := records }

/-- A file entry before its body is read. -/
def Go.fileEntry (path : Text) (executable : Bool) (planner : String)
    (size : Nat) : Go.TFM1Entry :=
  { path := path, kind := .file, executable := executable,
    planner := planner, logicalSize := UInt64.ofNat size }

abbrev SameBody (path : Text) (executable : Bool) (body : FileBody)
    (entry : Go.TFM1Entry) : Prop :=
  entry = describeBody path executable body

theorem decodeRun_matches (path : Text) (executable : Bool)
    (format : TensorFormat) (size : Nat) (contract : Stamp) :
    Reader.Matches SameLabel (SameBody path executable)
      (DisputedRun size) (decodeRun format size contract)
      (Go.parseRun (Go.fileEntry path executable (plannerText format) size)
        (stampText contract).utf8) := by
  unfold decodeRun Go.parseRun
  refine takeU64_agrees.bind_matches ?_
  rintro count _ ⟨rfl, _⟩
  refine Reader.Matches.guard rfl Iff.rfl fun hcount => ?_
  refine (@Reader.Agrees.bind_matches _ _ _ _ _ _ _ _
    (SameBody path executable)
    (fun remaining rest => count ≤ remaining / minRecordBytes ∧
      ∃ records after, decodeRecords count rest = .ok (records, after) ∧
        DisputedRecords records (UInt64.ofNat size))
    _ _ _ _ Reader.Agrees.remaining ?_).congr ?_
  · rintro remaining _ rfl
    refine Reader.Matches.guard rfl Iff.rfl fun _ => ?_
    refine (decodeRecords_agrees count).bind_matches ?_
    rintro records _ ⟨rfl, hlen⟩
    have hlimit : records.length ≤ maxFileRecords := by rwa [hlen]
    exact (Reader.Matches.lift
      (validateRecords_lockstep hlimit)).bind_agrees fun _ _ _ => .pure rfl
  · intro rest
    constructor
    · rintro ⟨remaining, after, hremaining, hdisputed⟩
      cases hremaining
      exact hdisputed
    · exact fun hdisputed => ⟨_, _, rfl, hdisputed⟩

theorem disputedRun_iff {size : Nat} {input : Bytes} :
    DisputedRun size input ↔
      ∃ (records : List FileRecord) (after : Bytes),
        input = leBytes 8 records.length ++
          (records.flatMap emitRecord ++ after) ∧
        records.length ≤ maxFileRecords ∧
        DisputedRecords records (UInt64.ofNat size) := by
  constructor
  · rintro ⟨count, rest, hcount, hlimit, _, records, after, hrecords,
      hdisputed⟩
    obtain ⟨hlen, rfl⟩ := decodeRecords_sound hrecords
    obtain ⟨_, rfl⟩ := takeU64_sound hcount
    exact ⟨records, after, by rw [hlen], by rwa [hlen], hdisputed⟩
  · rintro ⟨records, after, rfl, hlimit, hdisputed⟩
    have hlt : records.length < 2 ^ 64 := by
      unfold maxFileRecords at hlimit
      omega
    have hroom := minRecordBytes_le records
    refine ⟨records.length, _, takeU64_reads hlt _, hlimit, ?_, records,
      after, decodeRecords_reads records after, hdisputed⟩
    rw [Nat.le_div_iff_mul_le (by decide), List.length_append]
    omega

theorem decodeTensorBody_matches (path : Text) (executable : Bool)
    (format : TensorFormat) :
    Reader.Matches SameLabel (SameBody path executable) DisputedTensor
      (decodeTensorBody format) (Go.takeU64 >>= fun size =>
        Go.parseTensor
          (Go.fileEntry path executable (plannerText format) size)) := by
  refine (@Reader.Agrees.bind_matches _ _ _ _ _ _ _ _
    (SameBody path executable)
    (fun size rest => DisputedStamp rest ∨
      ∃ stamp after, decodeStamp rest = .ok (stamp, after) ∧
        DisputedRun size after)
    _ _ _ _ takeU64_agrees ?_).congr ?_
  · rintro size _ ⟨rfl, _⟩
    refine decodeStamp_matches.bind ?_
    rintro stamp _ rfl
    exact decodeRun_matches path executable format size stamp
  · intro input
    constructor
    · rintro ⟨size, rest, hsize, hdisputed⟩
      obtain ⟨hlt, rfl⟩ := takeU64_sound hsize
      refine ⟨size, rest, hlt, rfl, ?_⟩
      rcases hdisputed with hstamp | ⟨stamp, after, hstamp, hrun⟩
      · exact .inl hstamp
      · obtain ⟨records, last, rfl, hlimit, hrecords⟩ :=
          disputedRun_iff.mp hrun
        exact .inr ⟨stamp, records, last, decodeStamp_sound hstamp, hlimit,
          hrecords⟩
    · rintro ⟨size, rest, hlt, rfl, hdisputed⟩
      refine ⟨size, rest, takeU64_reads hlt rest, ?_⟩
      rcases hdisputed with hstamp | ⟨stamp, records, after, rfl, hlimit,
        hrecords⟩
      · exact .inl hstamp
      · exact .inr ⟨stamp, _, decodeStamp_reads stamp _,
          disputedRun_iff.mpr ⟨records, after, rfl, hlimit, hrecords⟩⟩

theorem decodeBlobBody_agrees (path : Text) (executable : Bool) :
    Reader.Agrees SameLabel (SameBody path executable)
      decodeBlobBody (Go.takeU64 >>= fun size =>
        Go.parseBlob
          (Go.fileEntry path executable Go.tfm1PlannerBlobV1 size)) := by
  unfold decodeBlobBody Go.parseBlob
  refine takeU64_agrees.bind ?_
  rintro size _ ⟨rfl, hlt⟩
  refine takeDigest_agrees.bind ?_
  rintro digest _ rfl
  refine Reader.Agrees.guard rfl ?_ fun _ => .pure rfl
  have hzero : (Go.fileEntry path executable Go.tfm1PlannerBlobV1
      size).logicalSize = 0 ↔ size = 0 := by
    unfold Go.fileEntry
    rw [← UInt64.toNat_inj, UInt64.toNat_ofNat_of_lt' (by simpa using hlt)]
    rfl
  rw [hzero, emptyBlobDigest_iff]
  tauto

/-! Entries. -/

theorem decodeExecutable_agrees :
    Reader.Agrees SameLabel (· = ·) decodeExecutable Go.parseExecutable := by
  unfold decodeExecutable Go.parseExecutable
  refine takeU8_agrees.bind ?_
  rintro flag _ rfl
  by_cases hzero : flag = 0
  · rw [if_pos hzero, if_pos hzero]
    exact .pure rfl
  · rw [if_neg hzero, if_neg hzero]
    by_cases hone : flag = 1
    · rw [if_pos hone, if_pos hone]
      exact .pure rfl
    · rw [if_neg hone, if_neg hone]
      exact .fail rfl

/-- The body behind the executable flag. -/
def Go.parseBody (path : Text) (executable : Bool) :
    Go.TFM1Reader Go.TFM1Entry := do
  let planner ← Go.parsePlanner
  let logicalSize ← Go.takeU64
  if planner = Go.tfm1PlannerBlobV1 then
    Go.parseBlob (Go.fileEntry path executable planner logicalSize)
  else
    Go.parseTensor (Go.fileEntry path executable planner logicalSize)

def DisputedBody (input : Bytes) : Prop :=
  ∃ (format : TensorFormat) (rest : Bytes),
    input = formatTag format :: rest ∧ DisputedTensor rest

theorem decodeBody_matches (path : Text) (executable : Bool) :
    Reader.Matches SameLabel (SameBody path executable) DisputedBody
      decodeBody (Go.parseBody path executable) := by
  unfold decodeBody Go.parseBody Go.parsePlanner
  rw [bind_assoc]
  refine (@Reader.Agrees.bind_matches _ _ _ _ _ _ _ _
    (SameBody path executable)
    (fun planner rest =>
      (planner = plannerSafetensors ∨ planner = plannerGguf) ∧
        DisputedTensor rest)
    _ _ _ _ takeU8_agrees ?_).congr ?_
  · rintro planner _ rfl
    by_cases hsafetensors : planner = plannerSafetensors
    · rw [if_pos hsafetensors,
        if_pos (show planner = 1 from hsafetensors), pure_bind]
      exact (decodeTensorBody_matches path executable .safetensorsV1).congr
        (by simp [hsafetensors])
    rw [if_neg hsafetensors, if_neg (show ¬ planner = 1 from hsafetensors)]
    by_cases hgguf : planner = plannerGguf
    · rw [if_pos hgguf, if_pos (show planner = 2 from hgguf), pure_bind]
      exact (decodeTensorBody_matches path executable .ggufV1).congr
        (by simp [hgguf])
    rw [if_neg hgguf, if_neg (show ¬ planner = 2 from hgguf)]
    by_cases hblob : planner = plannerBlob
    · rw [if_pos hblob, if_pos (show planner = 4 from hblob), pure_bind]
      exact Reader.Matches.congr (decodeBlobBody_agrees path executable)
        (by simp [hsafetensors, hgguf])
    rw [if_neg hblob, if_neg (show ¬ planner = 4 from hblob)]
    refine Reader.Matches.congr (Reader.Agrees.fail ?_)
      (by simp [hsafetensors, hgguf])
    rfl
  · intro input
    constructor
    · rintro ⟨planner, rest, hplanner, hformat, hdisputed⟩
      have hinput := takeU8_sound hplanner
      rcases hformat with rfl | rfl
      · exact ⟨.safetensorsV1, rest, hinput, hdisputed⟩
      · exact ⟨.ggufV1, rest, hinput, hdisputed⟩
    · rintro ⟨format, rest, rfl, hdisputed⟩
      refine ⟨formatTag format, rest, takeU8_reads _ rest, ?_, hdisputed⟩
      cases format
      · exact .inl rfl
      · exact .inr rfl

/-- A file entry, behind its path, whose refusals differ. -/
def DisputedEntry (input : Bytes) : Prop :=
  ∃ (executable : Bool) (rest : Bytes),
    input = kindFile :: (if executable then 1 else 0) :: rest ∧
    DisputedBody rest

theorem parseFile_matches (path : Text) :
    Reader.Matches SameLabel (fun entry other =>
        other = describeEntry (path, entry) ∧ entry.isFile = true)
      (fun input => ∃ executable rest,
        decodeExecutable input = .ok (executable, rest) ∧ DisputedBody rest)
      (do
        let executable ← decodeExecutable
        let body ← decodeBody
        pure (.file executable body))
      (Go.parseFile path) := by
  unfold Go.parseFile
  refine decodeExecutable_agrees.bind_matches ?_
  rintro executable _ rfl
  have hgo : (do
      let planner ← Go.parsePlanner
      let logicalSize ← Go.takeU64
      if planner = Go.tfm1PlannerBlobV1 then
        Go.parseBlob (Go.fileEntry path executable planner logicalSize)
      else
        Go.parseTensor (Go.fileEntry path executable planner logicalSize)) =
      (Go.parseBody path executable >>= fun entry => pure entry) := by
    rw [bind_pure]
    rfl
  refine Eq.subst (motive := fun other => Reader.Matches SameLabel _ _ _ other)
    hgo.symm ?_
  refine (decodeBody_matches path executable).bind_agrees ?_
  rintro body _ rfl
  exact .pure ⟨rfl, rfl⟩

/-- The entry read and the ordinals assigned after it. -/
abbrev SameEntry (path : Text) (assigned : Nat) (entry : Entry)
    (parsed : Go.TFM1Entry × Nat) : Prop :=
  parsed = (describeEntry (path, entry),
    if entry.isFile then assigned + 1 else assigned)

theorem parseSymlink_agrees (path : Text) (assigned : Nat) :
    Reader.Agrees SameLabel (SameEntry path assigned)
      (do
        let targetLength ← takeU32
        Reader.ensure (targetLength ≤ maxSymlinkTargetBytes) .symlinkTarget
        let target ← takeText targetLength .symlinkTarget
        Reader.lift (validateSymlinkTarget target)
        pure (.symlink target))
      (do
        let entry ← Go.parseSymlink path
        pure (entry, assigned)) := by
  unfold Go.parseSymlink
  rw [bind_assoc]
  refine takeU32_agrees.bind ?_
  rintro count _ ⟨rfl, _⟩
  rw [bind_assoc]
  refine Reader.Agrees.guard rfl Iff.rfl fun _ => ?_
  rw [bind_assoc]
  refine (takeText_agrees count rfl).bind ?_
  rintro target _ rfl
  rw [bind_assoc]
  refine (Reader.Matches.lift (validateSymlinkTarget_lockstep target)).bind_agrees
    fun _ _ _ => ?_
  rw [pure_bind]
  exact .pure rfl

theorem parseHardlink_agrees (path : Text) (assigned : Nat) :
    Reader.Agrees SameLabel (SameEntry path assigned)
      (do
        let ordinal ← takeU64
        Reader.ensure (ordinal < assigned) .hardlinkOrdinal
        pure (.hardlink ordinal))
      (do
        let entry ← Go.parseHardlink path assigned
        pure (entry, assigned)) := by
  unfold Go.parseHardlink
  rw [bind_assoc]
  refine takeU64_agrees.bind ?_
  rintro ordinal _ ⟨rfl, _⟩
  rw [bind_assoc]
  refine Reader.Agrees.guard rfl not_le.symm fun _ => ?_
  rw [pure_bind]
  exact .pure rfl

theorem parseFile_entry_matches (path : Text) (assigned : Nat) :
    Reader.Matches SameLabel (SameEntry path assigned)
      (fun input => ∃ executable rest,
        decodeExecutable input = .ok (executable, rest) ∧ DisputedBody rest)
      (do
        let executable ← decodeExecutable
        let body ← decodeBody
        pure (.file executable body))
      (do
        let entry ← Go.parseFile path
        pure (entry, assigned + 1)) := by
  rw [← bind_pure (do
    let executable ← decodeExecutable
    let body ← decodeBody
    pure (Entry.file executable body) : Tfm1Reader Entry)]
  refine (parseFile_matches path).bind_agrees ?_
  rintro entry _ ⟨rfl, hentry⟩
  exact .pure (by rw [SameEntry, if_pos hentry])

theorem decodeEntry_matches (path : Text) (assigned : Nat) :
    Reader.Matches SameLabel (SameEntry path assigned) DisputedEntry
      (decodeEntry assigned) (Go.parseEntry path assigned) := by
  unfold decodeEntry Go.parseEntry
  refine (@Reader.Agrees.bind_matches _ _ _ _ _ _ _ _
    (SameEntry path assigned)
    (fun kind rest => kind = kindFile ∧ ∃ executable after,
      decodeExecutable rest = .ok (executable, after) ∧ DisputedBody after)
    _ _ _ _ takeU8_agrees ?_).congr ?_
  · rintro kind _ rfl
    by_cases hdirectory : kind = kindDirectory
    · rw [if_pos hdirectory, if_pos (show kind = 1 from hdirectory)]
      refine Reader.Matches.congr (Reader.Agrees.pure rfl) (fun rest => ?_)
      rw [hdirectory]
      exact ⟨False.elim, fun h => absurd h.1 (by decide)⟩
    rw [if_neg hdirectory, if_neg (show ¬ kind = 1 from hdirectory)]
    by_cases hfile : kind = kindFile
    · rw [if_pos hfile, if_pos (show kind = 2 from hfile)]
      exact (parseFile_entry_matches path assigned).congr
        fun rest => by simp [hfile]
    rw [if_neg hfile, if_neg (show ¬ kind = 2 from hfile)]
    by_cases hsymlink : kind = kindSymlink
    · rw [if_pos hsymlink, if_pos (show kind = 3 from hsymlink)]
      exact Reader.Matches.congr (parseSymlink_agrees path assigned)
        (by simp [hfile])
    rw [if_neg hsymlink, if_neg (show ¬ kind = 3 from hsymlink)]
    by_cases hhardlink : kind = kindHardlink
    · rw [if_pos hhardlink, if_pos (show kind = 4 from hhardlink)]
      exact Reader.Matches.congr (parseHardlink_agrees path assigned)
        (by simp [hfile])
    rw [if_neg hhardlink, if_neg (show ¬ kind = 4 from hhardlink)]
    refine Reader.Matches.congr (Reader.Agrees.fail ?_) (by simp [hfile])
    rfl
  · intro input
    constructor
    · rintro ⟨kind, rest, hkind, rfl, executable, after, hflag, hdisputed⟩
      have hinput := takeU8_sound hkind
      have hrest := decodeExecutable_sound hflag
      exact ⟨executable, after, by rw [hinput, hrest], hdisputed⟩
    · rintro ⟨executable, rest, rfl, hdisputed⟩
      exact ⟨kindFile, _, takeU8_reads _ _, rfl, executable, rest,
        decodeExecutable_reads executable rest, hdisputed⟩

/-! The whole manifest. -/

section Manifest

variable {tables : Go.Tables} {U : Unicode}

theorem decodePath_agrees (htables : tables.Agree U) :
    Reader.Agrees SameLabel (· = ·) (decodePath U) (Go.parsePath tables) := by
  unfold decodePath Go.parsePath
  refine takeU32_agrees.bind ?_
  rintro count _ ⟨rfl, _⟩
  have hbound : count ≠ 0 ∧ count ≤ maxPathBytes ↔
      ¬ (count = 0 ∨ count > Go.tfm1MaxPathBytes) := by
    rw [not_or, not_lt]
    rfl
  refine Reader.Agrees.guard rfl hbound fun _ => ?_
  refine (takeText_agrees count rfl).bind ?_
  rintro path _ rfl
  exact (Reader.Matches.lift (validatePath_lockstep htables path)).bind_agrees
    fun _ _ _ => .pure rfl

/-- Reading `count` entries on from `previous`, the first entry that is not
well formed is a file whose refusals differ. -/
def DisputedEntries (U : Unicode) :
    Nat → Option Text → Nat → Bytes → Prop
  | 0, _, _, _ => False
  | count + 1, previous, assigned, input =>
      ∃ (path : Text) (rest : Bytes),
        input = leBytes 4 path.utf8Len ++ (path.utf8 ++ rest) ∧
        validatePath U path = .ok () ∧ checkOrder previous path = .ok () ∧
        (DisputedEntry rest ∨
          ∃ (entry : Entry) (after : Bytes),
            rest = emitEntry entry ++ after ∧ EntryOk assigned entry ∧
            DisputedEntries U count (some path)
              (if entry.isFile then assigned + 1 else assigned) after)

abbrev SameEntries (entries : List (Text × Entry))
    (others : List Go.TFM1Entry) : Prop :=
  others = entries.map describeEntry

theorem decodeEntries_matches (htables : tables.Agree U) (count : Nat)
    (previous : Option Text) (assigned : Nat) :
    Reader.Matches SameLabel SameEntries
      (DisputedEntries U count previous assigned)
      (decodeEntries U count previous assigned)
      (Go.parseEntries tables count previous assigned) := by
  induction count generalizing previous assigned with
  | zero => exact Reader.Agrees.pure rfl
  | succ count ih =>
      refine (@Reader.Agrees.bind_matches _ _ _ _ _ _ _ _ SameEntries
        (fun path rest => checkOrder previous path = .ok () ∧
          (DisputedEntry rest ∨ ∃ entry after,
            decodeEntry assigned rest = .ok (entry, after) ∧
            DisputedEntries U count (some path)
              (if entry.isFile then assigned + 1 else assigned) after))
        _ _ _ _ (decodePath_agrees htables) ?_).congr ?_
      · rintro path _ rfl
        refine (@Reader.Agrees.bind_matches _ _ _ _ _ _ _ _ SameEntries
          (fun _ rest => DisputedEntry rest ∨ ∃ entry after,
            decodeEntry assigned rest = .ok (entry, after) ∧
            DisputedEntries U count (some path)
              (if entry.isFile then assigned + 1 else assigned) after)
          _ _ _ _ (Reader.Matches.lift (checkOrder_lockstep previous path))
          fun _ _ _ => (decodeEntry_matches path assigned).bind ?_).congr ?_
        · rintro entry _ rfl
          refine (ih (some path) _).bind_agrees ?_
          rintro entries _ rfl
          exact .pure rfl
        · intro rest
          simp only [Reader.lift_eq_ok, exists_unit]
          constructor
          · rintro ⟨_, ⟨horder, rfl⟩, hdisputed⟩
            exact ⟨horder, hdisputed⟩
          · rintro ⟨horder, hdisputed⟩
            exact ⟨rest, ⟨horder, rfl⟩, hdisputed⟩
      · intro input
        constructor
        · rintro ⟨path, rest, hpath, horder, hdisputed⟩
          obtain ⟨hvalid, hinput⟩ := decodePath_sound hpath
          refine ⟨path, rest, hinput, hvalid, horder, ?_⟩
          rcases hdisputed with hentry | ⟨entry, after, hentry, hrest⟩
          · exact .inl hentry
          · obtain ⟨hok, hemit⟩ := decodeEntry_sound hentry
            exact .inr ⟨entry, after, hemit, hok, hrest⟩
        · rintro ⟨path, rest, rfl, hvalid, horder, hdisputed⟩
          refine ⟨path, rest, ?_, horder, ?_⟩
          · rw [← List.append_assoc]
            exact decodePath_reads hvalid rest
          rcases hdisputed with hentry | ⟨entry, after, rfl, hok, hrest⟩
          · exact .inl hentry
          · exact .inr ⟨entry, after, decodeEntry_reads hok after, hrest⟩

theorem decodeParent_agrees :
    Reader.Agrees SameLabel (fun parent other => other = describeParent parent)
      decodeParent Go.parseParent := by
  unfold decodeParent Go.parseParent
  refine takeU8_agrees.bind ?_
  rintro flag _ rfl
  by_cases hzero : flag = 0
  · rw [if_pos hzero, if_pos hzero]
    exact .pure rfl
  · rw [if_neg hzero, if_neg hzero]
    by_cases hone : flag = 1
    · rw [if_pos hone, if_pos hone]
      refine takeDigest_agrees.bind ?_
      rintro parent _ rfl
      exact .pure rfl
    · rw [if_neg hone, if_neg hone]
      exact .fail rfl

/-- The manifest is well formed up to a file entry whose refusals differ: the
stamp or the record list of its tensor body breaks two rules that the two
decoders check in different orders. -/
def Disputed (U : Unicode) (bytes : Bytes) : Prop :=
  ∃ (parent : Option SnapshotId) (count : Nat) (rest : Bytes),
    bytes = magic ++ (emitParent parent ++ (leBytes 8 count ++ rest)) ∧
    count < 2 ^ 64 ∧ count ≤ rest.length / minEntryBytes ∧
    DisputedEntries U count none 0 rest

abbrev SameSnapshot (snapshot : Snapshot)
    (parsed : Text × List Go.TFM1Entry) : Prop :=
  parsed = (describeParent snapshot.parent,
    snapshot.entries.map describeEntry)

/-- What follows the parent: the entries, nothing behind them, and the tree
rules. -/
theorem manifestTail_agrees (htables : tables.Agree U)
    (parent : Option SnapshotId) (entries : List (Text × Entry)) :
    Reader.Agrees SameLabel SameSnapshot
      (do
        let trailing ← Reader.remaining
        Reader.ensure (trailing = 0) .trailingBytes
        Reader.lift (validateTree U Entry.isDirectory entries)
        pure ⟨parent, entries⟩)
      (do
        let trailing ← Reader.remaining
        Reader.ensure (trailing = 0) (Go.tfm1Refuse "trailing-bytes")
        Reader.lift
          (Go.validateTFM1Tree tables (entries.map describeEntry))
        pure (describeParent parent, entries.map describeEntry)) := by
  refine Reader.Agrees.remaining.bind ?_
  rintro trailing _ rfl
  refine Reader.Agrees.guard rfl Iff.rfl fun _ => ?_
  exact (Reader.Matches.lift (validateTree_lockstep htables
    describeEntry_path describeEntry_kind entries)).bind_agrees
      fun _ _ _ => .pure rfl

theorem decodeManifest_matches (htables : tables.Agree U) :
    Reader.Matches SameLabel SameSnapshot (Disputed U)
      (decodeManifest U) (Go.parseManifest tables) := by
  unfold decodeManifest Go.parseManifest
  refine (@Reader.Agrees.bind_matches _ _ _ _ _ _ _ _ SameSnapshot
    (fun front input => front = magic ∧ ∃ parent rest,
      decodeParent input = .ok (parent, rest) ∧ ∃ count after,
        takeU64 rest = .ok (count, after) ∧
        count ≤ after.length / minEntryBytes ∧
        DisputedEntries U count none 0 after)
    _ _ _ _ (take_agrees 4) ?_).congr ?_
  · rintro front _ ⟨rfl, _⟩
    refine Reader.Matches.guard rfl Iff.rfl fun _ => ?_
    refine decodeParent_agrees.bind_matches ?_
    rintro parent _ rfl
    refine takeU64_agrees.bind_matches ?_
    rintro count _ ⟨rfl, _⟩
    refine (@Reader.Agrees.bind_matches _ _ _ _ _ _ _ _ SameSnapshot
      (fun remaining after => count ≤ remaining / minEntryBytes ∧
        DisputedEntries U count none 0 after)
      _ _ _ _ Reader.Agrees.remaining ?_).congr ?_
    · rintro remaining _ rfl
      refine Reader.Matches.guard rfl Iff.rfl fun _ => ?_
      refine (decodeEntries_matches htables count none 0).bind_agrees ?_
      rintro entries _ rfl
      exact manifestTail_agrees htables parent entries
    · intro rest
      constructor
      · rintro ⟨remaining, after, hremaining, hdisputed⟩
        cases hremaining
        exact hdisputed
      · exact fun hdisputed => ⟨_, _, rfl, hdisputed⟩
  · intro input
    constructor
    · rintro ⟨front, rest, hfront, rfl, parent, after, hparent, count, last,
        hcount, hroom, hdisputed⟩
      obtain ⟨_, rfl⟩ := Reader.take_sound hfront
      obtain ⟨hlt, rfl⟩ := takeU64_sound hcount
      rw [decodeParent_sound hparent]
      exact ⟨parent, count, last, rfl, hlt, hroom, hdisputed⟩
    · rintro ⟨parent, count, rest, rfl, hlt, hroom, hdisputed⟩
      exact ⟨magic, _, take_reads magic _, rfl, parent, _,
        decodeParent_reads parent _, count, rest, takeU64_reads hlt rest,
        hroom, hdisputed⟩

/-- Tables that know ASCII and the one letter whose lowercase is two. -/
def asciiTables : Go.Tables where
  isNormalString path := path.all fun c => c.toNat < 128
  toLower := Char.toLower

def asciiFolding : Unicode where
  isNfc path := path.all fun c => c.toNat < 128
  toLowercase c := if c = 'İ' then ['i', '\u0307'] else [c.toLower]

theorem asciiTables_agree : asciiTables.Agree asciiFolding where
  nfc _ := rfl
  lower _ := rfl

/-- The two implementations accept the same manifests and read the same
snapshot from them. -/
theorem tfm1_decoders_accept_alike (htables : tables.Agree U)
    (sha256 : Bytes → Bytes) (bytes : Bytes) :
    ((∃ snapshot, decode U bytes = .ok snapshot) ↔
      ∃ parsed, Go.parseTFM1 tables sha256 bytes = .ok parsed) ∧
    ∀ snapshot parsed, decode U bytes = .ok snapshot →
      Go.parseTFM1 tables sha256 bytes = .ok parsed →
        parsed.parent = describeParent snapshot.parent ∧
        parsed.entries = snapshot.entries.map describeEntry := by
  have hmatches := decodeManifest_matches htables bytes
  unfold decode Go.parseTFM1
  cases hrust : decodeManifest U bytes with
  | error refusal =>
      cases hgo : Go.parseManifest tables bytes with
      | error other => simp [Except.map]
      | ok parsed =>
          rw [hrust, hgo] at hmatches
          exact hmatches.elim
  | ok result =>
      cases hgo : Go.parseManifest tables bytes with
      | error other =>
          rw [hrust, hgo] at hmatches
          exact hmatches.elim
      | ok parsed =>
          rw [hrust, hgo] at hmatches
          obtain ⟨⟨hsame, _⟩, _⟩ := hmatches
          refine ⟨⟨fun _ => ⟨_, rfl⟩, fun _ => ⟨_, rfl⟩⟩, ?_⟩
          intro snapshot other hsnapshot hother
          cases hsnapshot
          cases hother
          exact ⟨congrArg Prod.fst hsame, congrArg Prod.snd hsame⟩

/-- One executable blob, `a`. -/
def blobSnapshot : Snapshot :=
  ⟨none, [(['a'], .file true (.blob 3 emptyBlobDigest))]⟩

theorem tfm1_decoders_accept_blob :
    ∃ parsed, Go.parseTFM1 asciiTables id blobSnapshot.toBytes = .ok parsed ∧
      parsed.entries = blobSnapshot.entries.map describeEntry := by
  have hdecode : decode asciiFolding blobSnapshot.toBytes =
      .ok blobSnapshot := by decide +kernel
  obtain ⟨hiff, hsame⟩ := tfm1_decoders_accept_alike asciiTables_agree id
    blobSnapshot.toBytes
  obtain ⟨parsed, hparsed⟩ := hiff.mp ⟨_, hdecode⟩
  exact ⟨parsed, hparsed, (hsame _ parsed hdecode hparsed).2⟩

/-- Their refusals carry the same label exactly when the manifest is not
disputed. -/
theorem tfm1_labels_agree_iff (htables : tables.Agree U)
    (sha256 : Bytes → Bytes) {bytes : Bytes} {refusal : Tfm1Error}
    {other : Go.TFM1Error} (hrust : decode U bytes = .error refusal)
    (hgo : Go.parseTFM1 tables sha256 bytes = .error other) :
    refusal.reason = other.reason ↔ ¬ Disputed U bytes := by
  have hmatches := decodeManifest_matches htables bytes
  unfold decode at hrust
  unfold Go.parseTFM1 at hgo
  cases hread : decodeManifest U bytes with
  | ok result =>
      rw [hread] at hrust
      cases hrust
  | error found =>
      rw [hread] at hrust hmatches
      cases hrust
      cases hparse : Go.parseManifest tables bytes with
      | ok parsed =>
          rw [hparse] at hgo
          cases hgo
      | error label =>
          rw [hparse] at hgo hmatches
          cases hgo
          exact hmatches

/-- A safetensors entry `a` with the stamp name `A` at version zero. -/
def unnamedStampBytes : Bytes :=
  magic ++ (emitParent none ++ (leBytes 8 1 ++ (leBytes 4 1 ++ (97 ::
    kindFile :: 0 :: plannerSafetensors :: (leBytes 8 0 ++ (1 :: 65 ::
      leBytes 4 0))))))

theorem tfm1_labels_differ_on_stamp :
    decode asciiFolding unnamedStampBytes = .error .contractVersion ∧
      Go.parseTFM1 asciiTables id unnamedStampBytes =
        .error (Go.tfm1Refuse "contract-name") ∧
      Tfm1Error.contractVersion.reason ≠
        (Go.tfm1Refuse "contract-name").reason :=
  ⟨by decide +kernel, by decide +kernel, by decide⟩

/-- An entry whose records touch, wrap, exceed an object, have no length and
miss the file's size, with a byte left over. -/
def brokenRunBytes : Bytes :=
  emit none [(['a'], .file false (.tensor .safetensorsV1 .none 5
    [.hole 8, .hole 18446744073709551610, .data emptyBlobDigest 67108865,
      .hole 0]))] ++ [7]

/-- Both implementations name the same one of the broken rules. -/
theorem tfm1_labels_agree_on_run :
    decode asciiFolding brokenRunBytes = .error .adjacentHoles ∧
      Go.parseTFM1 asciiTables id brokenRunBytes =
        .error (Go.tfm1Refuse "adjacent-holes") ∧
      ¬ Disputed asciiFolding brokenRunBytes := by
  have hrust : decode asciiFolding brokenRunBytes = .error .adjacentHoles := by
    decide +kernel
  have hgo : Go.parseTFM1 asciiTables id brokenRunBytes =
      .error (Go.tfm1Refuse "adjacent-holes") := by
    decide +kernel
  exact ⟨hrust, hgo,
    (tfm1_labels_agree_iff asciiTables_agree id hrust hgo).mp rfl⟩

end Manifest

end TensorFS
