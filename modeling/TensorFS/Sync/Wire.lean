import TensorFS.Data.Client
import TensorFS.Tfp1.Codec
import TensorFS.Workspace.Collect

namespace TensorFS.Sync

open Data

/-! What a push or a pull says to the remote, and what can come back. -/

/-- One object and its length, as the manifest or the remote states it. -/
abbrev Row := ObjectDigest × UInt64

structure PackGrant where
  packSha256 : Text
  stagingKey : Text
  url : Text
  headers : List (Text × Text)
  deriving DecidableEq

structure DownloadGrant where
  digest : ObjectDigest
  length : UInt64
  url : Text
  deriving DecidableEq

/-- One part of a blob's multipart upload. -/
structure BlobPart where
  partNumber : UInt32
  sizeBytes : UInt64
  url : Text
  headers : List (Text × Text)
  deriving DecidableEq

structure BlobGrant where
  digest : ObjectDigest
  length : UInt64
  stagingKey : Text
  uploadId : Text
  partSize : UInt64
  parts : List BlobPart
  uploadedParts : List UInt32
  deriving DecidableEq

structure BlobPartReport where
  partNumber : UInt32
  etag : Text
  deriving DecidableEq

structure StagedPack where
  sha256 : Text
  staged : Bool
  deriving DecidableEq

structure PackClaim where
  sha256 : Text
  sizeBytes : Nat
  objects : List ObjectDigest
  deriving DecidableEq

structure SyncPlan where
  snapshotId : SnapshotId
  session : Text
  have_ : List ObjectDigest
  missing : List Row
  missingBlobs : List Row
  maxPackPayload : UInt64
  deriving DecidableEq

structure GrantsPlan where
  grants : List PackGrant
  stagedPacks : List StagedPack
  missing : List Row
  missingBlobs : List Row
  deriving DecidableEq

inductive CompleteStatus where
  | promoted
  | incomplete (code : Text) (promoted total : UInt64)
  | failed (code : Text)
  deriving DecidableEq

/-- A grant or session lease that ran out, a refusal, or the carrier. -/
inductive TransportError where
  | expired (detail : Text)
  | refused (code detail : Text)
  | io (detail : Text)
  deriving DecidableEq

inductive StoreError where
  | io
  | notARegularFile (digest : ObjectDigest)
  | lengthMismatch (expected : UInt64) (actual : Nat)
  | digestMismatch (expected actual : ObjectDigest)
  | missing (digest : ObjectDigest)
  deriving DecidableEq

inductive SyncError where
  | workspace (error : Failure WorkspaceError)
  | store (error : StoreError)
  | transport (error : TransportError)
  | pack (error : Tfp1.Tfp1Error)
  | manifest (error : Tfm1Error)
  | identityMismatch (own remote : SnapshotId)
  | headRefused (code : Text)
  | remoteManifestCorrupt (id : SnapshotId)
  | noRemoteHead
  | localObjectLength (digest : ObjectDigest) (expected : UInt64)
      (actual : Nat)
  | grantOmitted (digest : ObjectDigest)
  | missingNotCanonical (digest : ObjectDigest)
  | missingLength (digest : ObjectDigest) (expected actual : UInt64)
  | packGrantOmitted (sha256 : Text)
  | replansStalled (rounds owed : Nat)
  | completionStalled (stalls : Nat) (promoted : UInt64) (last : Text)
  | blobGrantOmitted (digest : ObjectDigest)
  | blobLaneMismatch (digest : ObjectDigest) (length limit : UInt64)
      (lane : String)
  | blobPartCoverage (digest : ObjectDigest) (length granted : UInt64)
  | blobPartAttemptsExhausted (digest : ObjectDigest) (attempts : Nat)
  | blobNotAccepted (digest : ObjectDigest)
  deriving DecidableEq

/-- Every bound counts attempts that achieved nothing. -/
structure PushOptions where
  maxStalledReplans : UInt32 := 16
  maxUploadAttempts : UInt32 := 8
  maxCompletionStalls : UInt32 := 24

structure PushReport where
  uploadedObjects : Nat := 0
  uploadedBytes : Nat := 0
  packs : Nat := 0
  blobs : Nat := 0
  blobParts : Nat := 0
  skippedRemoteResident : Nat := 0
  completeAttempts : Nat := 0
  replans : Nat := 0
  deriving DecidableEq

structure PullReport where
  fetchedObjects : Nat := 0
  fetchedBytes : Nat := 0
  skippedLocalResident : Nat := 0
  deriving DecidableEq

/-- The answer to one call. -/
abbrev Answer (α : Type) := Except TransportError α

/-- One call and its answer. -/
inductive Event where
  | declared (bytes : Bytes) (expectedHead : Option SnapshotId)
      (answer : Answer SyncPlan)
  | packsGranted (session : Text) (claims : List PackClaim)
      (answer : Answer GrantsPlan)
  | packUploaded (grant : PackGrant) (pack : Bytes) (answer : Answer Unit)
  | blobsGranted (session : Text) (digests : List ObjectDigest)
      (answer : Answer (List BlobGrant))
  | partUploaded (part : BlobPart) (bytes : Bytes) (answer : Answer Text)
  | partsReported (session : Text) (digest : ObjectDigest)
      (parts : List BlobPartReport) (answer : Answer Unit)
  | completed (session : Text) (answer : Answer CompleteStatus)
  | downloadsGranted (digests : List ObjectDigest)
      (answer : Answer (List DownloadGrant))
  | downloaded (grant : DownloadGrant) (answer : Answer Bytes)
  deriving DecidableEq

/-- The remote behind its carrier: any answer to a call, as a function of the
calls before it, the newest first. -/
structure Transport where
  declare : List Event → Bytes → Option SnapshotId → Answer SyncPlan
  packGrants : List Event → Text → List PackClaim → Answer GrantsPlan
  uploadPack : List Event → PackGrant → Bytes → Answer Unit
  blobGrants : List Event → Text → List ObjectDigest →
    Answer (List BlobGrant)
  uploadBlobPart : List Event → BlobPart → Bytes → Answer Text
  reportBlobParts : List Event → Text → ObjectDigest →
    List BlobPartReport → Answer Unit
  complete : List Event → Text → Answer CompleteStatus
  downloadGrants : List Event → List ObjectDigest →
    Answer (List DownloadGrant)
  download : List Event → DownloadGrant → Answer Bytes

/-- The calls made so far, the reports, and the objects reported as progress;
each list has its newest entry first. -/
structure Wire where
  log : List Event := []
  report : PushReport := {}
  pulled : PullReport := {}
  progress : List Row := []

/-- A transfer in progress. -/
abbrev Transfer (α : Type) := Client Wire SyncError α

/-- One call: the answer, which the log keeps. -/
def call {α : Type} (ask : List Event → Answer α)
    (event : Answer α → Event) : Transfer (Answer α) := fun wire =>
  (.ok (ask wire.log), { wire with log := event (ask wire.log) :: wire.log })

/-- The `?` operator on an answer. -/
def orFail {α : Type} : Answer α → Transfer α
  | .ok a => pure a
  | .error error => Client.fail (.transport error)

/-- One object is accounted for. -/
def observe (row : Row) : Transfer Unit :=
  Client.update fun wire => { wire with progress := row :: wire.progress }

def count (f : PushReport → PushReport) : Transfer Unit :=
  Client.update fun wire => { wire with report := f wire.report }

def countPulled (f : PullReport → PullReport) : Transfer Unit :=
  Client.update fun wire => { wire with pulled := f wire.pulled }

end TensorFS.Sync
