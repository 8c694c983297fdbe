import TensorFS.Sync.Lanes

namespace TensorFS.Sync

open Data

/-! One pull: the manifest, every object the store lacks, then adoption. -/

def downloadGrantBatch : Nat := 256

/-- Tries for each object. -/
def downloadAttempts : Nat := 4

/-- The local store and metadata that a pull works on, as they answer between
its calls. -/
structure Shelf where
  loadSnapshot : SnapshotId → Outcome Snapshot
  exists_ : ObjectDigest → Bool
  writer : List Event → Except StoreError Unit
  install : List Event → Bytes → Except StoreError Unit
  adoptSnapshot : List Event → Bytes → Outcome Unit

section

variable (transport : Transport) (shelf : Shelf) (U : Unicode)
  (sha256 : Bytes → Digest)

/-- A store operation, on what the store is now. -/
def storing {α : Type} (f : List Event → Except StoreError α) : Transfer α := do
  let log ← Client.read Wire.log
  Client.orFail ((f log).mapError SyncError.store)

/-- The check of the verifying writer. -/
def finishExpecting (grant : DownloadGrant) (bytes : Bytes) :
    Except StoreError Unit := do
  ensure (bytes.length = grant.length.toNat)
    (.lengthMismatch grant.length bytes.length)
  ensure (sha256 bytes = grant.digest)
    (.digestMismatch grant.digest (sha256 bytes))

def downloadGrants (digests : List ObjectDigest) :
    Transfer (List DownloadGrant) := do
  let answer ← call (transport.downloadGrants · digests)
    (.downloadsGranted digests)
  orFail answer

def download (grant : DownloadGrant) : Transfer (Answer Bytes) :=
  call (transport.download · grant) (.downloaded grant)

def findGrant (grants : List DownloadGrant) (digest : ObjectDigest) :
    Transfer DownloadGrant :=
  match grants.find? fun grant => grant.digest = digest with
  | none => Client.fail (.grantOmitted digest)
  | some grant => pure grant

/-- What a download's answer leads to; `retry` follows a carrier failure. -/
def admitAnswer (grant : DownloadGrant) (retry : Text → Transfer Unit) :
    Answer Bytes → Transfer Unit
  | .ok bytes => do
      storing fun _ => finishExpecting sha256 grant bytes
      storing fun log => shelf.install log bytes
  | .error (.io detail) => retry detail
  | .error error => Client.fail (.transport error)

/-- One object into a fresh writer, with so many tries to spare. -/
def downloadAndAdmit (grant : DownloadGrant) : Nat → Transfer Unit
  | 0 => do
      storing shelf.writer
      let answer ← download transport grant
      admitAnswer shelf sha256 grant
        (fun detail => Client.fail (.transport (.io detail))) answer
  | spare + 1 => do
      storing shelf.writer
      let answer ← download transport grant
      admitAnswer shelf sha256 grant (fun _ => downloadAndAdmit grant spare) answer

def fetchManifest (id : SnapshotId) : Transfer Bytes := do
  let grants ← downloadGrants transport [id]
  let grant ← findGrant grants id
  let answer ← download transport grant
  let bytes ← orFail answer
  Client.check (sha256 bytes = id) (.remoteManifestCorrupt id)
  pure bytes

def loadManifest (id : SnapshotId) : Transfer Bytes :=
  match shelf.loadSnapshot id with
  | .ok snapshot => pure snapshot.toBytes
  | .error (.refused (.unknownSnapshot _)) => fetchManifest transport sha256 id
  | .error error => Client.fail (.workspace error)

/-- An object the store holds. -/
def observePresent (row : Row) : Transfer Unit := do
  countPulled fun report =>
    { report with skippedLocalResident := report.skippedLocalResident + 1 }
  observe row

def fetchObject (grants : List DownloadGrant) (row : Row) :
    Transfer Unit := do
  let grant ← findGrant grants row.1
  downloadAndAdmit transport shelf sha256 grant (downloadAttempts - 1)
  countPulled fun report =>
    { report with
      fetchedObjects := report.fetchedObjects + 1
      fetchedBytes := report.fetchedBytes + row.2.toNat }
  observe row

def fetchBatch (batch : List Row) : Transfer Unit := do
  let grants ← downloadGrants transport (batch.map Prod.fst)
  batch.forM (fetchObject transport shelf sha256 grants)

def pullSnapshot (id : SnapshotId) : Transfer PullReport := do
  let tfm1Bytes ← loadManifest transport shelf sha256 id
  let snapshot ← Client.orFail ((decode U tfm1Bytes).mapError SyncError.manifest)
  let closure := dataClosure snapshot
  (closure.filter fun row => shelf.exists_ row.1).forM observePresent
  let missing := closure.filter fun row => !shelf.exists_ row.1
  (batches downloadGrantBatch missing).forM (fetchBatch transport shelf sha256)
  let log ← Client.read Wire.log
  Client.orFail ((shelf.adoptSnapshot log tfm1Bytes).mapError
    SyncError.workspace)
  Client.read Wire.pulled

end

end TensorFS.Sync
