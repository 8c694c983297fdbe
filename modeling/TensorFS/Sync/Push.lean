import TensorFS.Sync.Lanes
import TensorFS.Tfm1.Go

namespace TensorFS.Sync

open Data

/-! One push: declare, the blob lane, packs until nothing is missing, then
completion.  Every loop that goes on for as long as the remote seems to make
progress runs for at most `fuel` rounds. -/

def blobGrantBatch : Nat := 16

def lowercaseHex (bytes : Bytes) : Text := Go.hexEncode bytes

/-- What an upload's answer leads to: `none` where the grant has expired;
`retry` follows a carrier failure. -/
def settle {α : Type} (retry : Text → Transfer (Option α)) :
    Answer α → Transfer (Option α)
  | .ok a => pure (some a)
  | .error (.io detail) => retry detail
  | .error (.expired _) => pure none
  | .error error => Client.fail (.transport error)

/-- One envelope, with so many attempts to spare; `spent` counts those the
carrier has lost. -/
def attempt {α : Type} (ask : Transfer (Answer α))
    (exhausted : Nat → Text → SyncError) : Nat → Nat → Transfer (Option α)
  | 0, spent => do
      let answer ← ask
      settle (fun detail => Client.fail (exhausted (spent + 1) detail)) answer
  | spare + 1, spent => do
      let answer ← ask
      settle (fun _ => attempt ask exhausted spare (spent + 1)) answer

/-- Why one blob's upload stopped. -/
inductive BlobOutcome where
  | landed
  | expired
  deriving DecidableEq

/-- The sum of the granted part sizes, which wraps. -/
def grantedBytes (parts : List BlobPart) : UInt64 :=
  parts.foldl (fun sum part => sum + part.sizeBytes) 0

section

variable (transport : Transport) (disk : List Event → Disk)
  (sha256 : Bytes → Digest) (options : PushOptions) (session : Text)

/-- The attempts at one envelope after the first. -/
def PushOptions.spareAttempts (options : PushOptions) : Nat :=
  options.maxUploadAttempts.toNat - 1

/-- The local objects as they are now. -/
def local_ {α : Type} (f : Disk → Except SyncError α) : Transfer α := do
  let now ← Client.read fun wire => disk wire.log
  Client.orFail (f now)

def reportBlobParts (digest : ObjectDigest) (parts : List BlobPartReport) :
    Transfer Unit := do
  let answer ← call (transport.reportBlobParts · session digest parts)
    (.partsReported session digest parts)
  orFail answer

/-- Reports what landed, if anything did. -/
def reportLanded (digest : ObjectDigest) (landed : List BlobPartReport) :
    Transfer Unit :=
  if landed = [] then pure ()
  else reportBlobParts transport session digest landed

def uploadBlobPart (part : BlobPart) (bytes : Bytes) : Transfer (Answer Text) :=
  call (transport.uploadBlobPart · part bytes) (.partUploaded part bytes)

/-- The parts from `offset` on, skipping those the remote holds. -/
def pushParts (grant : BlobGrant) (length : UInt64) :
    List BlobPart → UInt64 → List BlobPartReport → Transfer BlobOutcome
  | [], _, landed => do
      reportLanded transport session grant.digest landed
      pure .landed
  | part :: parts, offset, landed =>
      if part.partNumber ∈ grant.uploadedParts then
        pushParts grant length parts (offset + part.sizeBytes) landed
      else do
        -- the buffer of a part is a vector
        Client.assert (part.sizeBytes.toNat < 2 ^ 63)
        let bytes ← local_ disk fun now =>
          readPart now grant.digest length offset.toNat part.sizeBytes.toNat
        let etag ← attempt (uploadBlobPart transport part bytes)
          (fun spent _ => .blobPartAttemptsExhausted grant.digest spent)
          options.spareAttempts 0
        match etag with
        | none => do
            reportLanded transport session grant.digest landed
            pure .expired
        | some etag => do
            count fun report =>
              { report with blobParts := report.blobParts + 1 }
            pushParts grant length parts (offset + part.sizeBytes)
              (landed ++ [⟨part.partNumber, etag⟩])

def pushOneBlob (grant : BlobGrant) (length : UInt64) :
    Transfer BlobOutcome := do
  Client.check (grant.length = length)
    (.missingLength grant.digest length grant.length)
  Client.check (grantedBytes grant.parts = length)
    (.blobPartCoverage grant.digest length (grantedBytes grant.parts))
  let bytes ← local_ disk fun now => openLocal now grant.digest
  Client.check (bytes.length = length.toNat)
    (.localObjectLength grant.digest length bytes.length)
  pushParts transport disk options session grant length grant.parts 0 []

/-- The blobs of one batch of grants; those whose lease ran out come back. -/
def pushBlobs (grants : List BlobGrant) : List Row → Transfer (List Row)
  | [] => pure []
  | row :: rows =>
      match grants.find? fun grant => grant.digest = row.1 with
      | none => Client.fail (.blobGrantOmitted row.1)
      | some grant => do
          let outcome ← pushOneBlob transport disk options session grant row.2
          match outcome with
          | .landed => do
              count fun report =>
                { report with
                  blobs := report.blobs + 1
                  uploadedObjects := report.uploadedObjects + 1
                  uploadedBytes := report.uploadedBytes + row.2.toNat }
              observe row
              pushBlobs grants rows
          | .expired => do
              let deferred ← pushBlobs grants rows
              pure (row :: deferred)

def pushBatch (batch : List Row) : Transfer (List Row) := do
  let answer ← call (transport.blobGrants · session (batch.map Prod.fst))
    (.blobsGranted session (batch.map Prod.fst))
  match answer with
  | .ok grants => pushBlobs transport disk options session grants batch
  | .error (.expired _) => pure batch
  | .error error => Client.fail (.transport error)

def pushBatches : List (List Row) → Transfer (List Row)
  | [] => pure []
  | batch :: batches => do
      let deferred ← pushBatch transport disk options session batch
      let rest ← pushBatches batches
      pure (deferred ++ rest)

/-- One more round that achieved nothing; enough of them is a failure. -/
def stall (limit : UInt32) (stalled : Nat) (error : Nat → SyncError) :
    Transfer Nat := do
  Client.check (stalled + 1 < limit.toNat) (error (stalled + 1))
  pure (stalled + 1)

/-- One round of the blob lane over what is pending. -/
def blobRound : List Row × Nat → Transfer ((List Row × Nat) ⊕ Unit)
  | (pending, stalled) =>
      if pending = [] then pure (.inr ())
      else do
        let before ← Client.read fun wire => wire.report.blobParts
        let deferred ← pushBatches transport disk options session
          (batches blobGrantBatch pending)
        count fun report => { report with replans := report.replans + 1 }
        let after ← Client.read fun wire => wire.report.blobParts
        if before < after ∨ deferred.length < pending.length then
          pure (.inl (deferred, 0))
        else do
          let stalled ← stall options.maxStalledReplans stalled fun rounds =>
            .replansStalled rounds deferred.length
          pure (.inl (deferred, stalled))

def pushBlobLane (fuel : Nat) (blobs : List Row) : Transfer Unit :=
  Client.rounds (blobRound transport disk options session) fuel (blobs, 0)

/-- The resume probe: grants for no claim. -/
def probe : Transfer GrantsPlan := do
  let answer ← call (transport.packGrants · session []) (.packsGranted session [])
  orFail answer

def packClaim (members : List Row) (encoded : Bytes) : PackClaim where
  sha256 := lowercaseHex (sha256 encoded).bytes
  sizeBytes := encoded.length
  objects := members.map Prod.fst

def uploadPack (grant : PackGrant) (encoded : Bytes) : Transfer (Answer Unit) :=
  call (transport.uploadPack · grant encoded) (.packUploaded grant encoded)

/-- One pack; `false` where a lease ran out. -/
def uploadGranted (members : List Row) (encoded : Bytes) (claim : PackClaim)
    (granted : GrantsPlan) : Transfer Bool :=
  match granted.grants.find? fun grant => grant.packSha256 = claim.sha256 with
  | none =>
      if granted.stagedPacks.any fun pack =>
          pack.sha256 = claim.sha256 && pack.staged then pure true
      else Client.fail (.packGrantOmitted claim.sha256)
  | some grant => do
      let landed ← attempt (uploadPack transport grant encoded)
        (fun _ detail => .transport (.io detail)) options.spareAttempts 0
      match landed with
      | none => pure false
      | some () => do
          count fun report =>
            { report with
              uploadedObjects := report.uploadedObjects + members.length
              uploadedBytes := report.uploadedBytes +
                (members.map fun row => row.2.toNat).sum
              packs := report.packs + 1 }
          members.forM observe
          pure true

def pushPack (members : List Row) : Transfer Bool := do
  let loaded ← local_ disk fun now => loadPackMembers now members
  let encoded ← Client.orFail
    ((Tfp1.encode sha256 loaded).mapError SyncError.pack)
  let claim := packClaim sha256 members encoded
  let answer ← call (transport.packGrants · session [claim])
    (.packsGranted session [claim])
  match answer with
  | .ok granted =>
      uploadGranted transport options members encoded claim granted
  | .error (.expired _) => pure false
  | .error error => Client.fail (.transport error)

/-- Pack after pack, up to the first whose lease ran out. -/
def pushPacks : List (List Row) → Transfer Unit
  | [] => pure ()
  | members :: groups => do
      let goOn ← pushPack transport disk sha256 options session members
      if goOn then pushPacks groups else pure ()

/-- One pass over the packs of what is missing, and the probe behind it. -/
def replanRound (closure : List Row) (maxPayload : UInt64) :
    List Row × Nat → Transfer ((List Row × Nat) ⊕ Unit)
  | (missing, stalled) =>
      if missing = [] then pure (.inr ())
      else do
        pushPacks transport disk sha256 options session
          (packGroups maxPayload missing)
        count fun report => { report with replans := report.replans + 1 }
        let refreshed ← probe transport session
        Client.orFail (verifyLanes closure refreshed.missing
          refreshed.missingBlobs maxPayload)
        if refreshed.missing.length < missing.length then
          pure (.inl (refreshed.missing, 0))
        else do
          let stalled ← stall options.maxStalledReplans stalled fun rounds =>
            .replansStalled rounds refreshed.missing.length
          pure (.inl (refreshed.missing, stalled))

/-- One `complete` call, with the objects admitted so far. -/
def completeRound :
    UInt64 × Nat → Transfer ((UInt64 × Nat) ⊕ Unit)
  | (admitted, stalls) => do
      count fun report =>
        { report with completeAttempts := report.completeAttempts + 1 }
      let answer ← call (transport.complete · session) (.completed session)
      match answer with
      | .ok .promoted => pure (.inr ())
      | .ok (.incomplete code promoted _) =>
          if admitted < promoted then pure (.inl (promoted, 0))
          else do
            let stalls ← stall options.maxCompletionStalls stalls fun stalls =>
              .completionStalled stalls admitted code
            pure (.inl (admitted, stalls))
      | .ok (.failed code) => Client.fail (.headRefused code)
      | .error (.io detail) => do
          let stalls ← stall options.maxCompletionStalls stalls fun _ =>
            .transport (.io detail)
          pure (.inl (admitted, stalls))
      | .error error => Client.fail (.transport error)

/-- The blob lane, the probe behind it, and what is then missing. -/
def pushLargeObjects (fuel : Nat) (closure : List Row) (maxPayload : UInt64)
    (missing missingBlobs : List Row) : Transfer (List Row) :=
  if missingBlobs = [] then pure missing
  else do
    pushBlobLane transport disk options session fuel missingBlobs
    let refreshed ← probe transport session
    Client.orFail (verifyLanes closure refreshed.missing
      refreshed.missingBlobs maxPayload)
    match refreshed.missingBlobs with
    | [] => pure refreshed.missing
    | row :: _ => Client.fail (.blobNotAccepted row.1)

end

section

variable (transport : Transport) (disk : List Event → Disk)
  (sha256 : Bytes → Digest) (options : PushOptions)

/-- The objects the remote already holds. -/
def observeResident (closure : List Row) (held : List ObjectDigest) :
    Transfer Unit :=
  (held.filterMap fun digest => closure.find? fun row => row.1 = digest).forM
    observe

def completePush (fuel : Nat) (session : Text) : Transfer PushReport := do
  Client.rounds (completeRound transport options session) fuel (0, 0)
  Client.read Wire.report

/-- Packs until nothing is missing, then completion. -/
def pushMissing (fuel : Nat) (session : Text) (closure : List Row)
    (maxPayload : UInt64) (missing : List Row) : Transfer PushReport := do
  Client.rounds (replanRound transport disk sha256 options session closure
    maxPayload) fuel (missing, 0)
  completePush transport options fuel session

/-- Both lanes of an accepted declaration. -/
def pushLanes (fuel : Nat) (closure : List Row) (plan : SyncPlan) :
    Transfer PushReport := do
  let maxPayload := payloadBound plan.maxPackPayload
  Client.orFail (verifyLanes closure plan.missing plan.missingBlobs maxPayload)
  let missing ← pushLargeObjects transport disk options plan.session fuel
    closure maxPayload plan.missing plan.missingBlobs
  pushMissing transport disk sha256 options fuel plan.session closure
    maxPayload missing

/-- Everything behind an accepted declaration. -/
def pushDeclared (fuel : Nat) (closure : List Row) (plan : SyncPlan) :
    Transfer PushReport := do
  count fun report =>
    { report with skippedRemoteResident := plan.have_.length }
  observeResident closure plan.have_
  pushLanes transport disk sha256 options fuel closure plan

/-- `acquired` is the snapshot that the pending-sync lease returned. -/
def pushSnapshot (fuel : Nat) (snapshot : SnapshotId)
    (expectedHead : Option SnapshotId)
    (acquired : Outcome Snapshot) :
    Transfer PushReport := do
  let decoded ← Client.orFail (acquired.mapError SyncError.workspace)
  let answer ← call (transport.declare · decoded.toBytes expectedHead)
    (.declared decoded.toBytes expectedHead)
  let plan ← orFail answer
  Client.check (plan.snapshotId = snapshot)
    (.identityMismatch snapshot plan.snapshotId)
  pushDeclared transport disk sha256 options fuel (dataClosure decoded) plan

end

end TensorFS.Sync
