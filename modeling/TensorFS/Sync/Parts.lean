import TensorFS.Data.Assembly
import TensorFS.Sync.Expiry

namespace TensorFS.Sync

open Data

/-! What the parts of one blob's upload carry, and what a store that puts them
together by part number is left with. -/

/-- The number and size of each part. -/
def partSizes (parts : List BlobPart) : List (Nat × Nat) :=
  parts.map fun part => (part.partNumber.toNat, part.sizeBytes.toNat)

/-- The granted part sizes, summed as natural numbers. -/
def naturalBytes (parts : List BlobPart) : Nat := extent (partSizes parts)

/-- What a landed part leaves in the store. -/
def landedBlock : Event → Option (Nat × Bytes)
  | .partUploaded part bytes (.ok _) => some (part.partNumber.toNat, bytes)
  | _ => none

/-- The object the store is left with; the calls stand in the order made. -/
def stored (calls : List Event) : Bytes := assemble (calls.filterMap landedBlock)

/-- The bytes of the object that one of the parts stands for. -/
def Carries (object : Bytes) (parts : List BlobPart) (part : BlobPart)
    (bytes : Bytes) : Prop :=
  ∃ front back, parts = front ++ part :: back ∧
    bytes = (object.drop (naturalBytes front)).take part.sizeBytes.toNat

/-- The local file of an object, where it can be read, holds the object. -/
def Holds (disk : List Event → Disk) (digest : ObjectDigest) (object : Bytes) :
    Prop :=
  ∀ log bytes, disk log digest = .ok bytes → bytes = object

/-- Whatever the remote answers, the parts are cut from the object, and they
make up the object. -/
def Assembles (grant : BlobGrant) (length : UInt64) : Prop :=
  ∀ transport disk options session object wire result wire' calls,
    Holds disk grant.digest object →
    pushOneBlob transport disk options session grant length wire =
      (result, wire') →
    wire'.log = calls.reverse ++ wire.log →
    (∀ part bytes answer, .partUploaded part bytes answer ∈ calls →
      naturalBytes grant.parts = object.length ∧
        Carries object grant.parts part bytes) ∧
    (result = .ok .landed → grant.uploadedParts = [] →
      stored calls = object)

/-- The first part the remote does not hold lies inside the object and fits a
vector. -/
def leadFits (grant : BlobGrant) (length : UInt64) :
    List BlobPart → UInt64 → Bool
  | [], _ => false
  | part :: parts, offset =>
      if part.partNumber ∈ grant.uploadedParts then
        leadFits grant length parts (offset + part.sizeBytes)
      else decide (part.sizeBytes.toNat < 2 ^ 63 ∧
        offset.toNat + part.sizeBytes.toNat ≤ length.toNat)

/-- Where parts are sent at all, the sum of their sizes does not wrap, and
where all are, their numbers follow their order. -/
def PartsCover (grant : BlobGrant) (length : UInt64) : Prop :=
  grant.length = length → grantedBytes grant.parts = length →
    leadFits grant length grant.parts 0 = true →
      naturalBytes grant.parts = length.toNat ∧
        (grant.uploadedParts = [] →
          (∀ part ∈ grant.parts, part.sizeBytes.toNat < 2 ^ 63) →
            Sequenced (partSizes grant.parts))

/-! The calls of a run. -/

/-- The calls that `m` makes from `wire` on, in the order made. -/
def Makes {α : Type} (m : Transfer α) (wire : Wire)
    (post : Except (Stop SyncError) α → List Event → Prop) : Prop :=
  ∃ calls, (m wire).2.log = calls.reverse ++ wire.log ∧ post (m wire).1 calls

section

variable {α β : Type} {m : Transfer α} {wire : Wire}
  {post : Except (Stop SyncError) α → List Event → Prop}

theorem Makes.imp {weaker : Except (Stop SyncError) α → List Event → Prop}
    (h : Makes m wire post)
    (himp : ∀ result calls, post result calls → weaker result calls) :
    Makes m wire weaker := by
  obtain ⟨calls, hlog, hpost⟩ := h
  exact ⟨calls, hlog, himp _ _ hpost⟩

/-- A part without calls. -/
theorem Makes.silent (h : (m wire).2.log = wire.log)
    (hpost : post (m wire).1 []) : Makes m wire post := ⟨[], h, hpost⟩

theorem Makes.bind {f : α → Transfer β}
    {last : Except (Stop SyncError) β → List Event → Prop}
    (hm : Makes m wire post)
    (herror : ∀ stop calls, post (.error stop) calls → last (.error stop) calls)
    (hf : ∀ a wire' calls, post (.ok a) calls →
      Makes (f a) wire' fun result more => last result (calls ++ more)) :
    Makes (m >>= f) wire last := by
  obtain ⟨calls, hlog, hpost⟩ := hm
  unfold Makes
  rw [Client.bind_run]
  cases hrun : m wire with
  | mk result middle =>
      rw [hrun] at hlog hpost
      cases result with
      | error stop => exact ⟨calls, hlog, herror stop calls hpost⟩
      | ok a =>
          obtain ⟨more, hmore, hlast⟩ := hf a middle calls hpost
          refine ⟨calls ++ more, ?_, hlast⟩
          dsimp only at hmore hlog ⊢
          rw [hmore, hlog, List.reverse_append, List.append_assoc]

theorem Makes.unique {result : Except (Stop SyncError) α} {wire' : Wire}
    {calls : List Event} (h : Makes m wire post) (hrun : m wire = (result, wire'))
    (hlog : wire'.log = calls.reverse ++ wire.log) : post result calls := by
  obtain ⟨found, hfound, hpost⟩ := h
  rw [hrun] at hfound hpost
  dsimp only at hfound hpost
  rw [hlog] at hfound
  have hsame := List.reverse_injective (List.append_cancel_right hfound)
  rwa [hsame]

end

section

variable {transport : Transport} {disk : List Event → Disk}
  {options : PushOptions} {session : Text}

theorem makes_assert {p : Prop} [Decidable p] {wire : Wire} :
    Makes (Client.assert p) wire fun result calls =>
      calls = [] ∧ ∀ u, result = .ok u → p := by
  by_cases h : p
  · exact .silent (by rw [Client.assert_of wire h]) ⟨rfl, fun _ _ => h⟩
  · refine .silent (by rw [Client.assert_of_not wire h]) ⟨rfl, ?_⟩
    rw [Client.assert_of_not wire h]
    exact fun u hok => by cases hok

/-- A local step reads the disk and makes no call. -/
theorem makes_local {α : Type} {f : Disk → Except SyncError α} {wire : Wire} :
    Makes (local_ disk f) wire fun result calls =>
      calls = [] ∧ ∀ a, result = .ok a → f (disk wire.log) = .ok a := by
  have hrun : local_ disk f wire =
      Client.orFail (f (disk wire.log)) wire := rfl
  unfold Makes
  rw [hrun]
  cases hf : f (disk wire.log) with
  | error error => exact ⟨[], rfl, rfl, fun a h => by cases h⟩
  | ok a => exact ⟨[], rfl, rfl, fun b h => by cases h; rfl⟩

/-- No part is uploaded. -/
def Quiet (calls : List Event) : Prop :=
  ∀ part bytes answer, Event.partUploaded part bytes answer ∉ calls

theorem Quiet.landed {calls : List Event} (h : Quiet calls) :
    calls.filterMap landedBlock = [] := by
  rw [List.filterMap_eq_nil_iff]
  intro event hevent
  cases event with
  | partUploaded part bytes answer => exact absurd hevent (h part bytes answer)
  | _ => rfl

theorem makes_reportLanded (digest : ObjectDigest)
    (landed : List BlobPartReport) (wire : Wire) :
    Makes (reportLanded transport session digest landed) wire
      fun _ calls => Quiet calls := by
  unfold reportLanded
  split
  · exact ⟨[], rfl, fun _ _ _ h => by cases h⟩
  · unfold reportBlobParts
    refine ⟨[.partsReported session digest landed
      (transport.reportBlobParts wire.log session digest landed)], ?_, ?_⟩
    · rw [Client.bind_run]
      dsimp only [call]
      cases transport.reportBlobParts wire.log session digest landed with
      | ok u => rfl
      | error error => rfl
    · intro part bytes answer hmem
      rw [List.mem_singleton] at hmem
      cases hmem

theorem makes_uploadBlobPart (part : BlobPart) (bytes : Bytes) (wire : Wire) :
    Makes (uploadBlobPart transport part bytes) wire fun result calls =>
      ∃ answer, result = .ok answer ∧
        calls = [.partUploaded part bytes answer] :=
  ⟨[.partUploaded part bytes (transport.uploadBlobPart wire.log part bytes)],
    rfl, _, rfl, rfl⟩

/-- What one envelope's attempts are: the same bytes each time, and one that
lands where a tag comes back. -/
def Attempts (part : BlobPart) (bytes : Bytes)
    (result : Except (Stop SyncError) (Option Text)) (calls : List Event) :
    Prop :=
  (∀ event ∈ calls, ∃ answer, event = .partUploaded part bytes answer) ∧
    ∀ etag, result = .ok (some etag) →
      calls.filterMap landedBlock = [(part.partNumber.toNat, bytes)]

theorem Attempts.lost {part : BlobPart} {bytes : Bytes}
    {result : Except (Stop SyncError) (Option Text)} {calls : List Event}
    (detail : Text) (h : Attempts part bytes result calls) :
    Attempts part bytes result
      ([.partUploaded part bytes (.error (.io detail))] ++ calls) := by
  obtain ⟨hall, hlands⟩ := h
  refine ⟨?_, hlands⟩
  intro event hevent
  rcases List.mem_cons.mp hevent with rfl | hevent
  · exact ⟨_, rfl⟩
  · exact hall event hevent

theorem makes_settle {part : BlobPart} {bytes : Bytes}
    {retry : Text → Transfer (Option Text)} {wire : Wire} {answer : Answer Text}
    (hretry : ∀ detail, Makes (retry detail) wire (Attempts part bytes)) :
    Makes (settle retry answer) wire fun result more =>
      Attempts part bytes result ([.partUploaded part bytes answer] ++ more) := by
  have hsame : ∀ event ∈ [Event.partUploaded part bytes answer],
      ∃ answer, event = .partUploaded part bytes answer := by
    intro event hevent
    exact ⟨answer, List.mem_singleton.mp hevent⟩
  match answer with
  | .ok etag => exact .silent rfl ⟨hsame, fun _ _ => rfl⟩
  | .error (.expired detail) =>
      refine .silent rfl ⟨hsame, fun etag h => ?_⟩
      cases h
  | .error (.io detail) =>
      exact (hretry detail).imp fun _ _ h => h.lost detail
  | .error (.refused code detail) =>
      refine .silent rfl ⟨hsame, fun etag h => ?_⟩
      cases h

theorem makes_attempt (part : BlobPart) (bytes : Bytes)
    (exhausted : Nat → Text → SyncError) (spare spent : Nat) (wire : Wire) :
    Makes (attempt (uploadBlobPart transport part bytes) exhausted spare spent)
      wire (Attempts part bytes) := by
  induction spare generalizing spent wire with
  | zero =>
      refine (makes_uploadBlobPart part bytes wire).bind ?_ ?_
      · rintro stop calls ⟨answer, h, -⟩
        cases h
      · rintro answer wire' calls ⟨found, hfound, rfl⟩
        cases hfound
        refine makes_settle fun detail => .silent rfl ⟨?_, ?_⟩
        · exact fun event h => by cases h
        · exact fun etag h => by cases h
  | succ spare ih =>
      refine (makes_uploadBlobPart part bytes wire).bind ?_ ?_
      · rintro stop calls ⟨answer, h, -⟩
        cases h
      · rintro answer wire' calls ⟨found, hfound, rfl⟩
        cases hfound
        exact makes_settle fun detail => ih (spent + 1) wire'

end

/-! The parts of a grant whose sizes do not wrap. -/

theorem naturalBytes_cons (part : BlobPart) (parts : List BlobPart) :
    naturalBytes (part :: parts) =
      part.sizeBytes.toNat + naturalBytes parts := extent_cons _ _

theorem naturalBytes_append (front back : List BlobPart) :
    naturalBytes (front ++ back) = naturalBytes front + naturalBytes back := by
  induction front with
  | nil => simp [naturalBytes, partSizes, extent]
  | cons part front ih =>
      rw [List.cons_append, naturalBytes_cons, naturalBytes_cons, ih]
      omega

/-- What is sent of the parts behind `front`. -/
def Sends (grant : BlobGrant) (object : Bytes) (front parts : List BlobPart)
    (result : Except (Stop SyncError) BlobOutcome) (calls : List Event) :
    Prop :=
  (∀ part bytes answer, .partUploaded part bytes answer ∈ calls →
    Carries object (front ++ parts) part bytes) ∧
  (result = .ok .landed → grant.uploadedParts = [] →
    (∀ part ∈ parts, part.sizeBytes.toNat < 2 ^ 63) ∧
      calls.filterMap landedBlock =
        cut object (naturalBytes front) (partSizes parts))

section

variable {transport : Transport} {disk : List Event → Disk}
  {options : PushOptions} {session : Text}

theorem readPart_eq_ok {now : Disk} {digest : ObjectDigest} {object : Bytes}
    {length : UInt64} {start take : Nat} {bytes : Bytes}
    (hobject : object.length = length.toNat)
    (hholds : ∀ found, now digest = .ok found → found = object)
    (h : readPart now digest length start take = .ok bytes) :
    start + take ≤ length.toNat ∧ bytes = (object.drop start).take take := by
  unfold readPart at h
  split at h
  · cases h
  split at h
  · rename_i hover hnone
    cases h
    refine ⟨by omega, ?_⟩
    rcases hnone with hend | hzero
    · rw [List.drop_eq_nil_of_le (by omega), List.take_nil]
    · rw [show take = 0 by omega, List.take_zero]
  · rename_i hover _
    split at h
    · cases h
    · rename_i found hfound
      split at h
      · cases h
        rw [hholds found hfound]
        exact ⟨by omega, rfl⟩
      · cases h

theorem pushParts_sends {grant : BlobGrant} {length : UInt64} {object : Bytes}
    (hobject : object.length = length.toNat)
    (hholds : Holds disk grant.digest object)
    {front parts : List BlobPart} {offset : UInt64}
    {landed : List BlobPartReport} (wire : Wire)
    (hoffset : offset.toNat = naturalBytes front)
    (hfits : naturalBytes (front ++ parts) < 2 ^ 64) :
    Makes (pushParts transport disk options session grant length parts offset
      landed) wire (Sends grant object front parts) := by
  induction parts generalizing front offset landed wire with
  | nil =>
      refine (makes_reportLanded _ landed wire).bind ?_ ?_
      · exact fun stop calls hquiet =>
          ⟨fun part bytes answer h => absurd h (hquiet part bytes answer),
            fun h => by cases h⟩
      · intro u wire' calls hquiet
        refine .silent rfl ⟨fun part bytes answer h => ?_, fun _ _ => ?_⟩
        · rw [List.append_nil] at h
          exact absurd h (hquiet part bytes answer)
        · rw [List.append_nil, hquiet.landed]
          exact ⟨fun part hpart => absurd hpart List.not_mem_nil, rfl⟩
  | cons part parts ih =>
      have hmiddle : front ++ part :: parts = (front ++ [part]) ++ parts := by
        simp
      have hnext : (offset + part.sizeBytes).toNat =
          naturalBytes (front ++ [part]) := by
        rw [hmiddle, naturalBytes_append] at hfits
        rw [naturalBytes_append] at hfits ⊢
        have hone : naturalBytes [part] = part.sizeBytes.toNat := by
          simp [naturalBytes, partSizes, extent]
        rw [hone] at hfits ⊢
        rw [UInt64.toNat_add, hoffset, Nat.mod_eq_of_lt (by omega)]
      rw [hmiddle] at hfits
      rw [pushParts]
      split
      · rename_i hskip
        refine (ih wire hnext hfits).imp ?_
        rintro result calls ⟨hcarries, -⟩
        refine ⟨?_, fun _ hnone => ?_⟩
        · rw [hmiddle]
          exact hcarries
        · rw [hnone] at hskip
          cases hskip
      · have hcarries : ∀ bytes, bytes =
            (object.drop offset.toNat).take part.sizeBytes.toNat →
              Carries object (front ++ part :: parts) part bytes :=
          fun bytes hbytes => ⟨front, parts, rfl, by rw [hbytes, hoffset]⟩
        refine makes_assert.bind ?_ ?_
        · rintro stop calls ⟨rfl, -⟩
          exact ⟨fun _ _ _ h => (by cases h), fun h => by cases h⟩
        rintro u wire calls ⟨rfl, hsize⟩
        refine makes_local.bind ?_ ?_
        · rintro stop calls ⟨rfl, -⟩
          exact ⟨fun _ _ _ h => (by cases h), fun h => by cases h⟩
        rintro bytes middle calls ⟨rfl, hread⟩
        obtain ⟨-, hbytes⟩ := readPart_eq_ok hobject (hholds _) (hread bytes rfl)
        refine (makes_attempt part bytes _ _ _ middle).bind ?_ ?_
        · rintro stop calls ⟨hall, -⟩
          refine ⟨fun found sent answer h => ?_, fun h => by cases h⟩
          obtain ⟨_, hevent⟩ := hall _ h
          cases hevent
          exact hcarries bytes hbytes
        rintro etag middle calls ⟨hall, hlands⟩
        have hsent : ∀ found sent answer,
            .partUploaded found sent answer ∈ calls →
              Carries object (front ++ part :: parts) found sent := by
          intro found sent answer h
          obtain ⟨_, hevent⟩ := hall _ h
          cases hevent
          exact hcarries bytes hbytes
        cases etag with
        | none =>
            refine (makes_reportLanded _ landed middle).bind ?_ ?_
            · intro stop more hquiet
              refine ⟨fun found sent answer h => ?_, fun h => by cases h⟩
              simp only [List.nil_append, List.mem_append] at h
              exact h.elim (hsent found sent answer) fun h =>
                absurd h (hquiet found sent answer)
            · intro u last more hquiet
              refine .silent rfl ⟨fun found sent answer h => ?_, fun h => by cases h⟩
              simp only [List.nil_append, List.append_nil, List.mem_append] at h
              exact h.elim (hsent found sent answer) fun h =>
                absurd h (hquiet found sent answer)
        | some etag =>
            have hcount : Makes (count fun report =>
                { report with blobParts := report.blobParts + 1 }) middle
                  fun result more => result = .ok () ∧ more = [] :=
              ⟨[], rfl, rfl, rfl⟩
            refine hcount.bind ?_ ?_
            · rintro stop more ⟨h, -⟩
              cases h
            rintro u last more ⟨-, rfl⟩
            refine (ih last hnext hfits).imp ?_
            intro result more h
            obtain ⟨hrest, hlanded⟩ := h
            refine ⟨fun found sent answer h => ?_, fun hok hnone => ?_⟩
            · simp only [List.nil_append, List.mem_append] at h
              rcases h with h | h
              · exact hsent found sent answer h
              · rw [hmiddle]
                exact hrest found sent answer h
            · obtain ⟨hsmall, hcut⟩ := hlanded hok hnone
              refine ⟨List.forall_mem_cons.mpr ⟨hsize u rfl, hsmall⟩, ?_⟩
              have hone : naturalBytes [part] = part.sizeBytes.toNat := by
                simp [naturalBytes, partSizes, extent]
              rw [naturalBytes_append, hone] at hcut
              simp only [List.nil_append, List.filterMap_append,
                hlands etag rfl, hcut, hbytes, hoffset]
              rfl

/-- Where the first part to be sent is not inside the object, none is. -/
theorem pushParts_quiet {grant : BlobGrant} {length : UInt64} {object : Bytes}
    (hobject : object.length = length.toNat)
    (hholds : Holds disk grant.digest object)
    {parts : List BlobPart} {offset : UInt64} {landed : List BlobPartReport}
    (wire : Wire) (hlead : leadFits grant length parts offset = false) :
    Makes (pushParts transport disk options session grant length parts offset
      landed) wire fun result calls =>
        Quiet calls ∧ (result = .ok .landed →
          ∀ part ∈ parts, part.partNumber ∈ grant.uploadedParts) := by
  induction parts generalizing offset with
  | nil =>
      refine (makes_reportLanded _ landed wire).bind ?_ ?_
      · exact fun stop calls hquiet => ⟨hquiet, fun h => by cases h⟩
      · intro u wire' calls hquiet
        refine .silent rfl ⟨?_, fun _ part hpart => by cases hpart⟩
        rwa [List.append_nil]
  | cons part parts ih =>
      rw [leadFits] at hlead
      rw [pushParts]
      split
      · rename_i hskip
        rw [if_pos hskip] at hlead
        refine (ih hlead).imp ?_
        intro result calls h
        obtain ⟨hquiet, hheld⟩ := h
        refine ⟨hquiet, fun hok other hother => ?_⟩
        rcases List.mem_cons.mp hother with rfl | hother
        · exact hskip
        · exact hheld hok other hother
      · rename_i hsend
        rw [if_neg hsend] at hlead
        refine makes_assert.bind ?_ ?_
        · rintro stop calls ⟨rfl, -⟩
          exact ⟨fun _ _ _ h => (by cases h), fun h => by cases h⟩
        rintro u wire calls ⟨rfl, hsize⟩
        refine makes_local.bind ?_ ?_
        · rintro stop calls ⟨rfl, -⟩
          exact ⟨fun _ _ _ h => (by cases h), fun h => by cases h⟩
        · rintro bytes middle calls ⟨rfl, hread⟩
          obtain ⟨hfits, -⟩ :=
            readPart_eq_ok hobject (hholds _) (hread bytes rfl)
          exact absurd ⟨hsize u rfl, hfits⟩ (of_decide_eq_false hlead)

/-- Where the checks pass, a run is that of the parts. -/
theorem pushOneBlob_run {grant : BlobGrant} {length : UInt64} {object : Bytes}
    {wire : Wire} (hgranted : grant.length = length)
    (hcovers : grantedBytes grant.parts = length)
    (hobject : object.length = length.toNat)
    (hopen : disk wire.log grant.digest = .ok object) :
    pushOneBlob transport disk options session grant length wire =
      pushParts transport disk options session grant length grant.parts 0 []
        wire := by
  have hlocal : local_ disk (fun now => openLocal now grant.digest) wire =
      (.ok object, wire) := by
    have hrun : local_ disk (fun now => openLocal now grant.digest) wire =
        Client.orFail (openLocal (disk wire.log) grant.digest) wire := rfl
    rw [hrun, openLocal, hopen]
    rfl
  unfold pushOneBlob
  rw [Client.bind_of_ok (Client.check_of _ _ hgranted),
    Client.bind_of_ok (Client.check_of _ _ hcovers),
    Client.bind_of_ok hlocal, Client.bind_of_ok (Client.check_of _ _ hobject)]

/-- Where one of the checks fails, nothing is sent. -/
theorem pushOneBlob_refused {grant : BlobGrant} {length : UInt64}
    {object : Bytes} {wire : Wire} (hholds : Holds disk grant.digest object)
    (h : ¬ (grant.length = length ∧ grantedBytes grant.parts = length ∧
      disk wire.log grant.digest = .ok object ∧
      object.length = length.toNat)) :
    ∃ error, pushOneBlob transport disk options session grant length wire =
      (.error (.failed error), wire) := by
  unfold pushOneBlob
  by_cases hgranted : grant.length = length
  · rw [Client.bind_of_ok (Client.check_of _ _ hgranted)]
    by_cases hcovers : grantedBytes grant.parts = length
    · rw [Client.bind_of_ok (Client.check_of _ _ hcovers)]
      have hrun : local_ disk (fun now => openLocal now grant.digest) wire =
          Client.orFail (openLocal (disk wire.log) grant.digest) wire := rfl
      cases hopen : disk wire.log grant.digest with
      | error error =>
          rw [openLocal, hopen] at hrun
          rw [Client.bind_of_error hrun]
          exact ⟨_, rfl⟩
      | ok found =>
          have hfound := hholds wire.log found hopen
          subst hfound
          have hlength : ¬ found.length = length.toNat :=
            fun hlength => h ⟨hgranted, hcovers, hopen, hlength⟩
          rw [openLocal, hopen] at hrun
          rw [Client.bind_of_ok hrun,
            Client.bind_of_error (Client.check_of_not _ _ hlength)]
          exact ⟨_, rfl⟩
    · rw [Client.bind_of_error (Client.check_of_not _ _ hcovers)]
      exact ⟨_, rfl⟩
  · rw [Client.bind_of_error (Client.check_of_not _ _ hgranted)]
    exact ⟨_, rfl⟩

end

/-! A remote that takes every part. -/

def obliging : Transport where
  declare _ _ _ := .error (.io [])
  packGrants _ _ _ := .error (.io [])
  uploadPack _ _ _ := .error (.io [])
  blobGrants _ _ _ := .error (.io [])
  uploadBlobPart _ _ _ := .ok []
  reportBlobParts _ _ _ _ := .ok ()
  complete _ _ := .error (.io [])
  downloadGrants _ _ := .error (.io [])
  download _ _ := .error (.io [])

def holding (object : Bytes) : List Event → Disk := fun _ _ => .ok object

section

variable {options : PushOptions} {session : Text}

theorem attempt_obliging (part : BlobPart) (bytes : Bytes)
    (exhausted : Nat → Text → SyncError) (spare spent : Nat) (wire : Wire) :
    attempt (uploadBlobPart obliging part bytes) exhausted spare spent wire =
      (.ok (some []),
        { wire with log := .partUploaded part bytes (.ok []) :: wire.log }) := by
  cases spare with
  | zero => rfl
  | succ spare => rfl

theorem local_holding (grant : BlobGrant) {object : Bytes} {length : UInt64}
    (hobject : object.length = length.toNat) {start take : Nat}
    (hfits : start + take ≤ length.toNat) (wire : Wire) :
    ∃ bytes, local_ (holding object)
      (fun now => readPart now grant.digest length start take) wire =
        (.ok bytes, wire) := by
  have hread : ∃ bytes, readPart (holding object wire.log) grant.digest length
      start take = .ok bytes := by
    unfold readPart
    rw [if_neg (by omega)]
    split
    · exact ⟨_, rfl⟩
    · simp only [holding]
      rw [if_pos (by omega)]
      exact ⟨_, rfl⟩
  obtain ⟨bytes, hbytes⟩ := hread
  refine ⟨bytes, ?_⟩
  have hrun : local_ (holding object) (fun now =>
      readPart now grant.digest length start take) wire =
        Client.orFail (readPart (holding object wire.log) grant.digest length
          start take) wire := rfl
  rw [hrun, hbytes]
  rfl

theorem reportLanded_obliging (digest : ObjectDigest)
    (landed : List BlobPartReport) (wire : Wire) :
    ∃ wire', reportLanded obliging session digest landed wire =
      (.ok (), wire') := by
  unfold reportLanded
  split
  · exact ⟨wire, rfl⟩
  · exact ⟨_, rfl⟩

/-- A part that can be sent is sent. -/
theorem pushParts_obliging_sends {grant : BlobGrant} {length : UInt64}
    {object : Bytes} (hobject : object.length = length.toNat)
    {parts : List BlobPart} {offset : UInt64} {landed : List BlobPartReport}
    (wire : Wire) (hlead : leadFits grant length parts offset = true) :
    Makes (pushParts obliging (holding object) options session grant length
      parts offset landed) wire fun _ calls => ¬ Quiet calls := by
  induction parts generalizing offset with
  | nil => cases hlead
  | cons part parts ih =>
      rw [leadFits] at hlead
      rw [pushParts]
      split
      · rename_i hskip
        rw [if_pos hskip] at hlead
        exact ih hlead
      · rename_i hsend
        rw [if_neg hsend] at hlead
        obtain ⟨hsize, hinside⟩ := of_decide_eq_true hlead
        obtain ⟨bytes, hlocal⟩ := local_holding grant hobject hinside wire
        have hattempt := attempt_obliging part bytes
          (fun spent _ => .blobPartAttemptsExhausted grant.digest spent)
          options.spareAttempts 0 wire
        unfold Makes
        rw [Client.bind_of_ok (Client.assert_of wire hsize),
          Client.bind_of_ok hlocal, Client.bind_of_ok hattempt]
        dsimp only
        have hrest : Honest (pushParts obliging (holding object) options
            session grant length parts (offset + part.sizeBytes)
            (landed ++ [⟨part.partNumber, []⟩])) := pushParts_honest _ _ _ _ _
        obtain ⟨calls, hlog, -⟩ := ((honest_count fun report =>
          { report with blobParts := report.blobParts + 1 }).bind
            fun _ => hrest)
          { wire with log := .partUploaded part bytes (.ok []) :: wire.log }
        refine ⟨.partUploaded part bytes (.ok []) :: calls.reverse, ?_, ?_⟩
        · rw [hlog]
          simp
        · intro hquiet
          exact hquiet part bytes (.ok []) List.mem_cons_self

/-- Parts that cover the object all land. -/
theorem pushParts_obliging_lands {grant : BlobGrant} {length : UInt64}
    {object : Bytes} (hobject : object.length = length.toNat)
    (hnone : grant.uploadedParts = []) {parts : List BlobPart}
    {offset : UInt64} {landed : List BlobPartReport} (wire : Wire)
    (hsmall : ∀ part ∈ parts, part.sizeBytes.toNat < 2 ^ 63)
    (hfits : offset.toNat + naturalBytes parts ≤ length.toNat) :
    (pushParts obliging (holding object) options session grant length parts
      offset landed wire).1 = .ok .landed := by
  induction parts generalizing offset landed wire with
  | nil =>
      have hlanded : ∃ wire', reportLanded obliging session grant.digest landed
          wire = (.ok (), wire') := reportLanded_obliging _ _ _
      obtain ⟨wire', hreport⟩ := hlanded
      rw [pushParts, Client.bind_of_ok hreport]
      rfl
  | cons part parts ih =>
      obtain ⟨hsize, hsmall⟩ := List.forall_mem_cons.mp hsmall
      rw [naturalBytes_cons] at hfits
      have hlength := length.toNat_lt
      have hsend : part.partNumber ∉ grant.uploadedParts := by
        rw [hnone]
        exact List.not_mem_nil
      have hhere : offset.toNat + part.sizeBytes.toNat ≤ length.toNat := by
        omega
      obtain ⟨bytes, hlocal⟩ := local_holding grant hobject hhere wire
      have hattempt := attempt_obliging part bytes
        (fun spent _ => .blobPartAttemptsExhausted grant.digest spent)
        options.spareAttempts 0 wire
      have hnext : (offset + part.sizeBytes).toNat + naturalBytes parts ≤
          length.toNat := by
        rw [UInt64.toNat_add, Nat.mod_eq_of_lt (by omega)]
        omega
      rw [pushParts, if_neg hsend,
        Client.bind_of_ok (Client.assert_of wire hsize),
        Client.bind_of_ok hlocal, Client.bind_of_ok hattempt]
      exact ih _ hsmall hnext

end

/-! The claim, for a grant. -/

instance uint8_nontrivial : Nontrivial UInt8 := ⟨0, 1, by decide⟩

theorem assembles_of_partsCover {grant : BlobGrant} {length : UInt64}
    (h : PartsCover grant length) : Assembles grant length := by
  intro transport disk options session object wire result wire' calls hholds
    hrun hlog
  by_cases hchecks : grant.length = length ∧
    grantedBytes grant.parts = length ∧
      disk wire.log grant.digest = .ok object ∧ object.length = length.toNat
  · obtain ⟨hgranted, hcovers, hopen, hobject⟩ := hchecks
    rw [pushOneBlob_run hgranted hcovers hobject hopen] at hrun
    cases hlead : leadFits grant length grant.parts 0 with
    | false =>
        obtain ⟨hquiet, hheld⟩ :=
          (pushParts_quiet hobject hholds wire hlead).unique hrun hlog
        refine ⟨fun part bytes answer hsent =>
          absurd hsent (hquiet part bytes answer), fun hok hnone => ?_⟩
        have hparts : grant.parts = [] := by
          apply List.eq_nil_iff_forall_not_mem.mpr
          intro part hpart
          have hmem := hheld hok part hpart
          rw [hnone] at hmem
          cases hmem
        have hempty : length = 0 := by
          rw [← hcovers, hparts]
          rfl
        rw [hempty, UInt64.toNat_zero, List.length_eq_zero_iff] at hobject
        rw [stored, hquiet.landed, hobject, assemble_nil]
    | true =>
        obtain ⟨hnatural, hsequence⟩ := h hgranted hcovers hlead
        have hfits : naturalBytes ([] ++ grant.parts) < 2 ^ 64 := by
          rw [List.nil_append, hnatural]
          exact length.toNat_lt
        obtain ⟨hcarries, hlanded⟩ :=
          (pushParts_sends hobject hholds wire rfl hfits).unique hrun hlog
        refine ⟨fun part bytes answer hsent =>
          ⟨hnatural.trans hobject.symm, hcarries part bytes answer hsent⟩,
            fun hok hnone => ?_⟩
        obtain ⟨hsmall, hcut⟩ := hlanded hok hnone
        rw [stored, hcut]
        exact assemble_cut_iff.mpr (hsequence hnone hsmall) object
          (hobject.trans hnatural.symm)
  · obtain ⟨error, hrefused⟩ := pushOneBlob_refused hholds hchecks
    rw [hrefused] at hrun
    cases hrun
    have hnone : calls = [] :=
      List.reverse_eq_nil_iff.mp (List.append_left_eq_self.mp hlog.symm)
    refine ⟨fun part bytes answer hsent => ?_, fun hok => by cases hok⟩
    rw [hnone] at hsent
    cases hsent

/-- A run with a remote that takes every part. -/
theorem Assembles.run {grant : BlobGrant} {length : UInt64} {object : Bytes}
    {post : Except (Stop SyncError) BlobOutcome → List Event → Prop}
    (h : Assembles grant length) (hgranted : grant.length = length)
    (hcovers : grantedBytes grant.parts = length)
    (hobject : object.length = length.toNat)
    (hmakes : Makes (pushParts obliging (holding object) {} [] grant length
      grant.parts 0 []) {} post) :
    ∃ result calls, post result calls ∧
      (pushParts obliging (holding object) {} [] grant length grant.parts 0 []
        {}).1 = result ∧
      (∀ part bytes answer, .partUploaded part bytes answer ∈ calls →
        naturalBytes grant.parts = object.length) ∧
      (result = .ok .landed → grant.uploadedParts = [] →
        stored calls = object) := by
  obtain ⟨calls, hlog, hpost⟩ := hmakes
  have hholds : Holds (holding object) grant.digest object := by
    intro log bytes hbytes
    cases hbytes
    rfl
  have hrun : pushOneBlob obliging (holding object) {} [] grant length {} =
      pushParts obliging (holding object) {} [] grant length grant.parts 0 []
        {} := pushOneBlob_run hgranted hcovers hobject rfl
  obtain ⟨hsent, hstored⟩ := h obliging (holding object) {} [] object {} _ _
    calls hholds hrun hlog
  exact ⟨_, calls, hpost, rfl,
    fun part bytes answer hmem => (hsent part bytes answer hmem).1, hstored⟩

theorem Assembles.partsCover {grant : BlobGrant} {length : UInt64}
    (h : Assembles grant length) : PartsCover grant length := by
  intro hgranted hcovers hlead
  have hnatural : naturalBytes grant.parts = length.toNat := by
    have hobject : (List.replicate length.toNat (0 : UInt8)).length =
        length.toNat := List.length_replicate
    obtain ⟨_, calls, hloud, -, hsent, -⟩ := h.run hgranted hcovers hobject
      (pushParts_obliging_sends hobject {} hlead)
    unfold Quiet at hloud
    push Not at hloud
    obtain ⟨part, bytes, answer, hmem⟩ := hloud
    rw [hsent part bytes answer hmem, hobject]
  refine ⟨hnatural, fun hnone hsmall => ?_⟩
  refine assemble_cut_iff.mp fun (object : Bytes) hlength => ?_
  have hobject : object.length = length.toNat := hlength.trans hnatural
  have hfits : naturalBytes ([] ++ grant.parts) < 2 ^ 64 := by
    rw [List.nil_append, hnatural]
    exact length.toNat_lt
  have hholds : Holds (holding object) grant.digest object := by
    intro log bytes hbytes
    cases hbytes
    rfl
  obtain ⟨result, calls, ⟨-, hcut⟩, hresult, -, hstored⟩ :=
    h.run hgranted hcovers hobject
      (pushParts_sends hobject hholds {} rfl hfits)
  have hlands : result = .ok .landed := by
    rw [← hresult]
    apply pushParts_obliging_lands hobject hnone {} hsmall
    rw [UInt64.toNat_zero, Nat.zero_add, hnatural]
  have hassembled := hstored hlands hnone
  rw [stored, (hcut hlands hnone).2] at hassembled
  exact hassembled

theorem assembles_iff (grant : BlobGrant) (length : UInt64) :
    Assembles grant length ↔ PartsCover grant length :=
  ⟨Assembles.partsCover, assembles_of_partsCover⟩

/-- A grant of the parts numbered and sized as listed, none of them held. -/
def freshGrant (length : UInt64) (parts : List (UInt32 × UInt64)) :
    BlobGrant where
  digest := ⟨List.replicate 32 0, by decide⟩
  length := length
  stagingKey := []
  uploadId := []
  partSize := 0
  parts := parts.map fun part => ⟨part.1, part.2, [], []⟩
  uploadedParts := []

/-- Sizes may wrap to the length of the object, and numbers may run
backwards. -/
theorem not_assembles :
    ¬ Assembles (freshGrant 1
        [(1, 1), (2, 9223372036854775808), (3, 9223372036854775808)]) 1 ∧
      ¬ Assembles (freshGrant 2 [(2, 1), (1, 1)]) 2 := by
  constructor
  · intro h
    have hnatural :=
      (h.partsCover rfl (by decide +kernel) (by decide +kernel)).1
    revert hnatural
    decide +kernel
  · intro h
    have hsequence :=
      (h.partsCover rfl (by decide) (by decide)).2 rfl (by decide)
    revert hsequence
    unfold Sequenced
    decide

end TensorFS.Sync
