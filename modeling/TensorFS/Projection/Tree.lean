import TensorFS.Store.Sound
import TensorFS.Tfm1.Identifiers
import TensorFS.Workspace.Plant

namespace TensorFS.Projection

open Data

variable {P : Platform}

/-! What a projected tree holds at each path of its snapshot. -/

inductive Artifact where
  | directory
  | file (bytes : Bytes)
  | link (target : Text)
  deriving DecidableEq

/-- What a directory holds below it, in the order it was made. -/
abbrev Tree := List (Text × Artifact)

namespace Tree

/-- A call that makes one path: its parent is a directory and it is not
there. -/
def place (tree : Tree) (path : Text) (artifact : Artifact) : Option Tree :=
  if path ∈ tree.map Prod.fst then none
  else if (parentOf path).all fun parent => (parent, .directory) ∈ tree then
    some (tree ++ [(path, artifact)])
  else none

def below (parent path : Text) : Bool := (parent ++ ['/']).isPrefixOf path

/-- A call that removes one path: nothing is below it. -/
def erase (tree : Tree) (path : Text) : Option Tree :=
  if path ∈ tree.map Prod.fst ∧ ∀ pair ∈ tree, below path pair.1 = false then
    some (tree.filter fun pair => pair.1 ≠ path)
  else none

end Tree

def treeName (id : SnapshotId) : Text := Install.toHex id

def bodySha256 (P : Platform) (body : FileBody) : ObjectDigest :=
  P.sha256 (emitBody body)

def stubBytes (bodySha256 : ObjectDigest) (size : UInt64) : Bytes :=
  Text.utf8 ("TFSSTUB1 \x7b\"body_sha256\":\"".toList ++
    Install.toHex bodySha256 ++ "\",\"size\":".toList ++ decimal size.toNat ++
    ",\"read\":\"tensorfs\"\x7d\n".toList)

/-- The components of an object's path below the store's root. -/
def objectComponents (digest : ObjectDigest) : List Text :=
  "objects".toList :: "sha256".toList ::
    (Install.fanout digest ++ [Install.toHex digest])

def parentComponent : Text := ['.', '.']

/-- The relative link from a projected file back to its object. -/
def relativeObjectTarget (path : Text) (digest : ObjectDigest) : Text :=
  ['/'].intercalate (List.replicate (path.count '/' + 2) parentComponent ++
    objectComponents digest)

section Project

variable (P : Platform) (view : ObjectDigest → Option Bytes)
  (symlinks : Bool) (snapshot : Snapshot)

/-- A stub for a tensor container, a link or a copy for a blob. -/
def projectBody (path : Text) : FileBody → Option Artifact
  | .tensor format contract logicalSize records =>
      some (.file (stubBytes
        (bodySha256 P (.tensor format contract logicalSize records))
        logicalSize))
  | .blob logicalSize digest =>
      if logicalSize = 0 then some (.file [])
      else if symlinks then some (.link (relativeObjectTarget path digest))
      else (view digest).map .file

def carrierBody (ordinal : Nat) : Option FileBody :=
  (snapshot.ordinalPath ordinal).bind fun carrier =>
    snapshot.entries.findSome? fun pair =>
      match pair.2 with
      | .file _ body => if pair.1 = carrier then some body else none
      | _ => none

def projectEntry (path : Text) : Entry → Option Artifact
  | .directory => some .directory
  | .file _ body => projectBody P view symlinks path body
  | .symlink target => some (.link target)
  | .hardlink ordinal =>
      (carrierBody snapshot ordinal).bind (projectBody P view symlinks path)

end Project

/-- An object store answers with the bytes of the digest it is asked for. -/
def Honest (P : Platform) (view : ObjectDigest → Option Bytes) : Prop :=
  ∀ digest bytes, view digest = some bytes → P.sha256 bytes = digest

/-- A view that holds every object a copying projection asks for. -/
def Stocked (symlinks : Bool) (snapshot : Snapshot)
    (view : ObjectDigest → Option Bytes) : Prop :=
  symlinks = false → ∀ path executable logicalSize digest,
    (path, Entry.file executable (.blob logicalSize digest)) ∈
        snapshot.entries →
      logicalSize ≠ 0 → (view digest).isSome = true

/-- What a path of a projected tree holds for one entry. -/
def Projects (P : Platform) (symlinks : Bool) (snapshot : Snapshot)
    (pair : Text × Entry) (found : Text × Artifact) : Prop :=
  found.1 = pair.1 ∧ ∃ view, Honest P view ∧
    projectEntry P view symlinks snapshot pair.1 pair.2 = some found.2

/-- A tree that holds every entry of its snapshot and nothing else. -/
def Complete (P : Platform) (symlinks : Bool) (snapshot : Snapshot)
    (tree : Tree) : Prop :=
  List.Forall₂ (Projects P symlinks snapshot) snapshot.entries tree

section Place

variable {symlinks : Bool} {snapshot : Snapshot} {tree : Tree}
  {before rest : List (Text × Entry)}

theorem projected_paths
    (h : List.Forall₂ (Projects P symlinks snapshot) before tree) :
    tree.map Prod.fst = before.map Prod.fst := by
  induction h with
  | nil => rfl
  | cons hpair _ ih => rw [List.map_cons, List.map_cons, ih, hpair.1]

theorem projected_directory
    (h : List.Forall₂ (Projects P symlinks snapshot) before tree)
    {path : Text} (hmem : (path, Entry.directory) ∈ before) :
    (path, Artifact.directory) ∈ tree := by
  induction h with
  | nil => cases hmem
  | @cons pair found _ _ hpair _ ih =>
      rcases List.mem_cons.mp hmem with rfl | hmem
      · obtain ⟨hpath, _, -, hentry⟩ := hpair
        have hfound := Option.some.inj hentry
        exact List.mem_cons.mpr (.inl (Prod.ext hpath.symm hfound))
      · exact List.mem_cons_of_mem _ (ih hmem)

/-- The next entry of a canonical snapshot always finds its place. -/
theorem place_next (hcanonical : Canonical P.unicode snapshot)
    {path : Text} {entry : Entry} {artifact : Artifact}
    (hsplit : snapshot.entries = before ++ (path, entry) :: rest)
    (h : List.Forall₂ (Projects P symlinks snapshot) before tree) :
    tree.place path artifact = some (tree ++ [(path, artifact)]) := by
  have hfresh : path ∉ tree.map Prod.fst := by
    rw [projected_paths h]
    intro hmem
    obtain ⟨other, hother, rfl⟩ := List.mem_map.mp hmem
    have hlt := @Canonical.lt_of_before _ _ hcanonical _ _ _ other hsplit hother
    exact lt_irrefl _ hlt
  have hparent : (parentOf path).all
      (fun parent => (parent, Artifact.directory) ∈ tree) = true := by
    rw [Option.all_eq_true]
    intro parent hparent
    have hpair : (path, entry) ∈ snapshot.entries := by
      rw [hsplit]
      simp
    exact decide_eq_true (projected_directory h (hcanonical.mem_before hsplit
      (hcanonical.parent hpair hparent) (parentOf_lt hparent)))
  rw [Tree.place, if_neg hfresh, if_pos hparent]

/-- Every link of a canonical snapshot finds the body it shares. -/
theorem carrierBody_isSome (hcanonical : Canonical P.unicode snapshot)
    {path : Text} {ordinal : Nat}
    (hlink : (path, Entry.hardlink ordinal) ∈ snapshot.entries) :
    ∃ carrier executable body, carrierBody snapshot ordinal = some body ∧
      (carrier, Entry.file executable body) ∈ snapshot.entries := by
  obtain ⟨carrier, executable, body, before, rest, hpath, -, hsplit, -⟩ :=
    hcanonical.carrier hlink
  have hmem : (carrier, Entry.file executable body) ∈ snapshot.entries := by
    rw [hsplit]
    simp
  have hsome : (carrierBody snapshot ordinal).isSome = true := by
    rw [carrierBody, hpath, Option.bind_some, List.findSome?_isSome_iff]
    exact ⟨_, hmem, by simp⟩
  obtain ⟨found, hfound⟩ := Option.isSome_iff_exists.mp hsome
  refine ⟨carrier, ?_⟩
  rw [carrierBody, hpath, Option.bind_some] at hfound
  obtain ⟨⟨path, entry⟩, hentry, hbody⟩ :=
    List.exists_of_findSome?_eq_some hfound
  simp only at hbody
  split at hbody
  · rename_i executable body
    split at hbody
    · cases hbody
      subst_vars
      refine ⟨executable, found, ?_, hentry⟩
      rw [carrierBody, hpath, Option.bind_some, hfound]
    · cases hbody
  · cases hbody

/-- Nothing a canonical snapshot holds is refused. -/
theorem projectEntry_isSome {view : ObjectDigest → Option Bytes}
    (hcanonical : Canonical P.unicode snapshot)
    (hstocked : Stocked symlinks snapshot view)
    {path : Text} {entry : Entry} (hmem : (path, entry) ∈ snapshot.entries) :
    ∃ artifact,
      projectEntry P view symlinks snapshot path entry = some artifact := by
  have hbody : ∀ at' executable body,
      (at', Entry.file executable body) ∈ snapshot.entries → ∃ artifact,
        projectBody P view symlinks path body = some artifact := by
    intro at' executable body hbody
    cases body with
    | tensor => exact ⟨_, rfl⟩
    | blob logicalSize digest =>
        rw [projectBody]
        split
        · exact ⟨_, rfl⟩
        · rename_i hsize
          split
          · exact ⟨_, rfl⟩
          · rename_i hcopy
            obtain ⟨bytes, hbytes⟩ := Option.isSome_iff_exists.mp
              (hstocked (Bool.eq_false_iff.mpr hcopy) _ _ _ _ hbody hsize)
            exact ⟨.file bytes, by rw [hbytes]; rfl⟩
  cases entry with
  | directory => exact ⟨_, rfl⟩
  | symlink target => exact ⟨_, rfl⟩
  | file executable body => exact hbody path executable body hmem
  | hardlink ordinal =>
      obtain ⟨at', executable, body, hcarrier, hmem⟩ :=
        carrierBody_isSome hcanonical hmem
      obtain ⟨artifact, hartifact⟩ := hbody at' executable body hmem
      exact ⟨artifact, by rw [projectEntry, hcarrier]; exact hartifact⟩

end Place

/-! Where a projected link leads. -/

/-- A relative link followed from the components of its directory. -/
def follow : List Text → List Text → Option (List Text)
  | directory, [] => some directory
  | directory, component :: rest =>
      if component = parentComponent then
        if directory = [] then none else follow directory.dropLast rest
      else follow (directory ++ [component]) rest

theorem follow_up (front back rest : List Text) :
    follow (front ++ back)
        (List.replicate back.length parentComponent ++ rest) =
      follow front rest := by
  induction back using List.reverseRecOn with
  | nil => simp
  | append_singleton back component ih =>
      rw [List.length_append, List.length_singleton, List.replicate_succ,
        List.cons_append, follow, if_pos rfl, if_neg (by simp),
        ← List.append_assoc, List.dropLast_concat, ih]

theorem follow_down {directory rest : List Text}
    (h : ∀ component ∈ rest, component ≠ parentComponent) :
    follow directory rest = some (directory ++ rest) := by
  induction rest generalizing directory with
  | nil => rw [follow, List.append_nil]
  | cons component rest ih =>
      rw [follow, if_neg (h component List.mem_cons_self),
        ih fun other hmem => h other (List.mem_cons_of_mem _ hmem),
        List.append_assoc, List.singleton_append]

theorem length_splitPath (path : Text) :
    (splitPath path).length = path.count '/' + 1 := by
  unfold splitPath
  induction path with
  | nil => rfl
  | cons c path ih =>
      rw [List.splitOn_cons_eq_if_modifyHead]
      by_cases hsep : c = '/'
      · subst hsep
        rw [if_pos (by simp), List.length_cons, ih, List.count_cons_self]
      · rw [if_neg (by simpa using hsep), List.length_modifyHead, ih,
          List.count_cons_of_ne (Ne.symm (by simpa using Ne.symm hsep))]

theorem digitChar_plain : ∀ d < 16,
    Nat.digitChar d ≠ '/' ∧ Nat.digitChar d ≠ '.' := by
  decide

/-- Hexadecimal has neither separators nor dots. -/
theorem toHex_plain {digest : ObjectDigest} {c : Char}
    (h : c ∈ Install.toHex digest) : c ≠ '/' ∧ c ≠ '.' := by
  simp only [Install.toHex, Go.hexEncode, List.mem_flatMap, List.mem_cons,
    List.not_mem_nil, or_false] at h
  obtain ⟨b, -, hc⟩ := h
  have hb := b.toNat_lt
  rcases hc with rfl | rfl
  · exact digitChar_plain _ (by omega)
  · exact digitChar_plain _ (by omega)

theorem objectComponents_plain {digest : ObjectDigest} {component : Text}
    (h : component ∈ objectComponents digest) :
    '/' ∉ component ∧ component ≠ parentComponent := by
  have hplain : (∀ c ∈ component, c ≠ '/' ∧ c ≠ '.') →
      '/' ∉ component ∧ component ≠ parentComponent := by
    intro hall
    refine ⟨fun hmem => (hall _ hmem).1 rfl, ?_⟩
    rintro rfl
    exact (hall '.' (by simp [parentComponent])).2 rfl
  apply hplain
  simp only [objectComponents, Install.fanout, List.mem_cons, List.mem_append,
    List.not_mem_nil, or_false] at h
  rcases h with rfl | rfl | (rfl | rfl) | rfl
  · simp
  · simp
  · exact fun c hc => toHex_plain (List.mem_of_mem_take hc)
  · exact fun c hc =>
      toHex_plain (List.mem_of_mem_drop (List.mem_of_mem_take hc))
  · exact fun c hc => toHex_plain hc

/-- From its place in the tree, a blob's link leads to the object's path. -/
theorem object_link_leads (id : SnapshotId) (path : Text)
    (digest : ObjectDigest) :
    follow ("snapshots".toList :: treeName id :: (splitPath path).dropLast)
        ((relativeObjectTarget path digest).splitOn '/') =
      some (objectComponents digest) := by
  have hcomponents : (relativeObjectTarget path digest).splitOn '/' =
      List.replicate (path.count '/' + 2) parentComponent ++
        objectComponents digest := by
    rw [relativeObjectTarget, List.splitOn_intercalate]
    · intro component hmem
      rcases List.mem_append.mp hmem with hmem | hmem
      · rw [List.eq_of_mem_replicate hmem]
        decide
      · exact (objectComponents_plain hmem).1
    · simp [objectComponents]
  have hdepth : path.count '/' + 2 = ("snapshots".toList :: treeName id ::
      (splitPath path).dropLast).length := by
    simp only [List.length_cons, List.length_dropLast, length_splitPath]
    omega
  rw [hcomponents, hdepth]
  have hup := follow_up []
    ("snapshots".toList :: treeName id :: (splitPath path).dropLast)
    (objectComponents digest)
  rw [List.nil_append] at hup
  rw [hup, follow_down fun component hmem => (objectComponents_plain hmem).2,
    List.nil_append]

end TensorFS.Projection
