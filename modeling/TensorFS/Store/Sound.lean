import TensorFS.Store.Install

namespace TensorFS.Install

open Data

variable {P : Platform}

/-! What the entries of a store can stand for, kept by every call. -/

theorem length_hexEncode (bytes : Bytes) :
    (Go.hexEncode bytes).length = 2 * bytes.length := by
  simp [Go.hexEncode, List.length_flatMap, Nat.mul_comm]

theorem length_toHex (digest : ObjectDigest) : (toHex digest).length = 64 := by
  rw [toHex, length_hexEncode, digest.size]

theorem toHex_inj {left right : ObjectDigest} (h : toHex left = toHex right) :
    left = right := by
  cases left
  cases right
  simpa using Go.hexEncode_inj h

theorem mem_fanout_length {digest : ObjectDigest} {name : Text}
    (h : name ∈ fanout digest) : name.length ≤ 2 := by
  simp only [fanout, List.mem_cons, List.not_mem_nil, or_false] at h
  rcases h with rfl | rfl
  · exact (List.length_take_le _ _)
  · exact (List.length_take_le _ _)

theorem toHex_not_mem_fanout (digest other : ObjectDigest) :
    toHex digest ∉ fanout other := by
  intro h
  have hle := mem_fanout_length h
  rw [length_toHex] at hle
  omega

/-- What the entries of a store can stand for. -/
structure Sound (P : Platform) (disk : Volume Text Bytes) (issued : List Text) :
    Prop where
  roots : 2 ≤ disk.next
  unused : ∀ dir name, disk.next ≤ dir → disk.Settled dir name none
  files : disk.Named fun _ _ node =>
    ∀ inode, node = .file inode → inode < disk.next
  directories : disk.Named fun _ name node =>
    ∀ inode, node = .directory inode →
      2 ≤ inode ∧ inode < disk.next ∧ name.length ≤ 2
  issued : disk.Named fun dir name _ => dir = tmpDir → name ∈ issued
  single : disk.Named fun dir name node => dir = tmpDir →
    ∀ other, some other ∈ disk.values dir name → other = node
  /-- Outside the temp directory a file is synced and named by its content. -/
  whole : disk.Named fun dir name node =>
    ∀ inode, node = .file inode → dir ≠ tmpDir →
      (disk.inode inode).synced = true ∧
        toHex (P.sha256 (disk.inode inode).content) = name

namespace Sound

variable {disk later : Volume Text Bytes} {issued : List Text}
  {dir inode : Nat} {name path : Text}

theorem start : Sound P Machine.start.disk [] where
  roots := Nat.le_refl 2
  unused _ _ _ _ hfound := List.mem_singleton.mp hfound
  files _ _ _ hmem := by simp [Volume.values, Machine.start] at hmem
  directories _ _ _ hmem := by simp [Volume.values, Machine.start] at hmem
  issued _ _ _ hmem := by simp [Volume.values, Machine.start] at hmem
  single _ _ _ hmem := by simp [Volume.values, Machine.start] at hmem
  whole _ _ _ hmem := by simp [Volume.values, Machine.start] at hmem

/-- Nothing new is named and no synced file is touched. -/
theorem shrink (h : Sound P disk issued)
    (hvalues : ∀ dir name value, value ∈ later.values dir name →
      value = none ∨ value ∈ disk.values dir name)
    (hinode : ∀ inode, (disk.inode inode).synced = true →
      later.inode inode = disk.inode inode)
    (hnext : later.next = disk.next) : Sound P later issued := by
  have hnamed : ∀ {dir name node}, some node ∈ later.values dir name →
      some node ∈ disk.values dir name := by
    intro dir name node hmem
    exact (hvalues dir name _ hmem).resolve_left (by simp)
  refine ⟨hnext ▸ h.roots, ?_, ?_, ?_, ?_, ?_, ?_⟩
  · intro dir name hdir found hfound
    rcases hvalues dir name found hfound with hnone | hold
    · exact hnone
    · exact h.unused dir name (hnext ▸ hdir) found hold
  · intro dir name node hmem
    rw [hnext]
    exact h.files dir name node (hnamed hmem)
  · intro dir name node hmem
    rw [hnext]
    exact h.directories dir name node (hnamed hmem)
  · exact fun dir name node hmem => h.issued dir name node (hnamed hmem)
  · intro dir name node hmem hdir other hother
    exact h.single dir name node (hnamed hmem) hdir other (hnamed hother)
  · intro dir name node hmem inode hnode hdir
    have hwhole := h.whole dir name node (hnamed hmem) inode hnode hdir
    rw [hinode inode hwhole.1]
    exact hwhole

theorem unlink (h : Sound P disk issued) :
    Sound P (disk.unlink dir name) issued := by
  refine h.shrink ?_ (fun _ _ => rfl) rfl
  intro at' name' value hmem
  rcases Volume.mem_values_write.mp hmem with ⟨-, -, heq⟩ | hold
  · exact .inl heq
  · exact .inr hold

theorem syncDirectory (h : Sound P disk issued) :
    Sound P (disk.syncDirectory dir) issued :=
  h.shrink (fun _ _ _ hmem => .inr (Volume.mem_values_syncDirectory hmem))
    (fun _ _ => rfl) rfl

theorem crash (h : Sound P disk issued) (hcrash : disk.Crash later) :
    Sound P later issued :=
  h.shrink (fun _ _ _ hmem => .inr (hcrash.mem_values hmem)) hcrash.inode
    hcrash.next

theorem lt_next (h : Sound P disk issued) {value : Option Node}
    (hmem : value ∈ disk.values dir name) (hsome : value ≠ none) :
    dir < disk.next := by
  by_contra hge
  exact hsome (h.unused dir name (Nat.le_of_not_lt hge) value hmem)

theorem link (h : Sound P disk issued) (hdir : dir ≠ tmpDir)
    (hlt : dir < disk.next) (hinode : inode < disk.next)
    (hsynced : (disk.inode inode).synced = true)
    (hname : toHex (P.sha256 (disk.inode inode).content) = name) :
    Sound P (disk.link dir name (.file inode)) issued := by
  refine ⟨h.roots, ?_, ?_, ?_, ?_, ?_, ?_⟩
  · intro at' name' hat found hfound
    rcases Volume.mem_values_write.mp hfound with ⟨rfl, -, -⟩ | hold
    · exact absurd hlt (Nat.not_lt.mpr hat)
    · exact h.unused at' name' hat found hold
  · intro at' name' node hmem
    rcases Volume.mem_values_write.mp hmem with ⟨-, -, heq⟩ | hold
    · cases heq
      rintro _ ⟨⟩
      exact hinode
    · exact h.files at' name' node hold
  · intro at' name' node hmem
    rcases Volume.mem_values_write.mp hmem with ⟨-, -, heq⟩ | hold
    · cases heq
      rintro _ ⟨⟩
    · exact h.directories at' name' node hold
  · intro at' name' node hmem hat
    rcases Volume.mem_values_write.mp hmem with ⟨rfl, -, -⟩ | hold
    · exact absurd hat hdir
    · exact h.issued at' name' node hold hat
  · intro at' name' node hmem hat other hother
    rcases Volume.mem_values_write.mp hmem with ⟨rfl, -, -⟩ | hold
    · exact absurd hat hdir
    · rcases Volume.mem_values_write.mp hother with ⟨rfl, -, -⟩ | hother
      · exact absurd hat hdir
      · exact h.single at' name' node hold hat other hother
  · intro at' name' node hmem
    rcases Volume.mem_values_write.mp hmem with ⟨-, rfl, heq⟩ | hold
    · cases heq
      rintro _ ⟨⟩ -
      exact ⟨hsynced, hname⟩
    · exact h.whole at' name' node hold

theorem makeDirectory (h : Sound P disk issued) (hdir : dir ≠ tmpDir)
    (hlt : dir < disk.next) (hname : name.length ≤ 2) :
    Sound P (disk.makeDirectory dir name) issued := by
  refine ⟨Nat.le_succ_of_le h.roots, ?_, ?_, ?_, ?_, ?_, ?_⟩
  · intro at' name' hat found hfound
    rcases Volume.mem_values_makeDirectory.mp hfound with ⟨rfl, -, -⟩ | hold
    · exact absurd hlt (Nat.not_lt.mpr (Nat.le_of_succ_le hat))
    · exact h.unused at' name' (Nat.le_of_succ_le hat) found hold
  · intro at' name' node hmem inode hnode
    rcases Volume.mem_values_makeDirectory.mp hmem with ⟨-, -, heq⟩ | hold
    · cases heq
      cases hnode
    · exact Nat.lt_succ_of_lt (h.files at' name' node hold inode hnode)
  · intro at' name' node hmem inode hnode
    rcases Volume.mem_values_makeDirectory.mp hmem with ⟨-, rfl, heq⟩ | hold
    · cases heq
      cases hnode
      exact ⟨h.roots, Nat.lt_succ_self _, hname⟩
    · obtain ⟨hroot, hallocated, hlength⟩ :=
        h.directories at' name' node hold inode hnode
      exact ⟨hroot, Nat.lt_succ_of_lt hallocated, hlength⟩
  · intro at' name' node hmem hat
    rcases Volume.mem_values_makeDirectory.mp hmem with ⟨rfl, -, -⟩ | hold
    · exact absurd hat hdir
    · exact h.issued at' name' node hold hat
  · intro at' name' node hmem hat other hother
    rcases Volume.mem_values_makeDirectory.mp hmem with ⟨rfl, -, -⟩ | hold
    · exact absurd hat hdir
    · rcases Volume.mem_values_makeDirectory.mp hother with ⟨rfl, -, -⟩ | hother
      · exact absurd hat hdir
      · exact h.single at' name' node hold hat other hother
  · intro at' name' node hmem inode hnode
    rcases Volume.mem_values_makeDirectory.mp hmem with ⟨-, -, heq⟩ | hold
    · cases heq
      cases hnode
    · exact h.whole at' name' node hold inode hnode

theorem create (h : Sound P disk issued) (hfresh : path ∉ issued) (now : Nat) :
    Sound P (disk.create tmpDir path [] now) (path :: issued) := by
  have hnew : ∀ {at' name' node},
      some node ∈ (disk.create tmpDir path [] now).values at' name' →
        (at' = tmpDir ∧ name' = path ∧ node = .file disk.next) ∨
          some node ∈ disk.values at' name' := by
    intro at' name' node hmem
    rcases Volume.mem_values_create.mp hmem with ⟨hat, hname, heq⟩ | hold
    · exact .inl ⟨hat, hname, Option.some.inj heq⟩
    · exact .inr hold
  refine ⟨Nat.le_succ_of_le h.roots, ?_, ?_, ?_, ?_, ?_, ?_⟩
  · intro at' name' hat found hfound
    have hlt : tmpDir < disk.next := Nat.lt_of_lt_of_le (by decide) h.roots
    rcases Volume.mem_values_create.mp hfound with ⟨rfl, -, -⟩ | hold
    · exact absurd hlt (Nat.not_lt.mpr (Nat.le_of_succ_le hat))
    · exact h.unused at' name' (Nat.le_of_succ_le hat) found hold
  · intro at' name' node hmem inode hnode
    rcases hnew hmem with ⟨-, -, rfl⟩ | hold
    · cases hnode
      exact Nat.lt_succ_self _
    · exact Nat.lt_succ_of_lt (h.files at' name' node hold inode hnode)
  · intro at' name' node hmem inode hnode
    rcases hnew hmem with ⟨-, -, rfl⟩ | hold
    · cases hnode
    · obtain ⟨hroot, hallocated, hlength⟩ :=
        h.directories at' name' node hold inode hnode
      exact ⟨hroot, Nat.lt_succ_of_lt hallocated, hlength⟩
  · intro at' name' node hmem hat
    rcases hnew hmem with ⟨-, rfl, -⟩ | hold
    · exact List.mem_cons_self
    · exact List.mem_cons_of_mem _ (h.issued at' name' node hold hat)
  · intro at' name' node hmem hat other hother
    rcases hnew hmem with ⟨-, rfl, rfl⟩ | hold
    · rcases hnew hother with ⟨-, -, rfl⟩ | hother
      · rfl
      · exact absurd (h.issued _ _ _ hother hat) hfresh
    · rcases hnew hother with ⟨-, rfl, -⟩ | hother
      · exact absurd (h.issued _ _ _ hold hat) hfresh
      · exact h.single at' name' node hold hat other hother
  · intro at' name' node hmem inode hnode hdir
    rcases hnew hmem with ⟨rfl, -, -⟩ | hold
    · exact absurd rfl hdir
    · have hlt := h.files at' name' node hold inode hnode
      have hsame : (disk.create tmpDir path [] now).inode inode =
          disk.inode inode :=
        Function.update_of_ne (Nat.ne_of_lt hlt) _ _
      rw [hsame]
      exact h.whole at' name' node hold inode hnode hdir

end Sound

end TensorFS.Install
