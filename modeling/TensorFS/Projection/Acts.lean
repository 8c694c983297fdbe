import TensorFS.Projection.Layout

namespace TensorFS.Projection

open Data

variable {P : Platform} {o : Outside} {m : Machine}

/-! What one call of each process can do, with what it has seen. -/

/-- One call of a deletion. -/
inductive Walks (m : Machine) (dir : Nat) (name : Text) :
    Walk → Call → Option Walk → Prop where
  | enter {inode : Nat} (h : m.disk.lookup dir name = some (.directory inode)) :
      Walks m dir name .entering .nothing (some (.emptying inode))
  | file {inode : Nat} (h : m.disk.lookup dir name = some (.file inode)) :
      Walks m dir name .entering (.unlink dir name) none
  | erase {inode : Nat} {tree left : Tree} (h : m.content inode = .tree tree) :
      Walks m dir name (.emptying inode) (.edit inode (.tree left))
        (some (.emptying inode))
  | wait {inode : Nat} :
      Walks m dir name (.emptying inode) .nothing (some (.emptying inode))
  | directory {inode found : Nat}
      (h : m.disk.lookup dir name = some (.directory found)) :
      Walks m dir name (.emptying inode) (.unlink dir name) none
  | stop {walk : Walk} : Walks m dir name walk .nothing none

theorem Machine.treeAt_eq_some {dir : Nat} {name : Text} {inode : Nat}
    {tree : Tree} :
    m.treeAt dir name = some (inode, tree) ↔
      m.disk.lookup dir name = some (.directory inode) ∧
        m.content inode = .tree tree := by
  unfold treeAt
  split
  · rename_i found hlookup
    split
    · rename_i under hcontent
      simp only [Option.some.injEq, Prod.mk.injEq, hlookup,
        Node.directory.injEq]
      constructor
      · rintro ⟨rfl, rfl⟩
        exact ⟨rfl, hcontent⟩
      · rintro ⟨rfl, hunder⟩
        exact ⟨rfl, Content.tree.inj (hcontent.symm.trans hunder)⟩
    · rename_i bytes hcontent
      constructor
      · intro h
        cases h
      · rintro ⟨hfound, hunder⟩
        rw [hlookup] at hfound
        cases hfound
        rw [hcontent] at hunder
        cases hunder
  · rename_i hne
    constructor
    · intro h
      cases h
    · rintro ⟨hfound, -⟩
      exact absurd hfound (hne inode)

theorem walkNext_walks (o : Outside) (m : Machine) (dir : Nat) (name : Text)
    (walk : Walk) :
    Walks m dir name walk (walkNext o m dir name walk).1
      (walkNext o m dir name walk).2 := by
  cases walk with
  | entering =>
      simp only [walkNext]
      split
      · exact .enter ‹_›
      · exact .file ‹_›
      · exact .stop
  | emptying inode =>
      simp only [walkNext]
      split
      · split
        · rename_i found htree
          exact .directory (Machine.treeAt_eq_some.mp htree).1
        · exact .stop
      · rename_i tree hcontent
        split
        · exact .erase ‹_›
        · exact .wait
      · exact .stop

/-- One call of each process. -/
inductive Acts (P : Platform) (m : Machine) :
    Process → Call → Process → Prop where
  | named {job : Job}
      (hname : ∀ name id, job = .set name id → isRefName name = true) :
      Acts P m (.creator job .asked) .nothing (.creator job .absent)
  | again {job : Job} {token : Text} :
      Acts P m (.creator job (.drawn token)) .nothing (.creator job .absent)
  | known {snapshot : Snapshot} {symlinks : Bool} {node : Node}
      (h : m.disk.lookup snapshotsDir
        (treeName (P.sha256 snapshot.toBytes)) = some node) :
      Acts P m (.creator (.project snapshot symlinks) .asked) .nothing
        (.creator (.project snapshot symlinks) (.answered (.ok ())))
  | fail {job : Job} {stage : Stage} {error : LayoutError} :
      Acts P m (.creator job stage) .nothing
        (.creator job (.answered (.error error)))
  | leave {job : Job} {lease : Lease} {outcome : Except LayoutError Unit} :
      Acts P m (.creator job (.unleasing lease outcome)) .nothing
        (.creator job (.answered outcome))
  | create {job : Job} {token : Text}
      (habsent : m.disk.lookup tmpDir (leaseName token) = none) :
      Acts P m (.creator job (.drawn token))
        (.makeFile tmpDir (leaseName token))
        (.creator job (.created ⟨token, m.disk.next⟩))
  | take {job : Job} {lease : Lease} (hfree : m.lock lease.inode = none) :
      Acts P m (.creator job (.created lease)) (.lock lease.inode)
        (.creator job (.working lease .started))
  | giveUp {job : Job} {lease : Lease} {work : Work} :
      Acts P m (.creator job (.working lease work)) .nothing
        (.creator job (.clearing lease (.error .io) .entering))
  | lost {snapshot : Snapshot} {symlinks : Bool} {lease : Lease} {node : Node}
      (h : m.disk.lookup snapshotsDir
        (treeName (P.sha256 snapshot.toBytes)) = some node) :
      Acts P m
        (.creator (.project snapshot symlinks) (.working lease .refused))
        .nothing
        (.creator (.project snapshot symlinks)
          (.clearing lease (.ok ()) .entering))
  | refuse {job : Job} {lease : Lease} {work : Work} :
      Acts P m (.creator job (.working lease work)) .nothing
        (.creator job (.working lease .refused))
  | makeTree {snapshot : Snapshot} {symlinks : Bool} {lease : Lease}
      (habsent :
        m.disk.lookup snapshotsDir (buildingName lease.token) = none) :
      Acts P m (.creator (.project snapshot symlinks) (.working lease .started))
        (.makeTree snapshotsDir (buildingName lease.token))
        (.creator (.project snapshot symlinks)
          (.working lease (.filling snapshot.entries)))
  | fill {snapshot : Snapshot} {symlinks : Bool} {lease : Lease} {path : Text}
      {entry : Entry} {rest : List (Text × Entry)} {inode : Nat}
      {tree after : Tree} {artifact : Artifact}
      {view : ObjectDigest → Option Bytes} (hhonest : Honest P view)
      (htree : m.treeAt snapshotsDir (buildingName lease.token) =
        some (inode, tree))
      (hentry : projectEntry P view symlinks snapshot path entry =
        some artifact)
      (hplace : tree.place path artifact = some after) :
      Acts P m
        (.creator (.project snapshot symlinks)
          (.working lease (.filling ((path, entry) :: rest))))
        (.edit inode (.tree after))
        (.creator (.project snapshot symlinks)
          (.working lease (.filling rest)))
  | tear {snapshot : Snapshot} {symlinks : Bool} {lease : Lease}
      {rest : List (Text × Entry)} {inode : Nat} {tree after : Tree}
      (htree : m.treeAt snapshotsDir (buildingName lease.token) =
        some (inode, tree)) :
      Acts P m
        (.creator (.project snapshot symlinks) (.working lease (.filling rest)))
        (.edit inode (.tree after))
        (.creator (.project snapshot symlinks)
          (.clearing lease (.error .io) .entering))
  | finish {snapshot : Snapshot} {symlinks : Bool} {lease : Lease}
      (hfree : ∀ node, m.disk.lookup snapshotsDir
        (treeName (P.sha256 snapshot.toBytes)) = some node →
          ∃ old, node = .directory old) :
      Acts P m
        (.creator (.project snapshot symlinks) (.working lease (.filling [])))
        (.rename snapshotsDir (buildingName lease.token)
          (treeName (P.sha256 snapshot.toBytes)))
        (.creator (.project snapshot symlinks)
          (.clearing lease (.ok ()) .entering))
  | stage {name : Text} {id : SnapshotId} {lease : Lease}
      (habsent : m.disk.lookup refsDir (swapName lease.token) = none) :
      Acts P m (.creator (.set name id) (.working lease .started))
        (.makeFile refsDir (swapName lease.token))
        (.creator (.set name id) (.working lease (.staged m.disk.next)))
  | write {name : Text} {id : SnapshotId} {lease : Lease} {inode : Nat} :
      Acts P m (.creator (.set name id) (.working lease (.staged inode)))
        (.edit inode (.bytes (refBytes id)))
        (.creator (.set name id) (.working lease (.written inode)))
  | cut {name : Text} {id : SnapshotId} {lease : Lease} {inode torn : Nat} :
      Acts P m (.creator (.set name id) (.working lease (.staged inode)))
        (.edit inode (.bytes ((refBytes id).take torn)))
        (.creator (.set name id) (.clearing lease (.error .io) .entering))
  | sync {name : Text} {id : SnapshotId} {lease : Lease} {inode : Nat} :
      Acts P m (.creator (.set name id) (.working lease (.written inode)))
        (.sync inode)
        (.creator (.set name id) (.working lease (.synced inode)))
  | swap {name : Text} {id : SnapshotId} {lease : Lease} {inode : Nat}
      {node : Node}
      (hstaged : m.disk.lookup refsDir (swapName lease.token) = some node) :
      Acts P m (.creator (.set name id) (.working lease (.synced inode)))
        (.rename refsDir (swapName lease.token) name)
        (.creator (.set name id) (.clearing lease (.ok ()) .entering))
  | clear {job : Job} {lease : Lease} {outcome : Except LayoutError Unit}
      {walk later : Walk} {call : Call}
      (hwalk : Walks m (job.scratch lease.token).1 (job.scratch lease.token).2
        walk call (some later)) :
      Acts P m (.creator job (.clearing lease outcome walk)) call
        (.creator job (.clearing lease outcome later))
  | cleared {job : Job} {lease : Lease} {outcome : Except LayoutError Unit}
      {walk : Walk} {call : Call}
      (hwalk : Walks m (job.scratch lease.token).1 (job.scratch lease.token).2
        walk call none) :
      Acts P m (.creator job (.clearing lease outcome walk)) call
        (.creator job (.unlocking lease outcome))
  | unlock {job : Job} {lease : Lease} {outcome : Except LayoutError Unit} :
      Acts P m (.creator job (.unlocking lease outcome)) (.unlock lease.inode)
        (.creator job (.unleasing lease outcome))
  | unlease {job : Job} {lease : Lease} {outcome : Except LayoutError Unit} :
      Acts P m (.creator job (.unleasing lease outcome))
        (.unlink tmpDir (leaseName lease.token))
        (.creator job (.answered outcome))
  | openRef {name : Text} {inode : Nat} (hname : isRefName name = true)
      (h : m.disk.lookup refsDir name = some (.file inode)) :
      Acts P m (.reader name .asked) .nothing (.reader name (.opened inode))
  | missing {name : Text} (hname : isRefName name = true)
      (h : m.disk.lookup refsDir name = none) :
      Acts P m (.reader name .asked) .nothing
        (.reader name (.answered (.ok none)))
  | read {name : Text} {inode : Nat} {bytes : Bytes} {id : SnapshotId}
      (h : m.content inode = .bytes bytes) (hparse : parseRef bytes = some id) :
      Acts P m (.reader name (.opened inode)) .nothing
        (.reader name (.answered (.ok (some id))))
  | unread {name : Text} {inode : Nat} {bytes : Bytes}
      (h : m.content inode = .bytes bytes) (hparse : parseRef bytes = none) :
      Acts P m (.reader name (.opened inode)) .nothing
        (.reader name (.answered (.error (.unreadableRef name))))
  | failed {name : Text} {stage : ReadStage} {error : LayoutError}
      (herror : error = .io ∨ error = .invalidRefName name) :
      Acts P m (.reader name stage) .nothing
        (.reader name (.answered (.error error)))
  | name {target : Target}
      (hname : ∀ name, target = .ref name → isRefName name = true) :
      Acts P m (.remover target .asked) .nothing (.remover target .named)
  | claim {target : Target} {token : Text} {node : Node}
      (h : m.disk.lookup target.dir target.name = some node) :
      Acts P m (.remover target (.drawn token))
        (.rename target.dir target.name (removedName token))
        (.remover target (.claimed token .entering))
  | empty {target : Target} {token : Text} {walk later : Walk} {call : Call}
      (hwalk : Walks m target.dir (removedName token) walk call
        (some later)) :
      Acts P m (.remover target (.claimed token walk)) call
        (.remover target (.claimed token later))
  | emptied {target : Target} {token : Text} {walk : Walk} {call : Call}
      (hwalk : Walks m target.dir (removedName token) walk call none) :
      Acts P m (.remover target (.claimed token walk)) call
        (.remover target (.answered (.ok .taken)))
  | quit {target : Target} {stage : RemoveStage}
      {outcome : Except LayoutError Removal} :
      Acts P m (.remover target stage) .nothing
        (.remover target (.answered outcome))
  | unleased {scratch : Scratch}
      (h : ∀ token, scratch.leased = some token →
        m.disk.lookup tmpDir (leaseName token) = none) :
      Acts P m (.reaper scratch .listed) .nothing
        (.reaper scratch (.doomed .entering))
  | openLease {scratch : Scratch} {token : Text} {inode : Nat}
      (htoken : scratch.leased = some token)
      (h : m.disk.lookup tmpDir (leaseName token) = some (.file inode)) :
      Acts P m (.reaper scratch .listed) .nothing
        (.reaper scratch (.opened inode))
  | hold {scratch : Scratch} {inode : Nat} (hfree : m.lock inode = none) :
      Acts P m (.reaper scratch (.opened inode)) (.lock inode)
        (.reaper scratch (.held inode))
  | doom {scratch : Scratch} {inode : Nat} :
      Acts P m (.reaper scratch (.held inode)) (.unlock inode)
        (.reaper scratch (.doomed .entering))
  | reap {scratch : Scratch} {walk later : Walk} {call : Call}
      (hwalk : Walks m scratch.dir scratch.name walk call (some later)) :
      Acts P m (.reaper scratch (.doomed walk)) call
        (.reaper scratch (.doomed later))
  | reaped {scratch : Scratch} {walk : Walk} {call : Call}
      (hwalk : Walks m scratch.dir scratch.name walk call none) :
      Acts P m (.reaper scratch (.doomed walk)) call
        (.reaper scratch .finished)
  | spare {scratch : Scratch} {stage : ReapStage} :
      Acts P m (.reaper scratch stage) .nothing (.reaper scratch .finished)

theorem validatedRefName_eq_ok {name found : Text} :
    validatedRefName name = .ok found ↔
      isRefName name = true ∧ found = name := by
  unfold validatedRefName
  split
  · rename_i h
    simp [h, eq_comm]
  · rename_i h
    simp [h]

theorem validatedRefName_eq_error {name : Text} {error : LayoutError}
    (h : validatedRefName name = .error error) :
    error = .invalidRefName name := by
  unfold validatedRefName at h
  split at h
  · cases h
  · cases h
    rfl

section

variable {lease : Lease} {work : Work}

theorem projectNext_acts (hhonest : Honest P o.view) {snapshot : Snapshot}
    {symlinks : Bool} {call : Call} {later : Stage}
    (h : projectNext P o m snapshot symlinks lease work = (call, later)) :
    Acts P m (.creator (.project snapshot symlinks) (.working lease work)) call
      (.creator (.project snapshot symlinks) later) := by
  cases work with
  | started =>
      simp only [projectNext, giveUp] at h
      split at h
      · cases h
        exact .makeTree ‹_›
      · cases h
        exact .giveUp
  | filling rest =>
      cases rest with
      | nil =>
          simp only [projectNext, renameTree] at h
          split at h
          · rename_i hfinal
            cases h
            refine .finish fun node hnode => ?_
            rw [hfinal] at hnode
            cases hnode
          · rename_i old hfault hbuilding hfinal
            split at h
            · cases h
              refine .finish fun node hnode => ?_
              rw [hfinal] at hnode
              exact ⟨old, (Option.some.inj hnode).symm⟩
            · cases h
              exact .refuse
          · cases h
            exact .refuse
      | cons pair rest =>
          obtain ⟨path, entry⟩ := pair
          simp only [projectNext, fillNext, giveUp] at h
          split at h
          · rename_i inode tree artifact htree hentry hfault
            split at h
            · cases h
              exact .fill hhonest htree hentry ‹_›
            · cases h
              exact .giveUp
          · rename_i inode tree bytes torn htree hentry hfault
            split at h
            · cases h
              exact .tear htree
            · cases h
              exact .giveUp
          · cases h
            exact .giveUp
  | refused =>
      simp only [projectNext, giveUp] at h
      split at h
      · cases h
        exact .lost ‹_›
      · cases h
        exact .giveUp
  | staged inode =>
      cases h
      exact .giveUp
  | written inode =>
      cases h
      exact .giveUp
  | synced inode =>
      cases h
      exact .giveUp

theorem setNext_acts {name : Text} {id : SnapshotId} {call : Call}
    {later : Stage} (h : setNext o m name id lease work = (call, later)) :
    Acts P m (.creator (.set name id) (.working lease work)) call
      (.creator (.set name id) later) := by
  cases work with
  | started =>
      simp only [setNext, giveUp] at h
      split at h
      · cases h
        exact .stage ‹_›
      · cases h
        exact .giveUp
  | staged inode =>
      simp only [setNext] at h
      split at h
      · cases h
        exact .write
      · cases h
        exact .cut
  | written inode =>
      simp only [setNext, giveUp] at h
      split at h
      · cases h
        exact .sync
      · cases h
        exact .giveUp
  | synced inode =>
      simp only [setNext, giveUp] at h
      split at h
      · cases h
        exact .giveUp
      · cases h
        exact .swap ‹_›
      · cases h
        exact .giveUp
  | filling rest =>
      cases h
      exact .giveUp
  | refused =>
      cases h
      exact .giveUp

end

theorem creatorNext_acts (hhonest : Honest P o.view) {job : Job}
    {stage later : Stage} {call : Call}
    (h : creatorNext P o m job stage = some (call, later)) :
    Acts P m (.creator job stage) call (.creator job later) := by
  cases stage with
  | asked =>
      simp only [creatorNext, Option.some.injEq] at h
      cases job with
      | project snapshot symlinks =>
          simp only at h
          split at h
          · cases h
            exact .known ‹_›
          · cases h
            exact .named fun _ _ hjob => by cases hjob
      | set name id =>
          simp only at h
          split at h
          · rename_i found hvalid
            cases h
            refine .named fun _ _ hjob => ?_
            cases hjob
            exact (validatedRefName_eq_ok.mp hvalid).1
          · cases h
            exact .fail
  | absent => cases h
  | drawn token =>
      simp only [creatorNext, Option.some.injEq] at h
      split at h
      · cases h
        exact .create ‹_›
      · cases h
        exact .again
      · cases h
        exact .fail
  | created lease =>
      simp only [creatorNext, Option.some.injEq] at h
      split at h
      · cases h
        exact .take ‹_›
      · cases h
        exact .fail
  | working lease work =>
      simp only [creatorNext, Option.some.injEq] at h
      cases job with
      | project snapshot symlinks => exact projectNext_acts hhonest h
      | set name id => exact setNext_acts h
  | clearing lease outcome walk =>
      simp only [creatorNext, Option.some.injEq] at h
      have hwalk := walkNext_walks o m (job.scratch lease.token).1
        (job.scratch lease.token).2 walk
      split at h
      · rename_i found next heq
        cases h
        rw [heq] at hwalk
        exact .clear hwalk
      · rename_i found heq
        cases h
        rw [heq] at hwalk
        exact .cleared hwalk
  | unlocking lease outcome =>
      cases h
      exact .unlock
  | unleasing lease outcome =>
      simp only [creatorNext, Option.some.injEq] at h
      split at h
      · cases h
        exact .unlease
      · cases h
        exact .leave
  | answered outcome => cases h

theorem readerNext_acts {name : Text} {stage later : ReadStage} {call : Call}
    (h : readerNext o m name stage = some (call, later)) :
    Acts P m (.reader name stage) call (.reader name later) := by
  cases stage with
  | asked =>
      simp only [readerNext, Option.some.injEq] at h
      split at h
      · cases h
        exact .failed (.inr (validatedRefName_eq_error ‹_›))
      · rename_i found hvalid
        have hname := (validatedRefName_eq_ok.mp hvalid).1
        split at h
        · cases h
          exact .missing hname ‹_›
        · cases h
          exact .openRef hname ‹_›
        · cases h
          exact .failed (.inl rfl)
  | opened inode =>
      simp only [readerNext, Option.some.injEq] at h
      split at h
      · rename_i bytes _ hcontent
        split at h
        · cases h
          exact .read hcontent ‹_›
        · cases h
          exact .unread hcontent ‹_›
      · cases h
        exact .failed (.inl rfl)
  | answered found => cases h

theorem removerNext_acts {target : Target} {stage later : RemoveStage}
    {call : Call} (h : removerNext o m target stage = some (call, later)) :
    Acts P m (.remover target stage) call (.remover target later) := by
  cases stage with
  | asked =>
      simp only [removerNext, Option.some.injEq] at h
      cases target with
      | tree id =>
          cases h
          exact .name fun _ htarget => by cases htarget
      | ref name =>
          simp only at h
          split at h
          · rename_i found hvalid
            cases h
            refine .name fun _ htarget => ?_
            cases htarget
            exact (validatedRefName_eq_ok.mp hvalid).1
          · cases h
            exact .quit
  | named => cases h
  | drawn token =>
      simp only [removerNext, Option.some.injEq] at h
      split at h
      · cases h
        exact .claim ‹_›
      · cases h
        exact .quit
      · cases h
        exact .quit
  | claimed token walk =>
      simp only [removerNext, Option.some.injEq] at h
      have hwalk := walkNext_walks o m target.dir (removedName token) walk
      split at h
      · rename_i found next heq
        cases h
        rw [heq] at hwalk
        exact .empty hwalk
      · rename_i found heq
        cases h
        rw [heq] at hwalk
        exact .emptied hwalk
  | answered outcome => cases h

theorem reaperNext_acts {scratch : Scratch} {stage later : ReapStage}
    {call : Call} (h : reaperNext o m scratch stage = some (call, later)) :
    Acts P m (.reaper scratch stage) call (.reaper scratch later) := by
  cases stage with
  | listed =>
      simp only [reaperNext, Option.some.injEq] at h
      split at h
      · rename_i hleased
        cases h
        refine .unleased fun token htoken => ?_
        rw [hleased] at htoken
        cases htoken
      · rename_i token hleased
        split at h
        · rename_i _ habsent
          cases h
          refine .unleased fun found hfound => ?_
          rw [hleased] at hfound
          cases hfound
          exact habsent
        · cases h
          exact .openLease hleased ‹_›
        · cases h
          exact .spare
  | opened inode =>
      simp only [reaperNext, Option.some.injEq] at h
      split at h
      · cases h
        exact .hold ‹_›
      · cases h
        exact .spare
  | held inode =>
      cases h
      exact .doom
  | doomed walk =>
      simp only [reaperNext, Option.some.injEq] at h
      have hwalk := walkNext_walks o m scratch.dir scratch.name walk
      split at h
      · rename_i found next heq
        cases h
        rw [heq] at hwalk
        exact .reap hwalk
      · rename_i found heq
        cases h
        rw [heq] at hwalk
        exact .reaped hwalk
  | finished => cases h

/-- A planned call is one of those. -/
theorem plan_acts (hhonest : Honest P o.view) {process later : Process}
    {call : Call} (h : plan P o m process = some (call, later)) :
    Acts P m process call later := by
  cases process with
  | creator job stage =>
      obtain ⟨⟨found, next⟩, hnext, heq⟩ := Option.map_eq_some_iff.mp h
      cases heq
      exact creatorNext_acts hhonest hnext
  | reader name stage =>
      obtain ⟨⟨found, next⟩, hnext, heq⟩ := Option.map_eq_some_iff.mp h
      cases heq
      exact readerNext_acts hnext
  | remover target stage =>
      obtain ⟨⟨found, next⟩, hnext, heq⟩ := Option.map_eq_some_iff.mp h
      cases heq
      exact removerNext_acts hnext
  | reaper scratch stage =>
      obtain ⟨⟨found, next⟩, hnext, heq⟩ := Option.map_eq_some_iff.mp h
      cases heq
      exact reaperNext_acts hnext

end TensorFS.Projection
