import TensorFS.Data.Sha256
import TensorFS.Workspace.Effects

namespace TensorFS

open Data

variable {P : Platform}

/-! What the three lease calls do to the lease tables. -/

def Db.pins (db : Db) (lease : Nat) : List ObjectDigest :=
  (db.leaseObjects.filter fun pin => pin.1 = lease).map Prod.snd

inductive Acquisition where
  | unlinked (workspace path holder : Text)
  | pendingSync (id : SnapshotId) (holder : Text)

def Acquisition.take (store : ObjectStore P) (db : Db) :
    Acquisition → Outcome (Db × Nat)
  | .unlinked workspace path holder =>
      acquireUnlinkedLease P.unicode db workspace path holder
  | .pendingSync id holder => do
      let (db, lease, _) ← acquirePendingSyncLease store db id holder
      .ok (db, lease)

theorem acquireUnlinkedLease_eq_ok {U : Unicode} {db db' : Db}
    {name path holder : Text} {lease : Nat} :
    acquireUnlinkedLease U db name path holder = .ok (db', lease) ↔
      ∃ workspace inode, db.workspace name = some workspace ∧
        resolveExisting U db workspace path = .ok inode ∧
        (∃ row ∈ db.inodes, row.id = inode.id) ∧
        lease = nextId (db.leases.map LeaseRow.id) ∧
        db' = { db with leases := db.leases ++
          [⟨lease, .unlinked, holder, some workspace.id, some inode.id⟩] } := by
  have hrow : ∀ workspace, db.workspaceRow name = .ok workspace ↔
      db.workspace name = some workspace := by
    intro workspace
    unfold Db.workspaceRow
    cases db.workspace name <;> simp
  simp only [acquireUnlinkedLease, except_bind_eq_ok, hrow, require_eq_ok,
    exists_unit, Except.ok.injEq, Prod.mk.injEq]
  constructor
  · rintro ⟨workspace, hworkspace, inode, hinode, hheld, rfl, rfl⟩
    exact ⟨workspace, inode, hworkspace, hinode, hheld, rfl, rfl⟩
  · rintro ⟨workspace, inode, hworkspace, hinode, hheld, rfl, rfl⟩
    exact ⟨workspace, hworkspace, inode, hinode, hheld, rfl, rfl⟩

theorem acquirePendingSyncLease_eq_ok {store : ObjectStore P} {db db' : Db}
    {id : SnapshotId} {holder : Text} {lease : Nat} {snapshot : Snapshot} :
    acquirePendingSyncLease store db id holder = .ok (db', lease, snapshot) ↔
      readRootedSnapshot store db id = .ok snapshot ∧
        lease = nextId (db.leases.map LeaseRow.id) ∧
        db' = { db with
          leases := db.leases ++ [⟨lease, .pendingSync, holder, none, none⟩]
          leaseObjects := pinObjects lease db.leaseObjects
            (id :: dataDigests (manifestRecords snapshot)) } := by
  simp only [acquirePendingSyncLease, except_bind_eq_ok, Except.ok.injEq,
    Prod.mk.injEq]
  constructor
  · rintro ⟨snapshot, hsnapshot, rfl, rfl, rfl⟩
    exact ⟨hsnapshot, rfl, rfl⟩
  · rintro ⟨hsnapshot, rfl, rfl⟩
    exact ⟨snapshot, hsnapshot, rfl, rfl, rfl⟩

theorem mem_pinObjects {lease : Nat} {pins : List (Nat × ObjectDigest)}
    {digests : List ObjectDigest} {pin : Nat × ObjectDigest} :
    pin ∈ pinObjects lease pins digests ↔
      pin ∈ pins ∨ pin.1 = lease ∧ pin.2 ∈ digests := by
  unfold pinObjects
  induction digests generalizing pins with
  | nil => simp
  | cons digest digests ih =>
      rw [List.foldl_cons, ih]
      split
      · rename_i hpinned
        constructor
        · rintro (hpin | ⟨hlease, hdigest⟩)
          · exact .inl hpin
          · exact .inr ⟨hlease, List.mem_cons_of_mem _ hdigest⟩
        · rintro (hpin | ⟨rfl, hdigest⟩)
          · exact .inl hpin
          · rcases List.mem_cons.mp hdigest with heq | hdigest
            · exact .inl (by rwa [← heq] at hpinned)
            · exact .inr ⟨rfl, hdigest⟩
      · rw [List.mem_append, List.mem_singleton, List.mem_cons]
        constructor
        · rintro ((hpin | rfl) | ⟨hlease, hdigest⟩)
          · exact .inl hpin
          · exact .inr ⟨rfl, .inl rfl⟩
          · exact .inr ⟨hlease, .inr hdigest⟩
        · rintro (hpin | ⟨rfl, rfl | hdigest⟩)
          · exact .inl (.inl hpin)
          · exact .inl (.inr rfl)
          · exact .inr ⟨rfl, hdigest⟩

theorem filter_pinObjects {lease other : Nat} (hne : other ≠ lease)
    {pins : List (Nat × ObjectDigest)} {digests : List ObjectDigest} :
    ((pinObjects lease pins digests).filter fun pin => pin.1 = other) =
      pins.filter fun pin => pin.1 = other := by
  unfold pinObjects
  induction digests generalizing pins with
  | nil => rfl
  | cons digest digests ih =>
      rw [List.foldl_cons, ih]
      split
      · rfl
      · simp [List.filter_append, hne.symm]

/-- A granted lease is one new row above every id in the table, and no other
lease's pins move. -/
theorem Acquisition.take_eq_ok {store : ObjectStore P} {db db' : Db}
    {acquisition : Acquisition} {lease : Nat}
    (h : acquisition.take store db = .ok (db', lease)) :
    lease = nextId (db.leases.map LeaseRow.id) ∧
      (∃ row : LeaseRow, row.id = lease ∧ db'.leases = db.leases ++ [row]) ∧
      ∀ other ≠ lease, db'.pins other = db.pins other := by
  cases acquisition with
  | unlinked workspace path holder =>
      obtain ⟨_, _, _, _, _, hlease, rfl⟩ := acquireUnlinkedLease_eq_ok.mp h
      exact ⟨hlease, ⟨_, rfl, rfl⟩, fun _ _ => rfl⟩
  | pendingSync id holder =>
      simp only [take, except_bind_eq_ok, Prod.exists, Except.ok.injEq,
        Prod.mk.injEq] at h
      obtain ⟨_, _, snapshot, htaken, rfl, rfl⟩ := h
      obtain ⟨_, hlease, rfl⟩ := acquirePendingSyncLease_eq_ok.mp htaken
      refine ⟨hlease, ⟨_, rfl, rfl⟩, fun other hne => ?_⟩
      rw [Db.pins, filter_pinObjects hne]
      rfl

theorem releaseLease_of_none {db : Db} {lease : Nat}
    (h : db.lease lease = none) :
    releaseLease db lease = refuse (.unknownLease lease) := by
  simp only [releaseLease, h]

/-- An inode with neither name nor lease always goes. -/
theorem Db.dropInodeIfOrphaned_total (db : Db) (id : Nat) :
    ∃ db', db.dropInodeIfOrphaned id = .ok db' ∧ db'.leases = db.leases ∧
      db'.leaseObjects = db.leaseObjects := by
  by_cases horphan : db.linkCount id = 0 ∧ db.leaseCount id = 0
  · refine ⟨_, dropInodeIfOrphaned_eq_ok.mpr (.inl
      ⟨linkCount_eq_zero.mp horphan.1, leaseCount_eq_zero.mp horphan.2, rfl⟩),
      rfl, rfl⟩
  · exact ⟨db, by rw [dropInodeIfOrphaned, if_neg horphan], rfl, rfl⟩

/-- Releasing a lease in the table removes its rows and no others. -/
theorem releaseLease_of_some {db : Db} {lease : Nat} {row : LeaseRow}
    (h : db.lease lease = some row) :
    ∃ db', releaseLease db lease = .ok db' ∧
      db'.leases = db.leases.filter (fun row => row.id ≠ lease) ∧
      db'.leaseObjects = db.leaseObjects.filter fun pin => pin.1 ≠ lease := by
  obtain ⟨id, kind, holder, workspaceId, inode⟩ := row
  cases inode with
  | none =>
      exact ⟨db.deleteLease lease, by simp only [releaseLease, h], rfl, rfl⟩
  | some inode =>
      obtain ⟨db', hdropped, hleases, hpins⟩ :=
        (db.deleteLease lease).dropInodeIfOrphaned_total inode
      exact ⟨db', by simp only [releaseLease, h, hdropped], hleases, hpins⟩

/-! Lease ids as their holders see them: a holder keeps the id its acquisition
returned, and may hand it back any number of times. -/

/-- One acquisition that was granted, and whether its holder has released
it. -/
structure Ticket where
  row : LeaseRow
  pins : List ObjectDigest
  released : Bool
  deriving DecidableEq

structure Holders where
  db : Db
  tickets : List Ticket

inductive LeaseCall where
  | acquire (acquisition : Acquisition)
  | release (ticket : Nat)

namespace Holders

def grant (s : Holders) : Outcome (Db × Nat) → Holders
  | .ok (db, lease) =>
      match db.lease lease with
      | some row => ⟨db, s.tickets ++ [⟨row, db.pins lease, false⟩]⟩
      | none => s
  | .error _ => s

def release (s : Holders) (index : Nat) : Holders :=
  match s.tickets[index]? with
  | none => s
  | some ticket =>
      match releaseLease s.db ticket.row.id with
      | .ok db =>
          ⟨db, s.tickets.set index { ticket with released := true }⟩
      | .error _ => s

def step (store : ObjectStore P) (s : Holders) : LeaseCall → Holders
  | .acquire acquisition => s.grant (acquisition.take store s.db)
  | .release index => s.release index

def run (store : ObjectStore P) (s : Holders) (calls : List LeaseCall) :
    Holders :=
  calls.foldl (step store) s

/-- An id names one acquisition: a lease still held is in the tables as it was
granted, its release removes its own row only, and an id handed back is
refused. -/
structure Exclusive (s : Holders) : Prop where
  held : ∀ ticket ∈ s.tickets, ticket.released = false →
    ticket.row ∈ s.db.leases ∧ s.db.pins ticket.row.id = ticket.pins
  own : ∀ ticket ∈ s.tickets, ticket.released = false →
    ∃ db, releaseLease s.db ticket.row.id = .ok db ∧
      ∀ row, row ∈ db.leases ↔ row ∈ s.db.leases ∧ row ≠ ticket.row
  refused : ∀ ticket ∈ s.tickets, ticket.released = true →
    releaseLease s.db ticket.row.id = refuse (.unknownLease ticket.row.id)

/-- Every id handed back lies below an id that is still held. -/
def Below (s : Holders) : Prop :=
  ∀ ticket ∈ s.tickets, ticket.released = true →
    ∃ row ∈ s.db.leases, ticket.row.id < row.id

end Holders

/-- A lease is granted only while a lease newer than all the released ones is
held. -/
def LeaseCall.Allowed (store : ObjectStore P) (s : Holders) :
    LeaseCall → Prop
  | .acquire acquisition =>
      (∃ granted, acquisition.take store s.db = .ok granted) → s.Below
  | .release _ => True

namespace Holders

variable {store : ObjectStore P} {s : Holders}

/-- The tickets and the lease table tell the same story, and ids were handed
out without gaps. -/
structure Inv (s : Holders) : Prop where
  nodup : (s.db.leases.map LeaseRow.id).Nodup
  rows : ∀ row ∈ s.db.leases, ∃ ticket ∈ s.tickets,
    ticket.released = false ∧ ticket.row = row
  held : ∀ ticket ∈ s.tickets, ticket.released = false →
    ticket.row ∈ s.db.leases ∧ s.db.pins ticket.row.id = ticket.pins
  apart : ∀ (i j : Nat) (first second : Ticket), s.tickets[i]? = some first →
    s.tickets[j]? = some second → first.released = false →
    second.released = false → first.row.id = second.row.id → i = j
  gone : ∀ ticket ∈ s.tickets, ticket.released = true →
    ∀ row ∈ s.db.leases, row.id ≠ ticket.row.id
  positive : ∀ ticket ∈ s.tickets, 0 < ticket.row.id
  chain : ∀ ticket ∈ s.tickets, ∀ id, 0 < id → id ≤ ticket.row.id →
    ∃ other ∈ s.tickets, other.row.id = id

theorem Inv.lease (h : s.Inv) {row : LeaseRow} (hrow : row ∈ s.db.leases) :
    s.db.lease row.id = some row :=
  (findRow_eq_some h.nodup).mpr ⟨hrow, rfl⟩

theorem Inv.exclusive (h : s.Inv) : s.Exclusive where
  held := h.held
  own := by
    intro ticket hticket hheld
    have hrow := (h.held ticket hticket hheld).1
    obtain ⟨db, hdb, hleases, _⟩ := releaseLease_of_some (h.lease hrow)
    refine ⟨db, hdb, fun row => ?_⟩
    rw [hleases, List.mem_filter, decide_eq_true_eq]
    constructor
    · rintro ⟨hmem, hne⟩
      exact ⟨hmem, fun heq => hne (congrArg LeaseRow.id heq)⟩
    · rintro ⟨hmem, hne⟩
      exact ⟨hmem, fun heq => hne (eq_of_key h.nodup hmem hrow heq)⟩
  refused := by
    intro ticket hticket hreleased
    exact releaseLease_of_none
      (findRow_eq_none.mpr (h.gone ticket hticket hreleased))

theorem inv_start {db : Db} (h : db.leases = []) : Inv ⟨db, []⟩ where
  nodup := by simp [h]
  rows := by simp [h]
  held := by simp
  apart := by simp
  gone := by simp
  positive := by simp
  chain := by simp

/-- What a granted acquisition leaves. -/
theorem grant_eq {acquisition : Acquisition} {db : Db} {lease : Nat}
    (hinv : s.Inv) (h : acquisition.take store s.db = .ok (db, lease)) :
    ∃ row : LeaseRow, row.id = lease ∧ db.leases = s.db.leases ++ [row] ∧
      s.step store (.acquire acquisition) =
        ⟨db, s.tickets ++ [⟨row, db.pins lease, false⟩]⟩ := by
  obtain ⟨hlease, ⟨row, hid, hrows⟩, _⟩ := Acquisition.take_eq_ok h
  refine ⟨row, hid, hrows, ?_⟩
  have hkeys : (db.leases.map LeaseRow.id).Nodup := by
    rw [hrows]
    refine nodup_append_key hinv.nodup fun other hother => ?_
    rw [hid, hlease]
    exact nextId_ne (List.mem_map_of_mem hother)
  have hfound : db.lease lease = some row :=
    (findRow_eq_some hkeys).mpr ⟨by simp [hrows], hid⟩
  simp only [step, h, grant, hfound]

/-- The id a grant takes is one a holder was handed before or the next in
line. -/
theorem Inv.chain_next (h : s.Inv) {id : Nat} (hpos : 0 < id)
    (hle : id < nextId (s.db.leases.map LeaseRow.id)) :
    ∃ other ∈ s.tickets, other.row.id = id := by
  have hmax : ∀ ids : List Nat, id ≤ ids.foldr max 0 → ∃ top ∈ ids, id ≤ top := by
    intro ids hids
    induction ids with
    | nil => simp at hids; omega
    | cons head rest ih =>
        rw [List.foldr_cons] at hids
        rcases le_max_iff.mp hids with hhead | hrest
        · exact ⟨head, List.mem_cons_self, hhead⟩
        · obtain ⟨top, htop, hle⟩ := ih hrest
          exact ⟨top, List.mem_cons_of_mem _ htop, hle⟩
  obtain ⟨top, htop, hidle⟩ :=
    hmax (s.db.leases.map LeaseRow.id) (by unfold nextId at hle; omega)
  obtain ⟨row, hrow, rfl⟩ := List.mem_map.mp htop
  obtain ⟨ticket, hticket, _, rfl⟩ := h.rows row hrow
  exact h.chain ticket hticket id hpos hidle

theorem Inv.acquire (h : s.Inv) {acquisition : Acquisition}
    (hbelow : (∃ granted, acquisition.take store s.db = .ok granted) →
      s.Below) : (s.step store (.acquire acquisition)).Inv := by
  cases htake : acquisition.take store s.db with
  | error failure => simpa only [step, htake, grant] using h
  | ok granted =>
      obtain ⟨db, lease⟩ := granted
      obtain ⟨row, hid, hrows, hstep⟩ := grant_eq h htake
      obtain ⟨hlease, _, hpins⟩ := Acquisition.take_eq_ok htake
      have hfresh : ∀ other ∈ s.db.leases, other.id < row.id := by
        intro other hother
        rw [hid, hlease]
        exact lt_nextId (List.mem_map_of_mem hother)
      rw [hstep]
      refine ⟨?_, ?_, ?_, ?_, ?_, ?_, ?_⟩
      · rw [hrows]
        exact nodup_append_key h.nodup fun other hother =>
          (hfresh other hother).ne
      · intro other hother
        rw [hrows, List.mem_append, List.mem_singleton] at hother
        rcases hother with hother | rfl
        · obtain ⟨ticket, hticket, hheld⟩ := h.rows other hother
          exact ⟨ticket, List.mem_append_left _ hticket, hheld⟩
        · exact ⟨_, List.mem_append_right _ List.mem_cons_self, rfl, rfl⟩
      · intro ticket hticket hheld
        rw [hrows]
        rcases List.mem_append.mp hticket with hticket | hticket
        · obtain ⟨hmem, hpinned⟩ := h.held ticket hticket hheld
          refine ⟨List.mem_append_left _ hmem, ?_⟩
          rw [hpins _ (by rw [← hid]; exact (hfresh _ hmem).ne), hpinned]
        · rw [List.mem_singleton.mp hticket, ← hid]
          exact ⟨List.mem_append_right _ List.mem_cons_self, rfl⟩
      · intro i j first second hfirst hsecond hheld hheld' heq
        rw [List.getElem?_append] at hfirst hsecond
        split at hfirst <;> split at hsecond
        · exact h.apart i j first second hfirst hsecond hheld hheld' heq
        · have hmem := (h.held first (List.mem_of_getElem? hfirst) hheld).1
          obtain rfl := List.mem_singleton.mp (List.mem_of_getElem? hsecond)
          exact absurd heq (hfresh _ hmem).ne
        · have hmem := (h.held second (List.mem_of_getElem? hsecond) hheld').1
          obtain rfl := List.mem_singleton.mp (List.mem_of_getElem? hfirst)
          exact absurd heq.symm (hfresh _ hmem).ne
        · have hi := (List.getElem?_eq_some_iff.mp hfirst).1
          have hj := (List.getElem?_eq_some_iff.mp hsecond).1
          rw [List.length_singleton] at hi hj
          omega
      · intro ticket hticket hreleased other hother
        rcases List.mem_append.mp hticket with hold | hticket
        · rw [hrows, List.mem_append, List.mem_singleton] at hother
          rcases hother with hother | rfl
          · exact h.gone ticket hold hreleased other hother
          · obtain ⟨newer, hnewer, hlt⟩ :=
              hbelow ⟨_, htake⟩ ticket hold hreleased
            exact (hlt.trans (hfresh newer hnewer)).ne'
        · rw [List.mem_singleton.mp hticket] at hreleased
          cases hreleased
      · intro ticket hticket
        rcases List.mem_append.mp hticket with hticket | hticket
        · exact h.positive ticket hticket
        · rw [List.mem_singleton.mp hticket, hid, hlease]
          exact nextId_pos
      · intro ticket hticket id hpos hle
        rcases List.mem_append.mp hticket with hticket | hticket
        · obtain ⟨other, hother, heq⟩ := h.chain ticket hticket id hpos hle
          exact ⟨other, List.mem_append_left _ hother, heq⟩
        · rw [List.mem_singleton.mp hticket] at hle
          rcases Nat.lt_or_eq_of_le hle with hlt | rfl
          · rw [hid, hlease] at hlt
            obtain ⟨other, hother, heq⟩ := h.chain_next hpos hlt
            exact ⟨other, List.mem_append_left _ hother, heq⟩
          · exact ⟨_, List.mem_append_right _ List.mem_cons_self, rfl⟩

/-- The tickets once one of them has been handed back. -/
theorem getElem?_set_released {tickets : List Ticket} {index j : Nat}
    {ticket other : Ticket} (hticket : tickets[index]? = some ticket) :
    (tickets.set index { ticket with released := true })[j]? = some other ↔
      (j = index ∧ other = { ticket with released := true }) ∨
        (j ≠ index ∧ tickets[j]? = some other) := by
  have hlt := (List.getElem?_eq_some_iff.mp hticket).1
  rw [List.getElem?_set]
  by_cases heq : index = j
  · subst heq
    simp [hlt, @eq_comm _ _ other]
  · simp [heq, Ne.symm heq]

theorem Inv.released (h : s.Inv) {index : Nat} {ticket : Ticket} {db : Db}
    (hticket : s.tickets[index]? = some ticket)
    (hreleased : ticket.released = false)
    (hleases : db.leases = s.db.leases.filter
      fun row => row.id ≠ ticket.row.id)
    (hpins : db.leaseObjects = s.db.leaseObjects.filter
      fun pin => pin.1 ≠ ticket.row.id) :
    Inv ⟨db, s.tickets.set index { ticket with released := true }⟩ := by
  have hrow : ∀ row, row ∈ db.leases ↔
      row ∈ s.db.leases ∧ row.id ≠ ticket.row.id := by
    intro row
    rw [hleases, List.mem_filter, decide_eq_true_eq]
  have hcases : ∀ other ∈
      s.tickets.set index { ticket with released := true },
      other = { ticket with released := true } ∨
        ∃ j, j ≠ index ∧ s.tickets[j]? = some other := by
    intro other hother
    obtain ⟨j, hj⟩ := List.mem_iff_getElem?.mp hother
    rcases (getElem?_set_released hticket).mp hj with ⟨_, rfl⟩ | hold
    · exact .inl rfl
    · exact .inr ⟨j, hold⟩
  have hkept : ∀ (j : Nat) (other : Ticket), j ≠ index →
      s.tickets[j]? = some other →
      other ∈ s.tickets.set index { ticket with released := true } :=
    fun j other hne hother => List.mem_of_getElem?
      ((getElem?_set_released hticket).mpr (.inr ⟨hne, hother⟩))
  refine ⟨?_, ?_, ?_, ?_, ?_, ?_, ?_⟩
  · rw [hleases]
    exact nodup_filter_keys h.nodup _
  · intro row hmem
    obtain ⟨hold, hne⟩ := (hrow row).mp hmem
    obtain ⟨other, hother, hheld, rfl⟩ := h.rows row hold
    obtain ⟨j, hj⟩ := List.mem_iff_getElem?.mp hother
    refine ⟨other, hkept j other ?_ hj, hheld, rfl⟩
    rintro rfl
    rw [hticket, Option.some.injEq] at hj
    exact hne (by rw [hj])
  · intro other hother hheld
    rcases hcases other hother with rfl | ⟨j, hne, hj⟩
    · cases hheld
    · obtain ⟨hmem, hpinned⟩ := h.held other (List.mem_of_getElem? hj) hheld
      have hid : other.row.id ≠ ticket.row.id := fun heq =>
        hne (h.apart j index other ticket hj hticket hheld hreleased heq)
      refine ⟨(hrow _).mpr ⟨hmem, hid⟩, ?_⟩
      rw [← hpinned, Db.pins, Db.pins, hpins, List.filter_filter]
      congr 1
      refine List.filter_congr fun pin _ => ?_
      by_cases hpin : pin.1 = other.row.id
      · simp [hpin, hid]
      · simp [hpin]
  · intro i j first second hfirst hsecond hheld hheld' heq
    rcases (getElem?_set_released hticket).mp hfirst with
      ⟨_, rfl⟩ | ⟨_, hfirst⟩
    · cases hheld
    · rcases (getElem?_set_released hticket).mp hsecond with
        ⟨_, rfl⟩ | ⟨_, hsecond⟩
      · cases hheld'
      · exact h.apart i j first second hfirst hsecond hheld hheld' heq
  · intro other hother hgone row hmem
    obtain ⟨hold, hne⟩ := (hrow row).mp hmem
    rcases hcases other hother with rfl | ⟨j, _, hj⟩
    · exact hne
    · exact h.gone other (List.mem_of_getElem? hj) hgone row hold
  · intro other hother
    rcases hcases other hother with rfl | ⟨j, _, hj⟩
    · exact h.positive ticket (List.mem_of_getElem? hticket)
    · exact h.positive other (List.mem_of_getElem? hj)
  · intro other hother id hpos hle
    have hchain : ∃ found ∈ s.tickets, found.row.id = id := by
      rcases hcases other hother with rfl | ⟨j, _, hj⟩
      · exact h.chain ticket (List.mem_of_getElem? hticket) id hpos hle
      · exact h.chain other (List.mem_of_getElem? hj) id hpos hle
    obtain ⟨found, hfound, rfl⟩ := hchain
    obtain ⟨j, hj⟩ := List.mem_iff_getElem?.mp hfound
    by_cases hne : j = index
    · subst hne
      rw [hticket, Option.some.injEq] at hj
      refine ⟨{ ticket with released := true }, ?_, by rw [hj]⟩
      exact List.mem_of_getElem?
        ((getElem?_set_released hticket).mpr (.inl ⟨rfl, rfl⟩))
    · exact ⟨found, hkept j found hne hj, rfl⟩

theorem Inv.release (h : s.Inv) (index : Nat) :
    (s.step store (.release index)).Inv := by
  simp only [step, Holders.release]
  cases hticket : s.tickets[index]? with
  | none => exact h
  | some ticket =>
      have hmem := List.mem_of_getElem? hticket
      cases hreleased : ticket.released with
      | true =>
          simpa only [h.exclusive.refused ticket hmem hreleased, refuse]
            using h
      | false =>
          have hrow := (h.held ticket hmem hreleased).1
          obtain ⟨db, hdb, hleases, hpins⟩ :=
            releaseLease_of_some (h.lease hrow)
          simp only [hdb]
          exact h.released hticket hreleased hleases hpins

theorem Inv.step (h : s.Inv) {call : LeaseCall} (hallowed : call.Allowed store s) :
    (s.step store call).Inv := by
  cases call with
  | acquire acquisition => exact h.acquire hallowed
  | release index => exact h.release index

/-- A grant while every held id lies below a released one hands that id, or
another released one, out again. -/
theorem Inv.reused (h : s.Inv) {acquisition : Acquisition}
    (htaken : ∃ granted, acquisition.take store s.db = .ok granted)
    (hbelow : ¬ s.Below) :
    ¬ (s.step store (.acquire acquisition)).Exclusive := by
  obtain ⟨⟨db, lease⟩, htake⟩ := htaken
  obtain ⟨row, hid, hrows, hstep⟩ := grant_eq h htake
  obtain ⟨hlease, _, _⟩ := Acquisition.take_eq_ok htake
  simp only [Below, not_forall, not_exists, not_and, not_lt] at hbelow
  obtain ⟨ticket, hticket, hreleased, habove⟩ := hbelow
  have hle : lease ≤ ticket.row.id := by
    rw [hlease]
    refine nextId_le (h.positive ticket hticket) fun id hmem => ?_
    obtain ⟨other, hother, rfl⟩ := List.mem_map.mp hmem
    exact lt_of_le_of_ne (habove other hother)
      (h.gone ticket hticket hreleased other hother)
  obtain ⟨stale, hstale, hsame⟩ := h.chain ticket hticket lease
    (by rw [hlease]; exact nextId_pos) hle
  have hgone : stale.released = true := by
    by_contra hheld
    have hmem := (h.held stale hstale (by simpa using hheld)).1
    have hlt := lt_nextId (List.mem_map_of_mem (f := LeaseRow.id) hmem)
    rw [← hlease, hsame] at hlt
    exact lt_irrefl _ hlt
  intro hexclusive
  rw [hstep] at hexclusive
  have hrefused := hexclusive.refused stale (List.mem_append_left _ hstale)
    hgone
  obtain ⟨found, hfound⟩ : ∃ found, db.lease stale.row.id = some found := by
    refine Option.isSome_iff_exists.mp (findRow_isSome.mpr ⟨row, ?_, ?_⟩)
    · simp [hrows]
    · rw [hid, hsame]
  obtain ⟨_, hok, _, _⟩ := releaseLease_of_some hfound
  rw [hok] at hrefused
  cases hrefused

theorem Inv.exclusive_iff (h : s.Inv) {calls : List LeaseCall} :
    (∀ k ≤ calls.length, (s.run store (calls.take k)).Exclusive) ↔
      ∀ (k : Nat) (call : LeaseCall), calls[k]? = some call →
        call.Allowed store (s.run store (calls.take k)) := by
  induction calls generalizing s with
  | nil =>
      constructor
      · intro _ k call hcall
        simp at hcall
      · intro _ k _
        simpa [run] using h.exclusive
  | cons call calls ih =>
      constructor
      · intro hall
        have hallowed : call.Allowed store s := by
          cases call with
          | acquire acquisition =>
              intro htaken
              by_contra hbelow
              exact h.reused htaken hbelow (hall 1 (by simp))
          | release index => trivial
        have hrest := (ih (h.step hallowed)).mp fun k hk =>
          hall (k + 1) (by simpa using hk)
        intro k other hother
        cases k with
        | zero =>
            cases hother
            exact hallowed
        | succ k => exact hrest k other hother
      · intro hall
        have hrest := (ih (h.step (hall 0 call rfl))).mpr fun k other hother =>
          hall (k + 1) other hother
        intro k hk
        cases k with
        | zero => exact h.exclusive
        | succ k => exact hrest k (by simpa using hk)

/-- From a store nobody holds a lease of, ids name one acquisition for ever
exactly when no lease is granted after the newest ones have been released. -/
theorem lease_ids_exclusive_iff (store : ObjectStore P) (db : Db)
    (hnone : db.leases = []) (calls : List LeaseCall) :
    (∀ k ≤ calls.length, (run store ⟨db, []⟩ (calls.take k)).Exclusive) ↔
      ∀ (k : Nat) (call : LeaseCall), calls[k]? = some call →
        call.Allowed store (run store ⟨db, []⟩ (calls.take k)) :=
  (inv_start hnone).exclusive_iff

end Holders

/-! Two holders of one file. -/

namespace TwoHolders

def platform : Platform := ⟨asciiUnicode, sha256, fun _ => none⟩

def db : Db :=
  { Db.empty with
    workspaces := [⟨1, ['w'], 0, 1⟩]
    inodes := [⟨1, 1, .directory⟩, ⟨2, 1, .file false .blobV1 .none⟩]
    dirents := [⟨1, ['f'], 2⟩] }

def acquire (holder : Text) : LeaseCall :=
  .acquire (.unlinked ['w'] ['f'] holder)

/-- The first holder releases before the second acquires. -/
def calls : List LeaseCall :=
  [acquire ['a'], .release 0, acquire ['b']]

def run (calls : List LeaseCall) : Holders :=
  Holders.run (ObjectStore.empty : ObjectStore platform) ⟨db, []⟩ calls

end TwoHolders

/-- The first holder's second release takes the second holder's lease away. -/
theorem lease_id_comes_back :
    ¬ (TwoHolders.run TwoHolders.calls).Exclusive ∧
      (TwoHolders.run TwoHolders.calls).db.leases =
        [⟨1, .unlinked, ['b'], some 1, some 2⟩] ∧
      (TwoHolders.run (TwoHolders.calls ++ [.release 0])).db.leases = [] := by
  refine ⟨fun h => ?_, by decide, by decide⟩
  have hrefused := h.refused
    ⟨⟨1, .unlinked, ['a'], some 1, some 2⟩, [], true⟩ (by decide) rfl
  have hok : (releaseLease (TwoHolders.run TwoHolders.calls).db 1).isOk =
      true := by
    decide
  rw [hrefused] at hok
  cases hok

namespace TwoHolders

/-- The second holder acquires while the first one still holds its lease. -/
def overlapping : List LeaseCall :=
  [acquire ['a'], acquire ['b'], .release 0]

theorem overlapping_allowed (k : Nat) (call : LeaseCall)
    (hcall : overlapping[k]? = some call) :
    call.Allowed (ObjectStore.empty : ObjectStore platform)
      (run (overlapping.take k)) := by
  match k with
  | 0 =>
      cases hcall
      intro _ ticket hticket
      simp [run, Holders.run] at hticket
  | 1 =>
      cases hcall
      intro _ ticket hticket hreleased
      have hheld : ∀ ticket ∈ (run [acquire ['a']]).tickets,
          ticket.released = false := by
        decide
      rw [hheld ticket hticket] at hreleased
      cases hreleased
  | 2 =>
      cases hcall
      trivial
  | k + 3 => simp [overlapping] at hcall

end TwoHolders

theorem lease_ids_exclusive_two_holders :
    (TwoHolders.run TwoHolders.overlapping).Exclusive :=
  (Holders.lease_ids_exclusive_iff (ObjectStore.empty :
    ObjectStore TwoHolders.platform) TwoHolders.db rfl
      TwoHolders.overlapping).mpr TwoHolders.overlapping_allowed 3 le_rfl

end TensorFS
