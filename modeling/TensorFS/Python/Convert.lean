import TensorFS.Python.Writer

namespace TensorFS.Python

open Data

/-! Applying a conversion plan to one file. -/

inductive OpKind where
  | inherit
  | cast
  | quantizeRowwise
  deriving DecidableEq

/-- One tensor's fate. -/
structure Op where
  kind : OpKind
  name : Text
  reason : Text
  toDtype : Text := []
  emitsScale : Text := []
  deriving DecidableEq

/-- What a kernel hands back for one tensor. -/
structure Block where
  dtype : Text
  shape : List Int
  data : Bytes
  deriving DecidableEq

/-- The kernels of each kind, where they are supplied.  A kernel reads its view
from the store. -/
structure Kernels where
  cast : Option (Cas → TensorView → Op → Except PyError Block)
  quantizeRowwise : Option (Cas → TensorView → Op → Except PyError (Block × Block))

section

variable (int : Text → Option Int) (sha256 : Bytes → Digest)
  (disk : Cas → Bytes → Option PyError) (kernels : Kernels)
  (reader : Text → Option TensorView)

def addBlock (name : Text) (block : Block) : Method Unit :=
  add int sha256 disk name block.dtype (.ok block.shape) [.ok block.data]

/-- The same tensor again, by its bytes. -/
def addBytes (view : TensorView) : Method Unit := do
  let cas ← Client.read Desk.cas
  let data ← Client.orFail (view.tobytes sha256 cas)
  add int sha256 disk view.name view.dtype (.ok view.shape) [.ok data]

def supplied {α : Type} (op : Op) : Option α → Method α
  | some kernel => pure kernel
  | none => Client.fail
      (.other ("ConversionRefused: no kernel supplied for ".toList ++ op.name))

def applyOp (op : Op) : Method Unit :=
  match reader op.name with
  | none => Client.fail (.other "KeyError".toList)
  | some view =>
      match op.kind with
      | .inherit =>
          onTensorError (inherit view) (addBytes int sha256 disk view)
      | .cast => do
          let kernel ← supplied op kernels.cast
          let cas ← Client.read Desk.cas
          let block ← Client.orFail (kernel cas view op)
          addBlock int sha256 disk op.name block
      | .quantizeRowwise => do
          let kernel ← supplied op kernels.quantizeRowwise
          let cas ← Client.read Desk.cas
          let blocks ← Client.orFail (kernel cas view op)
          addBlock int sha256 disk op.name blocks.1
          addBlock int sha256 disk op.emitsScale blocks.2

def applyOps : List Op → Method Unit
  | [] => pure ()
  | op :: ops => do
      applyOp int sha256 disk kernels reader op
      applyOps ops

end

/-! What a call that raises leaves behind. -/

/-- The same pending tensors and the same claimed names. -/
def TensorWriter.Same (before after : TensorWriter) : Prop :=
  after.pending = before.pending ∧ ∀ name, name ∈ after.names ↔ name ∈ before.names

def Raises (call : Method Unit) (desk desk' : Desk) : Prop :=
  ∃ stop, call desk = (.error stop, desk')

/-- The loop over the operations comes to `op` with the desk `desk'`. -/
def Meets (int : Text → Option Int) (sha256 : Bytes → Digest)
    (disk : Cas → Bytes → Option PyError) (kernels : Kernels)
    (reader : Text → Option TensorView) (ops : List Op) (desk : Desk) (op : Op)
    (desk' : Desk) : Prop :=
  ∃ before after, ops = before ++ op :: after ∧
    applyOps int sha256 disk kernels reader before desk = (.ok (), desk')

/-- The writer would take the tensor, but its source's grid does not give it
whole objects. -/
def RefusedForGrid (writer : TensorWriter) (view : TensorView) : Prop :=
  view.name ∉ writer.names ∧ view.format = writer.format ∧
    view.objectSpan = none

section

variable {int : Text → Option Int} {sha256 : Bytes → Digest}
  {disk : Cas → Bytes → Option PyError}

abbrev KeepsNames {α : Type} (m : Method α) : Prop :=
  Client.Keeps (fun desk => desk.writer.names) m

theorem putBytes_keeps (data : Bytes) :
    KeepsNames (putBytes sha256 disk data) := by
  refine (Client.Keeps.read _).bind fun cas => ?_
  split
  · exact .pure _
  · split
    · exact .fail _
    · exact Client.Keeps.bind (fun _ => rfl) fun _ => .pure _

theorem flush_keeps (final : Bool) (rounds : Nat) (state : Carry) :
    KeepsNames (flush sha256 disk final rounds state) := by
  induction rounds generalizing state with
  | zero => exact .pure _
  | succ rounds ih =>
      rw [flush]
      split
      · exact (putBytes_keeps _).bind fun ref => ih _
      · exact .pure _

theorem feed_keeps (data : Yields Bytes) (state : Carry) :
    KeepsNames (feed sha256 disk data state) := by
  induction data generalizing state with
  | nil => exact flush_keeps _ _ _
  | cons block blocks ih =>
      exact (Client.Keeps.orFail block).bind fun block =>
        (flush_keeps _ _ _).bind fun state => ih state

theorem append_keeps (item : Pending) : KeepsNames (append item) :=
  fun _ => rfl

theorem addClaimed_keeps (name dtype : Text) (shape : Except PyError (List Int))
    (data : Yields Bytes) :
    KeepsNames (addClaimed int sha256 disk name dtype shape data) := by
  refine (Client.Keeps.read _).bind fun writer => ?_
  refine (Client.Keeps.check _ _).bind fun _ => ?_
  refine (Client.Keeps.orFail shape).bind fun dimensions => ?_
  refine (feed_keeps data {}).bind fun state => ?_
  refine (Client.Keeps.orFail _).bind fun expected => ?_
  exact (Client.Keeps.check _ _).bind fun _ => append_keeps _

theorem adopt_keeps (view : TensorView) : KeepsNames (adopt view) := by
  refine (Client.Keeps.read _).bind fun writer => ?_
  refine (Client.Keeps.check _ _).bind fun _ => ?_
  split
  · exact .fail _
  · exact append_keeps _

theorem claim_of_mem {name : Text} {desk : Desk}
    (h : name ∈ desk.writer.names) :
    claim name desk = (.error (.failed (.tensor (.twice name))), desk) := by
  unfold claim
  rw [Client.bind_of_ok (Client.read_run _ _)]
  exact Client.bind_of_error (Client.check_of_not _ _ (not_not.mpr h))

theorem claim_of_not_mem {name : Text} {desk : Desk}
    (h : name ∉ desk.writer.names) :
    claim name desk = (.ok (), { desk with writer :=
      { desk.writer with names := name :: desk.writer.names } }) := by
  unfold claim
  rw [Client.bind_of_ok (Client.read_run _ _),
    Client.bind_of_ok (Client.check_of _ _ h)]
  rfl

/-- A method that claims a name first gives it back only if it had it. -/
theorem same_iff_of_claim {name : Text} {rest : Method Unit}
    (hrest : KeepsNames rest) {desk desk' : Desk}
    (h : Raises (claim name >>= fun _ => rest) desk desk') :
    desk.writer.Same desk'.writer ↔ name ∈ desk.writer.names := by
  obtain ⟨stop, hrun⟩ := h
  constructor
  · intro hsame
    by_contra hnew
    rw [Client.bind_of_ok (claim_of_not_mem hnew)] at hrun
    have hnames := hrest { desk with writer :=
      { desk.writer with names := name :: desk.writer.names } }
    rw [hrun] at hnames
    dsimp only at hnames
    have hmem : name ∈ desk'.writer.names := by
      rw [hnames]
      exact List.mem_cons_self
    exact hnew ((hsame.2 name).mp hmem)
  · intro hold
    rw [Client.bind_of_error (claim_of_mem hold)] at hrun
    cases hrun
    exact ⟨rfl, fun _ => Iff.rfl⟩

theorem add_same_iff {name dtype : Text} {shape : Except PyError (List Int)}
    {data : Yields Bytes} {desk desk' : Desk}
    (h : Raises (add int sha256 disk name dtype shape data) desk desk') :
    desk.writer.Same desk'.writer ↔ name ∈ desk.writer.names :=
  same_iff_of_claim (addClaimed_keeps name dtype shape data) h

theorem inherit_same_iff {view : TensorView} {desk desk' : Desk}
    (h : Raises (inherit view) desk desk') :
    desk.writer.Same desk'.writer ↔ view.name ∈ desk.writer.names :=
  same_iff_of_claim (adopt_keeps view) h

/-! The fallback of the loop. -/

theorem addBytes_of_mem {view : TensorView} {desk : Desk}
    (h : view.name ∈ desk.writer.names) :
    ∃ desk', Raises (addBytes int sha256 disk view) desk desk' := by
  unfold Raises addBytes
  rw [Client.bind_of_ok (Client.read_run _ _)]
  cases view.tobytes sha256 desk.cas with
  | error error =>
      rw [Client.bind_of_error (Client.orFail_error _ _)]
      exact ⟨_, _, rfl⟩
  | ok data =>
      rw [Client.bind_of_ok (Client.orFail_ok _ _)]
      unfold add
      rw [Client.bind_of_error (claim_of_mem h)]
      exact ⟨_, _, rfl⟩

theorem inherit_refused {view : TensorView} {desk : Desk}
    (h : RefusedForGrid desk.writer view) :
    ∃ desk', inherit view desk = (.error (.failed
        (.tensor (.unaligned view.name view.file.path))), desk') ∧
      view.name ∈ desk'.writer.names := by
  obtain ⟨hnew, hformat, hspan⟩ := h
  refine ⟨{ desk with writer :=
    { desk.writer with names := view.name :: desk.writer.names } }, ?_,
    List.mem_cons_self⟩
  unfold inherit adopt
  rw [Client.bind_of_ok (claim_of_not_mem hnew),
    Client.bind_of_ok (Client.read_run _ _),
    Client.bind_of_ok (Client.check_of _ _ hformat), hspan]
  rfl

variable {kernels : Kernels} {reader : Text → Option TensorView}

/-- The name stays claimed, so the fallback is refused too. -/
theorem applyOp_refused {op : Op} {view : TensorView} {desk : Desk}
    (hkind : op.kind = .inherit) (hview : reader op.name = some view)
    (h : RefusedForGrid desk.writer view) :
    ∃ desk', Raises (applyOp int sha256 disk kernels reader op) desk desk' := by
  obtain ⟨middle, hinherit, hmem⟩ := inherit_refused h
  have hfallback : ∃ desk', Raises (addBytes int sha256 disk view) middle desk' :=
    addBytes_of_mem hmem
  obtain ⟨desk', stop, hrun⟩ := hfallback
  refine ⟨desk', stop, ?_⟩
  unfold applyOp
  rw [hview, hkind]
  simp only [onTensorError, hinherit]
  exact hrun

end

/-- A call that raises leaves the writer as it was exactly where the name was
claimed before; and a fallback of the loop succeeds exactly where there is
none. -/
theorem raises_same_iff (int : Text → Option Int) (sha256 : Bytes → Digest)
    (disk : Cas → Bytes → Option PyError) :
    (∀ name dtype shape data desk desk',
      Raises (add int sha256 disk name dtype shape data) desk desk' →
        (desk.writer.Same desk'.writer ↔ name ∈ desk.writer.names)) ∧
    (∀ view desk desk', Raises (inherit view) desk desk' →
      (desk.writer.Same desk'.writer ↔ view.name ∈ desk.writer.names)) ∧
    ∀ kernels reader ops desk,
      (∀ op view desk', Meets int sha256 disk kernels reader ops desk op desk' →
        op.kind = .inherit → reader op.name = some view →
          RefusedForGrid desk'.writer view →
            ∃ last, applyOp int sha256 disk kernels reader op desk' =
              (.ok (), last)) ↔
      ∀ op view desk', Meets int sha256 disk kernels reader ops desk op desk' →
        op.kind = .inherit → reader op.name = some view →
          ¬ RefusedForGrid desk'.writer view := by
  refine ⟨fun _ _ _ _ _ _ => add_same_iff, fun _ _ _ => inherit_same_iff, ?_⟩
  intro kernels reader ops desk
  constructor
  · intro h op view desk' hmeets hkind hview hrefused
    obtain ⟨last, hok⟩ := h op view desk' hmeets hkind hview hrefused
    have hraises : ∃ last,
        Raises (applyOp int sha256 disk kernels reader op) desk' last :=
      applyOp_refused hkind hview hrefused
    obtain ⟨last', stop, hrun⟩ := hraises
    rw [hok] at hrun
    cases hrun
  · intro h op view desk' hmeets hkind hview hrefused
    exact absurd hrefused (h op view desk' hmeets hkind hview)

/-- Two four-byte tensors in one object, as the packing chunker left them. -/
def packedView : TensorView where
  name := "w".toList
  file :=
    { path := "m.safetensors".toList
      sizeBytes := 8
      digest := ⟨sha256 (List.replicate 8 0)⟩
      chunks := [] }
  format := .safetensors
  dtype := "F32".toList
  shape := [1]
  nbytes := 4
  offset := 4

def packedDesk : Desk where
  cas := [(⟨sha256 (List.replicate 8 0)⟩, List.replicate 8 0)]
  writer := { path := "m.safetensors".toList, format := .safetensors }

/-- A name stays claimed by a call that raised, so a tensor whose grid is not
aligned can be carried over in neither way. -/
theorem raised_stays_claimed :
    (∃ desk', Raises (add (fun _ => none) sha256 (fun _ _ => none) "w".toList
        "F99".toList (.ok []) []) packedDesk desk' ∧
      ¬ packedDesk.writer.Same desk'.writer) ∧
    (∃ desk', Raises (inherit packedView) packedDesk desk' ∧
      ¬ packedDesk.writer.Same desk'.writer) ∧
    RefusedForGrid packedDesk.writer packedView ∧
    (applyOp (fun _ => none) sha256 (fun _ _ => none) ⟨none, none⟩
      (fun _ => some packedView)
      { kind := .inherit, name := "w".toList, reason := [] } packedDesk).1 =
        .error (.failed (.tensor (.twice "w".toList))) := by
  have hsame : ∀ {desk' : Desk}, "w".toList ∈ desk'.writer.names →
      ¬ packedDesk.writer.Same desk'.writer := by
    intro desk' hmem hsame
    have hnone := (hsame.2 _).mp hmem
    cases hnone
  have hrefused : RefusedForGrid packedDesk.writer packedView :=
    ⟨List.not_mem_nil, rfl, by decide +kernel⟩
  refine ⟨⟨_, ⟨_, rfl⟩, hsame List.mem_cons_self⟩, ?_, hrefused, ?_⟩
  · obtain ⟨desk', hinherit, hmem⟩ := inherit_refused hrefused
    exact ⟨desk', ⟨_, hinherit⟩, hsame hmem⟩
  · decide +kernel

end TensorFS.Python
