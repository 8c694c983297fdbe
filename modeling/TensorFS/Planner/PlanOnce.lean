import TensorFS.Planner.Gguf
import TensorFS.Planner.Safetensors

namespace TensorFS

open Data

/-! Choosing a planner. -/

def validated (plan : Plan) : Except (Failure PlanError) Plan := do
  refusing plan.validate
  .ok plan

def ggufPlan (P : Platform) (source : ByteSource)
    (contract : Option Contract) (limit : Nat := Fusion.maxRunCapacity) :
    Except (Failure PlanError) (Option Plan) :=
  if 24 ≤ source.len then Gguf.tryPlan P source contract limit else .ok none

def safetensorsOrBlobPlan (P : Platform) (source : ByteSource)
    (contract : Option Contract) (limit : Nat := Fusion.maxRunCapacity) :
    Except (Failure PlanError) Plan := do
  match ← Safetensors.tryPlan P source contract limit with
  | some plan => validated plan
  | none => validated (blobPlan source.len)

def planOnce (P : Platform) (source : ByteSource)
    (contract : Option Contract) (limit : Nat := Fusion.maxRunCapacity) :
    Except (Failure PlanError) Plan :=
  if source.len < 10 then validated (blobPlan source.len)
  else do
    match ← ggufPlan P source contract limit with
    | some plan => validated plan
    | none => safetensorsOrBlobPlan P source contract limit

def planWith (P : Platform) (source : ByteSource)
    (contract : Option Contract) (limit : Nat := Fusion.maxRunCapacity) :
    Except (Failure PlanError) Plan := do
  refusing source.checkUnchanged
  let result := planOnce P source contract limit
  refusing source.checkUnchanged
  result

end TensorFS
