import ComputerAlgebra.Failure

/-!
# Operations that can be asked to stop

A request to stop is remembered until a running operation comes to a checkpoint. There the operation
fails, and the request is forgotten. A request that finds nothing running waits for the next
operation that has a checkpoint; failures leave it where it is.
-/

namespace ComputerAlgebra

/-- A computation that may fail, over the memory of whether a request to stop is pending. -/
abbrev Job := ExceptT Failure (StateM Bool)

namespace Job

/-- Fail if a request to stop is pending, and forget it. -/
def checkpoint : Job Unit := do
  if ← getModify fun _ => false then throw .aborted

/-- Ask the operation at the next checkpoint to stop. -/
def requestAbort : Job Unit := set true

/-- Run a job with or without a pending request. -/
def run {α : Type} (job : Job α) (pending : Bool) : Except Failure α × Bool :=
  Id.run (StateT.run (ExceptT.run job) pending)

@[simp] theorem run_pure {α : Type} (a : α) (pending : Bool) :
    run (pure a) pending = (.ok a, pending) := rfl

@[simp] theorem run_throw {α : Type} (f : Failure) (pending : Bool) :
    run (throw f : Job α) pending = (.error f, pending) := rfl

/-- A job that fails ends the whole computation and leaves the request as it is. -/
@[simp] theorem run_bind {α β : Type} (job : Job α) (next : α → Job β) (pending : Bool) :
    run (job >>= next) pending =
      match run job pending with
      | (.ok a, pending) => run (next a) pending
      | (.error f, pending) => (.error f, pending) := by
  cases h : run job pending with
  | mk result left =>
    change ExceptT.bindCont next (run job pending).1 (run job pending).2 = _
    rw [h]
    cases result <;> rfl

/-- A checkpoint fails exactly if there is a request, and leaves none. -/
@[simp] theorem run_checkpoint (pending : Bool) :
    run checkpoint pending = (if pending then .error .aborted else .ok (), false) := by
  cases pending <;> rfl

/-- Asking for a stop has no checkpoint: it succeeds, and leaves a request behind. -/
@[simp] theorem run_requestAbort (pending : Bool) :
    run requestAbort pending = (.ok (), true) := rfl

end Job

end ComputerAlgebra
