import BlitzRouter.Ownership

namespace BlitzRouter
open Radix CompletionLoop

namespace Replica
variable {β : Type} {r r' : Replica β}

-- The engine step that an action of the completion loop works on.
def metering (r : Replica β) : Action → Option EngineStepOutput
  | .meter =>
    match r.stage with
    | .received m => some m
    | _ => none
  | _ => none

def delivering (r : Replica β) : Action → Option EngineStepOutput
  | .deliver =>
    match r.stage with
    | .metered m => some m
    | _ => none
  | _ => none

theorem metering_meter {m : EngineStepOutput} (stage : r.stage = .received m) : r.metering .meter = some m := by
  simp [metering,stage]

theorem delivering_deliver {m : EngineStepOutput} (stage : r.stage = .metered m) : r.delivering .deliver = some m := by
  simp [delivering,stage]

-- Outputs name requests the loop tracks, acknowledgements those the front end
-- aborted, and faults those in `entries`.
def NamesTracked (r : Replica β) (a : Action) : Prop :=
  (∀ m ∈ r.metering a, ∀ o ∈ m.outputs, (r.loop.find o.requestId).isSome = true) ∧
    ∀ m ∈ r.delivering a, (∀ id ∈ r.errorRx, (r.loop.entries.lookup id).isSome = true) ∧
      ∀ id ∈ m.abortedRequests, r.loop.exceptContext.states.dlookup id ∈
        [some (.waitingTerm false),some (.waitingTerm true),some (.exited true)]

instance (r : Replica β) (a : Action) : Decidable (NamesTracked r a) := inferInstanceAs (Decidable (_ ∧ _))

variable [BlockHash β] {ext : External} {blockSize : Nat}

-- A step whose action meets a condition on the state before it.
def Guarded (ext : External) (blockSize : Nat) (P : Replica β → Action → Prop) (r : Replica β) (a : Action) (r' : Replica β) :
    Prop :=
  Step ext blockSize r a r' ∧ P r a

def execIf (ext : External) (blockSize : Nat) (P : Replica β → Action → Prop) [∀ r a, Decidable (P r a)] :
    Replica β → List Action → Option (Replica β)
  | r,[] => some r
  | r,a::rest =>
    if r.Enabled a ∧ P r a then
      match r.perform ext blockSize a with
      | .ok r => execIf ext blockSize P r rest
      | .error _ => none
    else none

theorem run_execIf {P : Replica β → Action → Prop} [∀ r a, Decidable (P r a)] {from_ : Replica β} {past actions : List Action}
    (run : Run (Guarded ext blockSize P) from_ past r) (executed : r.execIf ext blockSize P actions = some r') :
    Run (Guarded ext blockSize P) from_ (past++actions) r' := by
  refine run.executed (fun _ => rfl) (fun r a rest t result => ?_) executed
  unfold execIf at result
  split at result
  · rename_i allowed
    split at result
    · rename_i next done
      exact ⟨next,⟨⟨allowed.1,done⟩,allowed.2⟩,result⟩
    · cases result
  · cases result

theorem Guarded.run {P : Replica β → Action → Prop} {from_ : Replica β} {history : List Action}
    (run : Run (Guarded ext blockSize P) from_ history r) : Run (Step ext blockSize) from_ history r :=
  run.weaken fun _ _ _ step => step.1

end Replica
end BlitzRouter
