import BlitzRouter.PolicyLowering

namespace BlitzRouter.Policy
open Radix

-- Two states of a matcher that no reader tells apart.
structure SameMatcher {β : Type} [BlockHash β] (a b : β) : Prop where
  epoch : BlockHash.epoch a = BlockHash.epoch b
  get : ∀ query, BlockHash.get a query = BlockHash.get b query

theorem SameMatcher.refl {β : Type} [BlockHash β] (a : β) : SameMatcher a a := ⟨rfl,fun _ => rfl⟩

-- What a build adds to the matcher of a replica beside the prefix tree, at a time
-- of the clock: the features of an observation, which may expire old samples, the
-- lock of `after_extra`, and the sample of a forward step with the batch size
-- before it. None of them touches the tree.
structure Flavour (β ε : Type) [BlockHash β] where
  look : Nat → ScheduleContext β → ε × β
  extra : Nat → Entry → Observation ε → ScheduleContext β → Option β
  stepped : Nat → Nat → β → β
  looked : ∀ now s, SameMatcher (look now s).2 s.blockHash
  extended : ∀ now entry cached s b, extra now entry cached s = some b → SameMatcher b s.blockHash
  sampled : ∀ now bs b, SameMatcher (stepped now bs b) b

-- The builds without such additions.
def Flavour.plain (β : Type) [BlockHash β] : Flavour β Unit where
  look := fun _ s => ((),s.blockHash)
  extra := fun _ _ _ s => some s.blockHash
  stepped := fun _ _ b => b
  looked := fun _ s => .refl s.blockHash
  extended := fun _ _ _ s b same => by cases same; exact .refl s.blockHash
  sampled := fun _ _ b => .refl b

-- Where a call of `schedule` stands between two critical sections: it has one slot
-- for each replica, or it chose one and `after_extra` is still to come.
inductive Call (ε : Type) where
  | idle
  | capturing (entry : Entry) (slots : List (Option (Observation ε)))
  | chosen (entry : Entry) (observations : List (Observation ε)) (idx : Nat)

-- What a step output does to the schedule context.
structure StepEffect where
  evictedBlockIds : List BlockId
  newBlocks : List (List Hash × List BlockId)
  metricDelta : LMetricDec

-- One policy task and the completion loops of its replicas, in critical sections
-- of the schedule contexts. `join_all` takes the locks of a capture in any order.
inductive ClusterMove (F : Type) where
  | schedule (entry : Entry)
  | capture (idx now : Nat)
  | apply (draw : F)
  | afterExtra (now : Nat)
  | step (idx : Nat) (effect : StepEffect) (now : Nat)

-- The list notes what the calls returned, first to last.
structure PolicyCluster (β ε γ : Type) where
  contexts : List (ScheduleContext β)
  gctx : γ
  call : Call ε
  commits : List Nat

namespace PolicyCluster
variable {β ε F γ : Type} [BlockHash β]

def start (contexts : List (ScheduleContext β)) (gctx : γ) : PolicyCluster β ε γ := ⟨contexts,gctx,.idle,[]⟩

def stepContext (flavour : Flavour β ε) (effect : StepEffect) (now : Nat) (context : ScheduleContext β) : Option (ScheduleContext β) := do
  let blockHash ← BlockHash.remove context.blockHash effect.evictedBlockIds
  let blockHash ← effect.newBlocks.foldlM (fun b (pair : List Hash × List BlockId) => (BlockHash.insert b pair.1 pair.2).map Prod.fst) blockHash
  some ⟨context.lmetric.subAssign effect.metricDelta,flavour.stepped now context.lmetric.bs blockHash⟩

variable [Zero F] [Add F] [Sub F] [Mul F] [Max F] [LE F] [DecidableLE F]

-- `none` is a panic, or a move that does not fit where the call stands.
def act (flavour : Flavour β ε) (policy : PolicyInput ε F γ) (c : PolicyCluster β ε γ) : ClusterMove F → Option (PolicyCluster β ε γ)
  | .schedule entry =>
    match c.call with
    | .idle => some {c with call := .capturing entry (c.contexts.map fun _ => none)}
    | _ => none
  | .capture idx now =>
    match c.call,c.contexts[idx]? with
    | .capturing entry slots,some context =>
      match slots[idx]?,observe (fun s => (flavour.look now s).1) entry idx context with
      | some none,.ok o =>
        some {c with contexts := c.contexts.set idx {context with blockHash := (flavour.look now context).2}
                     call := .capturing entry (slots.set idx (some o))}
      | _,_ => none
    | _,_ => none
  | .apply draw =>
    match c.call with
    | .capturing entry slots =>
      match slots.mapM id with
      | none => none
      | some observations =>
        match (policy.body c.gctx entry observations).eval draw (rootTarget observations) with
        | .error _ => none
        | .ok none => some {c with call := .idle}
        | .ok (some idx) =>
          match observations[idx]?,c.contexts[idx]? with
          | some cached,some context =>
            match applyDefaultAfter entry context cached.toObservation with
            | .error _ => none
            | .ok (entry,context) =>
              some {c with contexts := c.contexts.set idx context,call := .chosen entry observations idx,commits := c.commits++[idx]}
          | _,_ => none
    | _ => none
  | .afterExtra now =>
    match c.call with
    | .chosen entry observations idx =>
      match observations[idx]?,c.contexts[idx]? with
      | some cached,some context =>
        match flavour.extra now entry cached context with
        | none => none
        | some blockHash =>
          some {c with contexts := c.contexts.set idx {context with blockHash := blockHash}
                       gctx := policy.afterExtra observations idx c.gctx,call := .idle}
      | _,_ => none
    | _ => none
  | .step idx effect now =>
    match c.contexts[idx]? with
    | none => none
    | some context =>
      match stepContext flavour effect now context with
      | none => none
      | some context => some {c with contexts := c.contexts.set idx context}

def Step (flavour : Flavour β ε) (policy : PolicyInput ε F γ) (c : PolicyCluster β ε γ) (move : ClusterMove F) (c' : PolicyCluster β ε γ) : Prop :=
  c.act flavour policy move = some c'

def execute (flavour : Flavour β ε) (policy : PolicyInput ε F γ) (c : PolicyCluster β ε γ) (moves : List (ClusterMove F)) : Option (PolicyCluster β ε γ) :=
  moves.foldlM (act flavour policy) c

-- What a move does, without the order in which the code looks things up.
inductive Moves (flavour : Flavour β ε) (policy : PolicyInput ε F γ) : PolicyCluster β ε γ → ClusterMove F → PolicyCluster β ε γ → Prop where
  | schedule {c : PolicyCluster β ε γ} {entry : Entry} : c.call = .idle →
      Moves flavour policy c (.schedule entry) {c with call := .capturing entry (c.contexts.map fun _ => none)}
  | capture {c : PolicyCluster β ε γ} {entry : Entry} {slots : List (Option (Observation ε))} {idx now : Nat} {context : ScheduleContext β}
      {o : Observation ε} : c.call = .capturing entry slots → c.contexts[idx]? = some context → slots[idx]? = some none →
      observe (fun s => (flavour.look now s).1) entry idx context = .ok o →
      Moves flavour policy c (.capture idx now) {c with
        contexts := c.contexts.set idx {context with blockHash := (flavour.look now context).2}
        call := .capturing entry (slots.set idx (some o))}
  | decline {c : PolicyCluster β ε γ} {entry : Entry} {observations : List (Observation ε)} {draw : F} :
      c.call = .capturing entry (observations.map some) → (policy.body c.gctx entry observations).eval draw (rootTarget observations) = .ok none →
      Moves flavour policy c (.apply draw) {c with call := .idle}
  | commit {c : PolicyCluster β ε γ} {entry next : Entry} {observations : List (Observation ε)} {draw : F} {idx : Nat} {cached : Observation ε}
      {context applied : ScheduleContext β} : c.call = .capturing entry (observations.map some) →
      (policy.body c.gctx entry observations).eval draw (rootTarget observations) = .ok (some idx) →
      observations[idx]? = some cached → c.contexts[idx]? = some context →
      applyDefaultAfter entry context cached.toObservation = .ok (next,applied) →
      Moves flavour policy c (.apply draw) {c with
        contexts := c.contexts.set idx applied,call := .chosen next observations idx,commits := c.commits++[idx]}
  | afterExtra {c : PolicyCluster β ε γ} {entry : Entry} {observations : List (Observation ε)} {idx now : Nat} {cached : Observation ε}
      {context : ScheduleContext β} {blockHash : β} : c.call = .chosen entry observations idx → observations[idx]? = some cached →
      c.contexts[idx]? = some context → flavour.extra now entry cached context = some blockHash →
      Moves flavour policy c (.afterExtra now) {c with
        contexts := c.contexts.set idx {context with blockHash := blockHash}
        gctx := policy.afterExtra observations idx c.gctx,call := .idle}
  | step {c : PolicyCluster β ε γ} {idx now : Nat} {effect : StepEffect} {context next : ScheduleContext β} : c.contexts[idx]? = some context →
      stepContext flavour effect now context = some next →
      Moves flavour policy c (.step idx effect now) {c with contexts := c.contexts.set idx next}

variable {flavour : Flavour β ε} {policy : PolicyInput ε F γ} {c c' : PolicyCluster β ε γ} {move : ClusterMove F}

theorem filled_slots {slots : List (Option (Observation ε))} {observations : List (Observation ε)} (all : slots.mapM id = some observations) :
    slots = observations.map some := by
  induction slots generalizing observations with
  | nil =>
    cases all
    rfl
  | cons slot slots ih =>
    simp only [List.mapM_cons,id,bind,Option.bind] at all
    cases slot with
    | none => cases all
    | some o =>
      cases rest : slots.mapM id with
      | none => simp [rest] at all
      | some os =>
        simp only [rest] at all
        cases all
        rw [ih rest]
        rfl

theorem step_moves (step : Step flavour policy c move c') : Moves flavour policy c move c' := by
  unfold Step at step
  cases move with
  | schedule entry =>
    simp only [act] at step
    split at step
    · rename_i idle
      cases step
      exact .schedule idle
    · cases step
  | capture idx now =>
    simp only [act] at step
    split at step
    · rename_i entry slots context call present
      split at step
      · rename_i o free seen
        cases step
        exact .capture call present free seen
      · cases step
    · cases step
  | apply draw =>
    simp only [act] at step
    split at step
    · rename_i entry slots call
      split at step
      · cases step
      · rename_i observations all
        rw [filled_slots all] at call
        split at step
        · cases step
        · rename_i declined
          cases step
          exact .decline call declined
        · rename_i idx chose
          split at step
          · rename_i cached context at_ present
            split at step
            · cases step
            · rename_i next applied result
              cases step
              exact .commit call chose at_ present result
          · cases step
    · cases step
  | afterExtra now =>
    simp only [act] at step
    split at step
    · rename_i entry observations idx call
      split at step
      · rename_i cached context at_ present
        split at step
        · cases step
        · rename_i blockHash extended
          cases step
          exact .afterExtra call at_ present extended
      · cases step
    · cases step
  | step idx effect now =>
    simp only [act] at step
    split at step
    · cases step
    · rename_i context present
      split at step
      · cases step
      · rename_i next stepped
        cases step
        exact .step present stepped

end PolicyCluster
end BlitzRouter.Policy
