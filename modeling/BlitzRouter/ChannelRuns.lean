import BlitzRouter.Generation
import BlitzRouter.LoopPlaces
import BlitzRouter.Ownership

namespace BlitzRouter
open Radix CompletionLoop Infer

namespace CompletionLoop

-- While its client listens, the channel of a request that the loop serves carries
-- what its callbacks sent, and the one of a request on its way out a whole life.
def Serving (ext : External) (tx : ResponseTx) : Prop :=
  tx.reads = none → ∃ callbacks : List Callback, tx.sent = callbacks.flatMap (Callback.messages ext)

def Lived (ext : External) (tx : ResponseTx) : Prop :=
  tx.reads = none → ∃ life : Infer.Life, tx.sent = life.callbacks.flatMap (Callback.messages ext)++life.ending.messages

def living (ext : External) : Promises where
  serving _ entry := Serving ext entry.responseTx
  excepted _ entry := Lived ext entry.responseTx
  left entry := Lived ext entry.responseTx

variable {ext : External} {s s' : CompletionLoop} {entry : Entry} {o : RequestStepOutput} {id : RequestId}
  {outputs : List RequestStepOutput} {ids errors : List RequestId}

theorem living_lasting (ext : External) : (living ext).Lasting where
  serving _ _ _ same serving := by
    simp only [living,same]
    exact serving
  excepted _ _ _ same lived := by
    simp only [living,same]
    exact lived
  left _ _ _ same lived := by
    simp only [living,same]
    exact lived
  yields _ _ _ lived := lived

theorem living_spares (ext : External) (rid : RequestId) : (living ext).Spares (living ext) rid :=
  ⟨fun _ _ _ serving => serving,fun _ _ lived => lived,fun _ lived => lived⟩

theorem living_new (ext : External) : CompletionLoop.new.Upholds (living ext) :=
  ⟨by simp [CompletionLoop.new],by simp [CompletionLoop.new,ExtContext.new],nofun,nofun⟩

theorem serving_fresh (ext : External) (reads : Option Nat) : Serving ext ⟨[],reads⟩ := fun _ => ⟨[],rfl⟩

theorem run_reads (callback : Callback) : (callback.run ext entry).responseTx.reads = entry.responseTx.reads := by
  cases callback with
  | onPrefill ids =>
    obtain ⟨tx,isOpen,sent,extended⟩ := onPrefill_extends ext entry ids
    simp only [Callback.run,sent]
    exact extended.reads
  | onDecode ids => exact (ResponseTx.sendTokens_extends ext ids entry.responseTx).reads

theorem Serving.run (serving : Serving ext entry.responseTx) (callback : Callback) : Serving ext (callback.run ext entry).responseTx := by
  intro connected
  rw [run_reads] at connected
  obtain ⟨callbacks,carried⟩ := serving connected
  have shape : entry = {entry with responseTx := ⟨callbacks.flatMap (Callback.messages ext),none⟩} := by
    rw [← carried,← connected]
  refine ⟨callbacks++[callback],?_⟩
  rw [shape,run_open,List.flatMap_append,List.flatMap_singleton]

-- The three ways to end a life.
theorem Serving.left {tx : ResponseTx} (serving : Serving ext tx) : Lived ext tx := by
  intro connected
  obtain ⟨callbacks,carried⟩ := serving connected
  exact ⟨⟨callbacks,.left⟩,by simp [carried,LifeEnd.messages]⟩

theorem Serving.close {tx : ResponseTx} (serving : Serving ext tx) (ending : LifeEnd) {last : Message} (final : ending.messages = [last]) :
    Lived ext (tx.send last).1 := by
  intro connected
  rcases tx.send_cases last with sent | ⟨lost,gone⟩
  · rw [sent] at connected ⊢
    obtain ⟨callbacks,carried⟩ := serving connected
    exact ⟨⟨callbacks,ending⟩,by simp only [carried,final]⟩
  · rw [lost] at connected
    exact absurd connected gone

theorem Upholds.passOutput (upholds : s.Upholds (living ext)) (result : s.passOutput ext o = .ok s') : s'.Upholds (living ext) := by
  obtain ⟨phases,_,⟨absent,rfl⟩ | ⟨entry,outcome,found,served,rfl⟩⟩ := passOutput_cases result
  · exact upholds.unknown (living_spares ext o.requestId) absent
  · obtain ⟨callback,ran⟩ : ∃ callback : Callback, outcome.1 = callback.run ext entry := by
      rcases served with rfl | rfl
      · exact ⟨.onPrefill o.newTokenIds,rfl⟩
      · exact ⟨.onDecode o.newTokenIds,rfl⟩
    have serving : Serving ext outcome.1.responseTx := by
      rw [ran]
      exact Serving.run (upholds.entries _ entry found) callback
    exact upholds.delivered (living_spares ext o.requestId) (fun _ => serving) fun _ => serving.close .finished rfl

theorem Upholds.slowPath (upholds : s.Upholds (living ext)) (result : s.slowPath ext outputs = .ok s') : s'.Upholds (living ext) :=
  slowPath_steps (P := Upholds (living ext)) upholds (fun _ _ _ _ before one => before.passOutput one) result

theorem Upholds.abortEntries (upholds : s.Upholds (living ext)) (result : s.abortEntries ids = .ok s') : s'.Upholds (living ext) := by
  refine abortEntries_steps (P := Upholds (living ext)) upholds ?_ result
  intro s id s' _ before one
  obtain ⟨entry,phases,found,_,rfl⟩ := abortEntry_cases one
  refine before.withdraw ?_
  exact Serving.left (before.entries id entry found)

theorem Upholds.onBackendFault (upholds : s.Upholds (living ext)) (result : s.onBackendFault errors = .ok s') : s'.Upholds (living ext) := by
  refine onBackendFault_steps (P := Upholds (living ext)) upholds ?_ result
  intro s id s' _ before one
  rcases faultEntry_cases one with rfl | ⟨entry,phases,failed,found,_,rfl,rfl⟩
  · exact before
  · refine before.withdraw ?_
    exact Serving.close (before.entries id entry found) .faulted rfl

theorem Upholds.passGenerations {m : EngineStepOutput} {left : List Entry} (upholds : s.Upholds (living ext)) (sound : s.Sound)
    (result : s.passGenerations ext m errors = .ok (s',left)) : s'.Upholds (living ext) := by
  obtain ⟨s₁,s₂,s₃,s₄,s₅,terminated,dropped,slow,aborted,failed,ended,ends,rfl,rfl⟩ := passGenerations_phases result
  have sound₁ := (sound.passing slow).sound
  have sound₂ := (sound₁.uncancelled.onFrontendAbort_moving aborted).sound sound₁.uncancelled
  have sound₃ := (sound₂.onBackendFault_moving failed).sound sound₂
  have upholds₁ := upholds.slowPath slow
  have called : Upholds (living ext) {s₁ with cancelReqIds := []} :=
    ⟨upholds₁.entries,upholds₁.except,upholds₁.leaving,upholds₁.released⟩
  have upholds₃ := (called.abortEntries aborted).onBackendFault failed
  have upholds₄ := sound₃.terms_induct (P := fun _ s => s.Upholds (living ext)) upholds₃
    (fun _ _ _ _ _ sound before step => before.termed (living_lasting ext) sound step) ended
  exact (upholds₄.dropFaulted (living_lasting ext) (sound₃.terms_leaving ended).sound ends).renew

end CompletionLoop

namespace Replica
variable {β : Type} [BlockHash β] {ext : External} {blockSize : Nat} {r r' : Replica β} {a : Action} {history : List Action}
  {entry : Entry}

-- Every channel of a replica, by the place of its entry.
structure Listened (ext : External) (r : Replica β) : Prop where
  pending : ∀ entry ∈ r.pending, Serving ext entry.responseTx
  loop : r.loop.Upholds (living ext)

omit [BlockHash β] in
theorem listened_start (context : ScheduleContext β) : Listened ext (start context) :=
  ⟨by simp [Replica.pending,start],living_new ext⟩

theorem Listened.step {committed : List RequestId} (listened : Listened ext r) (owned : Owned committed r) (step : Step ext blockSize r a r') :
    Listened ext r' := by
  obtain ⟨enabled,result⟩ := step
  have waits := listened.pending
  cases a with
  | commit request reads cached =>
    obtain ⟨_,_,entry,_,_,committed⟩ := commit_cases result
    rw [committed.result]
    refine ⟨?_,listened.loop⟩
    intro e member
    simp only [Replica.pending,List.mem_append,List.mem_singleton] at member waits
    rcases member with ((old | rfl) | admitted) | posted
    · exact waits e (.inl (.inl old))
    · rw [committed.channel]
      exact serving_fresh ext reads
    · exact waits e (.inl (.inr admitted))
    · exact waits e (.inr posted)
  | addRequest =>
    cases result
    refine ⟨?_,listened.loop⟩
    intro e member
    simp only [Replica.pending,List.mem_append,Option.mem_toList] at member waits
    rcases member with (behind | first) | posted
    · exact waits e (.inl (.inl (List.mem_of_mem_tail behind)))
    · exact waits e (.inl (.inl (List.mem_of_mem_head? first)))
    · exact waits e (.inr posted)
  | send =>
    cases result
    refine ⟨?_,listened.loop⟩
    intro e member
    simp only [Replica.pending,List.mem_append,Option.toList_none,List.append_nil] at member waits
    rcases member with queued | posted | admitted
    · exact waits e (.inl (.inl queued))
    · exact waits e (.inr posted)
    · exact waits e (.inl (.inr admitted))
  | notify id => cases result; exact ⟨waits,listened.loop⟩
  | recvStep m =>
    cases result
    refine ⟨?_,listened.loop.drain ?_⟩
    · intro e member
      simp only [Replica.pending,List.append_nil] at member waits
      exact waits e (List.mem_append_left _ member)
    · intro e member
      exact waits e (List.mem_append_right _ member)
  | meter =>
    obtain ⟨m,stage⟩ := enabled
    obtain ⟨loop,context,metered,rfl⟩ := perform_meter stage result
    exact ⟨waits,listened.loop.meter (living_lasting ext) owned.sound metered⟩
  | deliver =>
    obtain ⟨m,stage⟩ := enabled
    obtain ⟨loop,context,delivered,rfl⟩ := perform_deliver stage result
    obtain ⟨left,passed,_⟩ := deliver_cases delivered
    exact ⟨waits,listened.loop.passGenerations owned.sound passed⟩

theorem run_listened (context : ScheduleContext β) (run : Run (Step ext blockSize) (start context) history r)
    (fresh : (committedIn history).Nodup) : Owned (committedIn history) r ∧ Listened ext r := by
  induction run with
  | start => exact ⟨owned_start context,listened_start context⟩
  | next path taken ih =>
    rw [committedIn_append] at fresh ⊢
    obtain ⟨before,_,apart⟩ := List.nodup_append.mp fresh
    obtain ⟨owned,listened⟩ := ih before
    exact ⟨(owned.step (fun id member inside => apart id inside id member rfl) taken).owned,listened.step owned taken⟩

-- Waiting, served, excepted, leaving or gone.
inductive Somewhere (r : Replica β) (entry : Entry) : Prop where
  | pending : entry ∈ r.pending → Somewhere r entry
  | entries (id : RequestId) : r.loop.entries.lookup id = some entry → Somewhere r entry
  | except (id : RequestId) : r.loop.exceptContext.entries.lookup id = some entry → Somewhere r entry
  | leaving (id : RequestId) : (id,entry) ∈ r.loop.tempLeavingEntries → Somewhere r entry
  | released : entry ∈ r.loop.released → Somewhere r entry

-- In every run, whatever an entry's channel holds for a client that listens is
-- what some life of its request sent.
theorem run_lives (context : ScheduleContext β) (run : Run (Step ext blockSize) (start context) history r)
    (fresh : (committedIn history).Nodup) (somewhere : Somewhere r entry) (connected : entry.responseTx.reads = none) :
    ∃ life : Infer.Life, entry.responseTx.sent = (life.serve ext entry).sent := by
  have lived : Lived ext entry.responseTx := by
    obtain ⟨_,listened⟩ := run_listened context run fresh
    cases somewhere with
    | pending waits => exact (listened.pending entry waits).left
    | entries id found => exact Serving.left (listened.loop.entries id entry found)
    | except id found => exact listened.loop.except id entry found
    | leaving id leaves => exact listened.loop.leaving _ leaves
    | released gone => exact listened.loop.released entry gone
  obtain ⟨life,carried⟩ := lived connected
  exact ⟨life,carried.trans (serve_messages ext entry life).symm⟩

end Replica
end BlitzRouter
