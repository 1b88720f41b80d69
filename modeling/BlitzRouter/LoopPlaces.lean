import BlitzRouter.CompletionExcept

namespace BlitzRouter.CompletionLoop
open Radix

-- What is asked of an entry, by its place: served under an id, excepted under it,
-- or on its way out and gone.
structure Promises where
  serving : RequestId → Entry → Prop
  excepted : RequestId → Entry → Prop
  left : Entry → Prop

structure Upholds (p : Promises) (s : CompletionLoop) : Prop where
  entries : ∀ id entry, s.entries.lookup id = some entry → p.serving id entry
  except : ∀ id entry, s.exceptContext.entries.lookup id = some entry → p.excepted id entry
  leaving : ∀ row ∈ s.tempLeavingEntries, p.left row.2
  released : ∀ entry ∈ s.released, p.left entry

-- Of everyone but one served request, `q` asks no more than `p`.
structure Promises.Spares (p q : Promises) (rid : RequestId) : Prop where
  serving : ∀ id entry, id ≠ rid → p.serving id entry → q.serving id entry
  excepted : ∀ id entry, p.excepted id entry → q.excepted id entry
  left : ∀ entry, p.left entry → q.left entry

-- What the metrics and the block tables cannot break, and what lets an excepted
-- entry leave as it is.
structure Promises.Lasting (p : Promises) : Prop where
  serving : ∀ id entry new, new.responseTx = entry.responseTx → p.serving id entry → p.serving id new
  excepted : ∀ id entry new, new.responseTx = entry.responseTx → p.excepted id entry → p.excepted id new
  left : ∀ entry new, new.request = entry.request → new.responseTx = entry.responseTx → p.left entry → p.left new
  yields : ∀ id entry, entry.request.requestId = id → p.excepted id entry → p.left entry

variable {p q : Promises} {s s' : CompletionLoop} {id rid : RequestId} {entry new : Entry} {phases : Table RequestId RequestPhase}
  {skipped : List RequestId} {states : ExtStates} {o : RequestStepOutput} {outcome : Entry × Bool} {left : List Entry} {ext : External} {d d' : LMetricDec}

section Tables
variable {t : Table RequestId Entry} {P : RequestId → Entry → Prop}

theorem rows_insert (rows : ∀ id entry, t.lookup id = some entry → P id entry) (row : P rid new) :
    ∀ id entry, (t.insert rid new).lookup id = some entry → P id entry := by
  intro id entry inside
  by_cases same : id = rid
  · subst same
    rw [AList.lookup_insert] at inside
    cases inside
    exact row
  · rw [AList.lookup_insert_ne same] at inside
    exact rows id entry inside

theorem rows_erase (rows : ∀ id entry, id ≠ rid → t.lookup id = some entry → P id entry) :
    ∀ id entry, (t.erase rid).lookup id = some entry → P id entry := by
  intro id entry inside
  have differs : id ≠ rid := by
    intro same
    rw [same,AList.lookup_erase] at inside
    cases inside
  rw [AList.lookup_erase_ne differs] at inside
  exact rows id entry differs inside

end Tables

theorem Upholds.store (upholds : s.Upholds p) (found : s.find id = some entry) (serving : p.serving id entry → p.serving id new)
    (excepted : p.excepted id entry → p.excepted id new) : (s.store id new).Upholds p := by
  cases kept : s.entries.lookup id with
  | some held =>
    rw [find_entries kept] at found
    cases found
    rw [store_entries kept]
    exact ⟨rows_insert upholds.entries (serving (upholds.entries id _ kept)),upholds.except,upholds.leaving,upholds.released⟩
  | none =>
    rw [find_except kept] at found
    rw [store_except kept]
    exact ⟨upholds.entries,rows_insert upholds.except (excepted (upholds.except id _ found)),upholds.leaving,upholds.released⟩

theorem replaceFirst_keeps {P : Entry → Prop} {rows : List (RequestId × Entry)}
    (found : (rows.find? fun row => row.1 == rid).map Prod.snd = some entry) (all : ∀ row ∈ rows, P row.2) (next : P entry → P new) :
    ∀ row ∈ replaceFirst rid new rows, P row.2 := by
  induction rows with
  | nil => exact all
  | cons row rest ih =>
    unfold replaceFirst
    by_cases here : row.1 = rid
    · have named : row.2 = entry := by simpa [List.find?_cons,here] using found
      rw [if_pos here]
      intro other member
      rcases List.mem_cons.mp member with rfl | behind
      · exact next (named ▸ all row List.mem_cons_self)
      · exact all other (List.mem_cons_of_mem row behind)
    · rw [List.find?_cons_of_neg (by simpa using here)] at found
      rw [if_neg here]
      intro other member
      rcases List.mem_cons.mp member with rfl | behind
      · exact all other List.mem_cons_self
      · exact ih found (fun row member => all row (List.mem_cons_of_mem _ member)) other behind

theorem Upholds.storeBlocks (upholds : s.Upholds p) (found : s.findBlocks rid = some entry)
    (serving : p.serving rid entry → p.serving rid new) (excepted : p.excepted rid entry → p.excepted rid new)
    (leaves : p.left entry → p.left new) : (s.storeBlocks rid new).Upholds p := by
  cases tracked : s.find rid with
  | some held =>
    have known : held = entry := by simpa [findBlocks,tracked] using found
    subst known
    simp only [CompletionLoop.storeBlocks,tracked,Option.isSome_some,if_true]
    exact upholds.store tracked serving excepted
  | none =>
    rw [findBlocks_leaving tracked] at found
    simp only [CompletionLoop.storeBlocks,tracked,Option.isSome_none,Bool.false_eq_true,if_false]
    exact ⟨upholds.entries,upholds.except,replaceFirst_keeps found upholds.leaving leaves,upholds.released⟩

-- Everything one output can do to the entries in the fast path: what it writes
-- back carries the same channel.
inductive Written (s : CompletionLoop) (o : RequestStepOutput) : CompletionLoop → Prop where
  | still : Written s o s
  | update (entry new : Entry) : s.find o.requestId = some entry → new.responseTx = entry.responseTx →
      Written s o (s.store o.requestId new)
  | exit (entry : Entry) (states : ExtStates) : o.isFinished = true → s.entries.lookup o.requestId = none →
      s.exceptContext.entries.lookup o.requestId = some entry →
      Written s o {s with exceptContext := ⟨s.exceptContext.entries.erase o.requestId,states⟩,
                          tempLeavingEntries := s.tempLeavingEntries++[(o.requestId,entry)]}

theorem Sound.written_finished (sound : s.Sound) (ends : o.isFinished = true) {owed : Entry → Int}
    (result : s.finished d o.requestId owed = .ok (s',d')) : Written s o s' := by
  rcases sound.finished_cases result with ⟨_,rfl,_⟩ | ⟨entry,_,rfl,_⟩ | ⟨entry,st,absent,held,_,rfl,_⟩
  · exact .still
  · exact .still
  · exact .exit entry _ ends absent held

theorem written_prefillUpdate (result : s.prefillUpdate ext d o = .ok (s',d')) : Written s o s' := by
  unfold prefillUpdate at result
  cases found : s.find o.requestId with
  | none =>
    simp only [found] at result
    cases result
    exact .still
  | some entry =>
    cases hits : entry.blockHashState.setRealTokenHitsGetDiff o.hitTokenCnt with
    | none =>
      simp only [found,hits] at result
      cases result
    | some pair =>
      simp only [found,hits] at result
      cases result
      exact .update entry _ found rfl

theorem written_decodeUpdate (result : s.decodeUpdate ext d o = .ok (s',d')) : Written s o s' := by
  unfold decodeUpdate at result
  cases found : s.find o.requestId with
  | none =>
    simp only [found] at result
    cases result
    exact .still
  | some entry =>
    simp only [found] at result
    cases result
    exact .update entry _ found rfl

theorem Sound.written (sound : s.Sound) (result : s.meterOutput ext d o = .ok (s',d')) : Written s o s' := by
  rcases meterOutput_branch ext s d o with invalid | ⟨ends,_,_,finishes⟩ | ⟨_,_,prefills⟩ | ⟨_,decodes⟩
  · rw [invalid] at result
    cases result
  · exact sound.written_finished ends (finishes.symm.trans result)
  · exact written_prefillUpdate (prefills.symm.trans result)
  · exact written_decodeUpdate (decodes.symm.trans result)

theorem Upholds.written (upholds : s.Upholds p) (lasting : p.Lasting) (sound : s.Sound) (step : Written s o s') : s'.Upholds p := by
  cases step with
  | still => exact upholds
  | update entry new found same => exact upholds.store found (lasting.serving _ entry new same) (lasting.excepted _ entry new same)
  | exit entry states ends absent held =>
    refine ⟨upholds.entries,rows_erase fun id entry _ => upholds.except id entry,?_,upholds.released⟩
    intro row member
    rcases List.mem_append.mp member with old | last
    · exact upholds.leaving row old
    · rw [List.mem_singleton.mp last]
      exact lasting.yields _ entry (sound.keyedExcept _ entry held) (upholds.except _ entry held)

theorem Upholds.meterOutputs {rest : List RequestStepOutput} (upholds : s.Upholds p) (lasting : p.Lasting) (sound : s.Sound)
    (result : s.meterOutputs ext d rest = .ok (s',d')) : s'.Upholds p := by
  refine (meterOutputs_steps (P := fun s => s.Sound ∧ s.Upholds p) ⟨sound,upholds⟩ ?_ result).2
  intro s d o s' d' _ before one
  exact ⟨(before.1.metered one).sound before.1,before.2.written lasting before.1 (before.1.written one)⟩

theorem Upholds.meter {β : Type} [BlockHash β] {m : EngineStepOutput} {context context' : ScheduleContext β} (upholds : s.Upholds p)
    (lasting : p.Lasting) (sound : s.Sound) (result : s.meter ext context m = .ok (s',context')) : s'.Upholds p := by
  obtain ⟨s₁,d,fast,cache,_⟩ := meter_phases result
  refine cacheUpdate_induct (upholds.meterOutputs lasting sound fast) ?_ cache
  intro s rid entry state synced bids before found _
  exact before.storeBlocks found (lasting.serving rid entry _ rfl) (lasting.excepted rid entry _ rfl) (lasting.left entry _ rfl rfl)

-- One output of the slow path, which may ask more of the request that it names.
theorem Upholds.unknown (upholds : s.Upholds p) (spares : p.Spares q o.requestId) (absent : s.entries.lookup o.requestId = none) :
    Upholds q {s with requestPhases := phases} := by
  refine ⟨?_,fun id entry found => spares.excepted id entry (upholds.except id entry found),
    fun row member => spares.left row.2 (upholds.leaving row member),fun entry member => spares.left entry (upholds.released entry member)⟩
  intro id entry found
  refine spares.serving id entry ?_ (upholds.entries id entry found)
  intro same
  rw [same] at found
  rw [found] at absent
  cases absent

theorem Upholds.delivered (upholds : s.Upholds p) (spares : p.Spares q o.requestId)
    (next : o.isFinished = false → q.serving o.requestId outcome.1) (last : o.isFinished = true → q.left (onFinishRequest outcome.1)) :
    ({s with requestPhases := phases}.delivered o outcome).Upholds q := by
  have others : ∀ id entry, id ≠ o.requestId → s.entries.lookup id = some entry → q.serving id entry :=
    fun id entry differs found => spares.serving id entry differs (upholds.entries id entry found)
  have excepted : ∀ id entry, s.exceptContext.entries.lookup id = some entry → q.excepted id entry :=
    fun id entry found => spares.excepted id entry (upholds.except id entry found)
  have leaving : ∀ row ∈ s.tempLeavingEntries, q.left row.2 := fun row member => spares.left row.2 (upholds.leaving row member)
  have released : ∀ entry ∈ s.released, q.left entry := fun entry member => spares.left entry (upholds.released entry member)
  unfold CompletionLoop.delivered
  cases ends : o.isFinished with
  | false =>
    rw [if_neg Bool.false_ne_true]
    refine ⟨?_,excepted,leaving,released⟩
    intro id entry inside
    by_cases same : id = o.requestId
    · subst same
      rw [AList.lookup_insert] at inside
      cases inside
      exact next ends
    · rw [AList.lookup_insert_ne same] at inside
      exact others id entry same inside
  | true =>
    rw [if_pos rfl]
    refine ⟨rows_erase others,excepted,leaving,?_⟩
    intro entry member
    rcases List.mem_append.mp member with old | final
    · exact released entry old
    · rw [List.mem_singleton.mp final]
      exact last ends

-- A request goes to the exception context, by an abort or a fault.
theorem Upholds.withdraw (upholds : s.Upholds p) (excepted : p.excepted id new) :
    Upholds p {s with entries := s.entries.erase id,requestPhases := phases,skippedFaultEntries := skipped,
                      exceptContext := ⟨s.exceptContext.entries.insert id new,states⟩} :=
  ⟨rows_erase fun id entry _ => upholds.entries id entry,rows_insert upholds.except excepted,upholds.leaving,upholds.released⟩

theorem Upholds.termed {returned : List Entry} (upholds : s.Upholds p) (lasting : p.Lasting) (sound : s.Sound)
    (step : Termed s id s' returned) : s'.Upholds p := by
  cases step with
  | mk st record =>
    refine ⟨upholds.entries,rows_erase fun id entry _ => upholds.except id entry,upholds.leaving,?_⟩
    intro entry member
    rcases List.mem_append.mp member with old | last
    · exact upholds.released entry old
    · have held := Option.mem_toList.mp last
      exact lasting.yields id entry (sound.keyedExcept id entry held) (upholds.except id entry held)

theorem Upholds.dropFaulted (upholds : s.Upholds p) (lasting : p.Lasting) (sound : s.Sound)
    (result : s.dropFaulted = .ok (s',left)) : s'.Upholds p := by
  obtain ⟨ctx,dropped,filtered,_,drops⟩ := sound.except.filterDrop_spec
  simp only [CompletionLoop.dropFaulted,filtered] at result
  cases result
  refine ⟨upholds.entries,?_,upholds.leaving,?_⟩
  · intro id entry inside
    have kept := drops.kept id
    simp only at inside
    rw [inside] at kept
    split at kept
    · cases kept
    · exact upholds.except id entry kept.symm
  · intro entry member
    rcases List.mem_append.mp member with old | last
    · exact upholds.released entry old
    · obtain ⟨row,taken,rfl⟩ := List.mem_map.mp last
      have held := (drops.taken row taken).1
      exact lasting.yields row.1 row.2 (sound.keyedExcept row.1 row.2 held) (upholds.except row.1 row.2 held)

theorem Upholds.renew (upholds : s.Upholds p) : s.renew.Upholds p := by
  refine ⟨upholds.entries,upholds.except,nofun,?_⟩
  intro entry member
  rcases List.mem_append.mp member with old | last
  · exact upholds.released entry old
  · obtain ⟨row,leaves,rfl⟩ := List.mem_map.mp last
    exact upholds.leaving row leaves

theorem Upholds.drain {posted : List Entry} (upholds : s.Upholds p) (fresh : ∀ entry ∈ posted, p.serving entry.request.requestId entry) :
    (s.drain posted).Upholds p := by
  induction posted generalizing s with
  | nil => exact upholds
  | cons entry rest ih =>
    have received : (s.receive entry).Upholds p :=
      ⟨rows_insert upholds.entries (fresh entry List.mem_cons_self),upholds.except,upholds.leaving,upholds.released⟩
    exact ih received fun e member => fresh e (List.mem_cons_of_mem entry member)

end BlitzRouter.CompletionLoop
