import BlitzRouter.ExceptContext
import BlitzRouter.Runs

namespace BlitzRouter

inductive ExtEvent where
  | put (st : ExtState)
  | filterDrop

-- The entry that an event brings in.
def ExtEvent.entered : ExtEvent → List (RequestId × Entry)
  | .put (.abort id entry) => [(id,entry)]
  | .put (.fault id entry) => [(id,entry)]
  | _ => []

def ExtState.id : ExtState → RequestId
  | .abort id _ => id
  | .fault id _ => id
  | .term id => id
  | .exit id => id
  | .live id => id

-- The entries of one request, in order.
def entriesOf (id : RequestId) (rows : List (RequestId × Entry)) : List Entry := (rows.filter fun row => row.1 = id).map Prod.snd

namespace ExtContext

-- A request is not recorded when it comes in, and it is in every later event.
def Permits (ctx : ExtContext) : ExtEvent → Prop
  | .put (.abort id _) => ctx.states.dlookup id = none
  | .put (.fault id _) => ctx.states.dlookup id = none
  | .put (.live id) => ∃ st, ctx.states.dlookup id = some st
  | .put (.exit id) => ∃ st, ctx.states.dlookup id = some st
  | .put (.term id) => ∃ st, ctx.states.dlookup id = some st
  | .filterDrop => True

-- One event, with the entries it hands back and whose they are.
def take (ctx : ExtContext) : ExtEvent → Except Panic (ExtContext × List (RequestId × Entry))
  | .put st => do
    let (ctx,returned) ← ctx.put st
    .ok (ctx,returned.toList.map fun entry => (st.id,entry))
  | .filterDrop => ctx.filterDrop

variable {ctx ctx' : ExtContext} {event : ExtEvent} {id other : RequestId} {entry : Entry} {st : ExtStInner}
variable {back rows : List (RequestId × Entry)}

@[simp] theorem entriesOf_nil : entriesOf id [] = [] := rfl
@[simp] theorem entriesOf_append : entriesOf id (rows++back) = entriesOf id rows++entriesOf id back := by simp [entriesOf]
@[simp] theorem entriesOf_self : entriesOf id [(id,entry)] = [entry] := by simp [entriesOf]

theorem entriesOf_other (differs : other ≠ id) : entriesOf other [(id,entry)] = [] := by simp [entriesOf,differs.symm]

theorem entriesOf_absent (absent : id ∉ rows.map Prod.fst) : entriesOf id rows = [] := by
  unfold entriesOf
  rw [List.filter_eq_nil_iff.mpr,List.map_nil]
  intro row member same
  exact absent (of_decide_eq_true same ▸ List.mem_map_of_mem member)

theorem entriesOf_single (single : (rows.map Prod.fst).Nodup) (member : (id,entry) ∈ rows) : entriesOf id rows = [entry] := by
  obtain ⟨before,later,rfl⟩ := List.append_of_mem member
  rw [List.map_append,List.map_cons,List.nodup_append] at single
  obtain ⟨_,after,apart⟩ := single
  have one : entriesOf id before = [] :=
    entriesOf_absent fun inside => apart _ inside id (List.mem_cons_self ..) rfl
  have two : entriesOf id later = [] := entriesOf_absent (List.nodup_cons.mp after).1
  rw [← List.singleton_append,entriesOf_append,entriesOf_append,one,two,entriesOf_self,List.nil_append,List.append_nil]

theorem entriesOf_toList (found : Option Entry) :
    entriesOf other (found.toList.map fun entry => (id,entry)) = if other = id then found.toList else [] := by
  cases found with
  | none => simp
  | some entry =>
    split
    · rename_i same
      simp [same]
    · rename_i differs
      simp [entriesOf_other differs]

theorem onLive_holds : st.onLive.holds = st.holds := by cases st <;> rfl

theorem Sound.live_spec (sound : ctx.Sound) (found : ctx.states.dlookup id = some st) :
    ctx.put (.live id) = .ok (⟨ctx.entries,ctx.states.kreplace id st.onLive⟩,none) ∧
      Sound ⟨ctx.entries,ctx.states.kreplace id st.onLive⟩ := by
  constructor
  · simp only [put,found]
  · refine ⟨(List.kreplace_nodupKeys id _).mpr sound.single,?_⟩
    intro other
    by_cases same : other = id
    · subst same
      have kept := sound.held other
      rw [found] at kept
      simpa [Ledger.dlookup_kreplace (k := other) (v := st.onLive) (by rw [found]; rfl),onLive_holds] using kept
    · simp only [Ledger.dlookup_kreplace_ne same]
      exact sound.held other

theorem dropFrom_order {entries entries' : Table RequestId Entry} {states rem : ExtStates}
    (result : dropFrom entries states = .ok (entries',rem,back)) : (back.map Prod.fst).Sublist states.keys := by
  induction states generalizing entries entries' rem back with
  | nil =>
    cases result
    exact List.Sublist.refl _
  | cons row states ih =>
    obtain ⟨id,st⟩ := row
    unfold dropFrom at result
    split at result
    · split at result
      · cases result
      · rename_i entry _
        cases later : dropFrom (entries.erase id) states with
        | error panic => rw [later] at result; cases result
        | ok left =>
          rw [later] at result
          cases result
          exact (ih later).cons_cons id
    · cases later : dropFrom entries states with
      | error panic => rw [later] at result; cases result
      | ok left =>
        rw [later] at result
        cases result
        exact (ih later).cons id

-- What one event does for every request: the entry kept beside its record comes
-- back, or stays, or is the one the event brought in.
theorem Sound.take_spec (sound : ctx.Sound) (permitted : ctx.Permits event) : ∃ ctx' back, ctx.take event = .ok (ctx',back) ∧ ctx'.Sound ∧
    ∀ id, (ctx.entries.lookup id).toList++entriesOf id event.entered = entriesOf id back++(ctx'.entries.lookup id).toList := by
  have enters : ∀ id entry, ctx.states.dlookup id = none → ∀ other,
      (ctx.entries.lookup other).toList++entriesOf other [(id,entry)] = ((ctx.entries.insert id entry).lookup other).toList := by
    intro id entry fresh other
    by_cases same : other = id
    · subst same
      simp [sound.absent fresh]
    · simp [entriesOf_other same,AList.lookup_insert_ne same]
  have leaves : ∀ id other, (ctx.entries.lookup other).toList++[] =
      entriesOf other ((ctx.entries.lookup id).toList.map fun entry => (id,entry))++((ctx.entries.erase id).lookup other).toList := by
    intro id other
    rw [entriesOf_toList]
    by_cases same : other = id
    · subst same
      simp
    · simp [same,AList.lookup_erase_ne same]
  cases event with
  | put st =>
    cases st with
    | abort id entry => exact ⟨_,[],rfl,sound.enter permitted rfl,enters id entry permitted⟩
    | fault id entry => exact ⟨_,[],rfl,sound.enter permitted rfl,enters id entry permitted⟩
    | live id =>
      obtain ⟨st,found⟩ := permitted
      obtain ⟨result,sound'⟩ := sound.live_spec found
      exact ⟨_,[],by rw [take,result]; rfl,sound',fun other => List.append_nil _⟩
    | exit id =>
      obtain ⟨st,found⟩ := permitted
      obtain ⟨result,sound'⟩ := sound.exit_spec found
      exact ⟨_,_,by rw [take,result]; rfl,sound',leaves id⟩
    | term id =>
      obtain ⟨st,found⟩ := permitted
      obtain ⟨result,sound'⟩ := sound.term_spec found
      exact ⟨_,_,by rw [take,result]; rfl,sound',leaves id⟩
  | filterDrop =>
    obtain ⟨ctx',dropped,result,sound',drops⟩ := sound.filterDrop_spec
    refine ⟨ctx',dropped,result,sound',?_⟩
    have single : (dropped.map Prod.fst).Nodup := by
      obtain ⟨entries',rem,dropped',inner,_⟩ := dropFrom_spec sound.single
        fun id st found ready => sound.entry_of found (isDropReady_holds ready)
      rw [filterDrop,inner] at result
      cases result
      exact List.Nodup.sublist (dropFrom_order inner) sound.single
    intro id
    have nothing : entriesOf id (ExtEvent.entered .filterDrop) = [] := rfl
    rw [drops.kept id,nothing,List.append_nil]
    cases ready : ((ctx.states.dlookup id).map ExtStInner.isDropReady).getD false with
    | true =>
      cases found : ctx.states.dlookup id with
      | none => simp [found] at ready
      | some st =>
        have inside := drops.all id st found (by simpa [found] using ready)
        obtain ⟨row,member,same⟩ := List.mem_map.mp inside
        have held := (drops.taken row member).1
        subst same
        rw [held,entriesOf_single single member]
        simp
    | false =>
      have absent : id ∉ dropped.map Prod.fst := by
        intro inside
        obtain ⟨row,member,same⟩ := List.mem_map.mp inside
        obtain ⟨_,st,found,drop⟩ := drops.taken row member
        subst same
        simp [found,drop] at ready
      rw [entriesOf_absent absent]
      simp

end ExtContext

-- A context with what came in so far and what was handed back.
structure ExtHistory where
  ctx : ExtContext
  entered : List (RequestId × Entry)
  returned : List (RequestId × Entry)

namespace ExtHistory

def start : ExtHistory := ⟨.new,[],[]⟩

def Takes (x : ExtHistory) (event : ExtEvent) (x' : ExtHistory) : Prop :=
  x.ctx.Permits event ∧ ∃ back, x.ctx.take event = .ok (x'.ctx,back) ∧
    x'.entered = x.entered++event.entered ∧ x'.returned = x.returned++back

-- The entry of a request is with the context.
def Keeps (x : ExtHistory) (id : RequestId) : Prop :=
  ∃ live, x.ctx.states.dlookup id = some (.waitingTerm live) ∨ x.ctx.states.dlookup id = some (.faulted live)

-- The entries of a request come back in the order they came in, each of them
-- once, all of them but the last one while the context keeps that.
structure Returns (x : ExtHistory) : Prop where
  single : x.ctx.states.NodupKeys
  held : ∀ id, (∃ entry, x.ctx.entries.lookup id = some entry) ↔ x.Keeps id
  once : ∀ id, entriesOf id x.entered = entriesOf id x.returned++(x.ctx.entries.lookup id).toList
  left : ∀ id, ¬x.Keeps id → entriesOf id x.returned = entriesOf id x.entered
  term : ∀ id ctx' back, x.ctx.take (.put (.term id)) = .ok (ctx',back) → ctx'.states.dlookup id = none
  total : ∀ event, x.ctx.Permits event → ∃ ctx' back, x.ctx.take event = .ok (ctx',back)

variable {x x' : ExtHistory} {history : List ExtEvent} {event : ExtEvent}

-- What a run carries: the bookkeeping of the context, and the two lists agree
-- but for what is kept.
structure Balanced (x : ExtHistory) : Prop where
  sound : x.ctx.Sound
  once : ∀ id, entriesOf id x.entered = entriesOf id x.returned++(x.ctx.entries.lookup id).toList

theorem Balanced.takes (balanced : x.Balanced) (step : x.Takes event x') : x'.Balanced := by
  obtain ⟨permitted,back,result,entered,returned⟩ := step
  obtain ⟨ctx',back',taken,sound,part⟩ := balanced.sound.take_spec permitted
  rw [result] at taken
  cases taken
  refine ⟨sound,?_⟩
  intro id
  calc entriesOf id x'.entered = entriesOf id x.entered++entriesOf id event.entered := by rw [entered,ExtContext.entriesOf_append]
    _ = entriesOf id x.returned++((x.ctx.entries.lookup id).toList++entriesOf id event.entered) := by
      rw [balanced.once id,List.append_assoc]
    _ = entriesOf id x.returned++(entriesOf id back++(x'.ctx.entries.lookup id).toList) := by rw [part id]
    _ = entriesOf id x'.returned++(x'.ctx.entries.lookup id).toList := by
      rw [returned,ExtContext.entriesOf_append,List.append_assoc]

theorem run_balanced (run : Run Takes start history x) : x.Balanced := by
  refine run.invariant (I := fun _ x => x.Balanced) ⟨ExtContext.sound_new,?_⟩ fun _ _ _ _ balanced step => balanced.takes step
  intro id
  rfl

theorem keeps_iff (x : ExtHistory) (id : RequestId) : x.Keeps id ↔ ∃ st, x.ctx.states.dlookup id = some st ∧ st.holds = true := by
  constructor
  · rintro ⟨live,found | found⟩ <;> exact ⟨_,found,rfl⟩
  · rintro ⟨st,found,holds⟩
    cases st with
    | waitingTerm live => exact ⟨live,.inl found⟩
    | faulted live => exact ⟨live,.inr found⟩
    | exited waiting => cases holds

theorem run_returns (run : Run Takes start history x) : x.Returns := by
  obtain ⟨sound,once⟩ := run_balanced run
  have held : ∀ id, (∃ entry, x.ctx.entries.lookup id = some entry) ↔ x.Keeps id :=
    fun id => (sound.held id).trans (x.keeps_iff id).symm
  refine ⟨sound.single,held,once,?_,?_,?_⟩
  · intro id gone
    have absent : x.ctx.entries.lookup id = none := by
      cases kept : x.ctx.entries.lookup id with
      | none => rfl
      | some entry => exact absurd ((held id).mp ⟨entry,kept⟩) gone
    rw [once id,absent]
    exact (List.append_nil _).symm
  · intro id ctx' back result
    cases found : x.ctx.states.dlookup id with
    | none => simp [ExtContext.take,ExtContext.put,found] at result; cases result
    | some st =>
      rw [ExtContext.take,(sound.term_spec found).1] at result
      cases result
      exact List.dlookup_kerase id sound.single
  · intro event permitted
    obtain ⟨ctx',back,result,_⟩ := sound.take_spec permitted
    exact ⟨ctx',back,result⟩

theorem Takes.of {ctx : ExtContext} {back : List (RequestId × Entry)} (permitted : x.ctx.Permits event)
    (result : x.ctx.take event = .ok (ctx,back)) : x.Takes event ⟨ctx,x.entered++event.entered,x.returned++back⟩ :=
  ⟨permitted,back,result,rfl,rfl⟩

def firstEntry : Entry := ⟨⟨7,1,[7]⟩,⟨[],[],0,noneSentinel,none,16,defaultBlockHash,[7],0⟩,⟨[],none⟩,0⟩
def secondEntry : Entry := {firstEntry with generatedTokenCnt := 1}

-- A request is aborted, exits and is acknowledged; its id faults later on, and
-- the second sweep drops the other entry.
theorem run_returns_twice : ∃ history x, Run Takes start history x ∧ x.Returns ∧ entriesOf 7 x.returned = [firstEntry,secondEntry] := by
  have run : Run Takes start ([]++[.put (.abort 7 firstEntry)]++[.put (.exit 7)]++[.put (.term 7)]++
      [.put (.fault 7 secondEntry)]++[.filterDrop]++[.filterDrop]) _ :=
    .next (.next (.next (.next (.next (.next .start (.of rfl rfl)) (.of ⟨_,rfl⟩ rfl)) (.of ⟨_,rfl⟩ rfl)) (.of rfl rfl))
      (.of trivial rfl)) (.of trivial rfl)
  exact ⟨_,_,run,run_returns run,rfl⟩

end ExtHistory

-- A context with the requests that exited after a fault.
structure ExtSweeps where
  ctx : ExtContext
  faultExits : List RequestId

-- A later event or the end of a cycle still takes the record away.
def ExtStInner.pending : ExtStInner → Bool
  | .waitingTerm _ => true
  | .faulted _ => true
  | .exited waiting => waiting

-- The request was aborted, and its acknowledgement is still to come.
def ExtStInner.awaitsTerm : ExtStInner → Bool
  | .waitingTerm _ => true
  | .faulted _ => false
  | .exited waiting => waiting

namespace ExtSweeps

def start : ExtSweeps := ⟨.new,[]⟩

def faultExit (ctx : ExtContext) : ExtEvent → List RequestId
  | .put (.exit id) =>
    match ctx.states.dlookup id with
    | some (.faulted _) => [id]
    | _ => []
  | _ => []

def Acknowledges (ctx : ExtContext) : ExtEvent → Prop
  | .put (.term id) => ∃ st, ctx.states.dlookup id = some st ∧ st.awaitsTerm = true
  | _ => True

-- An acknowledgement comes for an aborted request only, and once.
def Takes (x : ExtSweeps) (event : ExtEvent) (x' : ExtSweeps) : Prop :=
  x.ctx.Permits event ∧ Acknowledges x.ctx event ∧ (∃ back, x.ctx.take event = .ok (x'.ctx,back)) ∧
    x'.faultExits = x.faultExits++faultExit x.ctx event

-- The records that nothing takes away any more are those of the requests that
-- exited after a fault.
structure Stuck (x : ExtSweeps) : Prop where
  sound : x.ctx.Sound
  left : ∀ id, x.ctx.states.dlookup id = some (.exited false) ↔ id ∈ x.faultExits

variable {x x' : ExtSweeps} {history : List ExtEvent} {event : ExtEvent} {id other : RequestId} {st st' : ExtStInner}

-- A record that is replaced by another one.
theorem Stuck.replace (stuck : x.Stuck) (found : x.ctx.states.dlookup id = some st) (other : RequestId)
    (marks : st' = .exited false ↔ st = .exited false ∨ id ∈ more) (only : ∀ key ∈ more, key = id) :
    (x.ctx.states.kreplace id st').dlookup other = some (.exited false) ↔ other ∈ x.faultExits++more := by
  rw [List.mem_append,← stuck.left other]
  by_cases same : other = id
  · subst same
    rw [Ledger.dlookup_kreplace (by rw [found]; rfl),found]
    simpa using marks
  · rw [Ledger.dlookup_kreplace_ne same]
    exact ⟨.inl,fun either => either.elim (fun here => here) fun new => absurd (only other new) same⟩

theorem Stuck.enter (stuck : x.Stuck) (fresh : x.ctx.states.dlookup id = none) (holds : st.holds = true) (other : RequestId) :
    (x.ctx.states++[(⟨id,st⟩ : Sigma fun _ : RequestId => ExtStInner)]).dlookup other = some (.exited false) ↔
      other ∈ x.faultExits++[] := by
  rw [List.append_nil,← stuck.left other]
  by_cases same : other = id
  · subst same
    rw [Ledger.dlookup_concat_self fresh,fresh]
    refine iff_of_false ?_ (by simp)
    intro wrong
    cases wrong
    cases holds
  · rw [Ledger.dlookup_concat_ne same]

theorem Stuck.takes (stuck : x.Stuck) (step : x.Takes event x') : x'.Stuck := by
  obtain ⟨ctx',faultExits'⟩ := x'
  obtain ⟨permitted,acknowledged,⟨back,result⟩,exits⟩ := step
  simp only at result exits
  obtain ⟨_,_,taken,sound,_⟩ := stuck.sound.take_spec permitted
  rw [result] at taken
  cases taken
  refine ⟨sound,?_⟩
  simp only [exits]
  intro other
  cases event with
  | put event =>
    cases event with
    | abort id entry =>
      cases result
      exact stuck.enter permitted rfl other
    | fault id entry =>
      cases result
      exact stuck.enter permitted rfl other
    | live id =>
      obtain ⟨st,found⟩ := permitted
      rw [ExtContext.take,(stuck.sound.live_spec found).1] at result
      cases result
      exact stuck.replace found other (by cases st <;> simp [ExtStInner.onLive,faultExit]) (by simp [faultExit])
    | exit id =>
      obtain ⟨st,found⟩ := permitted
      rw [ExtContext.take,(stuck.sound.exit_spec found).1] at result
      cases result
      refine stuck.replace found other ?_ ?_
      · cases st <;> simp [ExtStInner.onExit,faultExit,found]
      · cases st <;> simp [faultExit,found]
    | term id =>
      obtain ⟨st,found,awaits⟩ := acknowledged
      rw [ExtContext.take,(stuck.sound.term_spec found).1] at result
      cases result
      change _ ↔ other ∈ x.faultExits++[]
      rw [List.append_nil,← stuck.left other]
      by_cases same : other = id
      · subst same
        rw [List.dlookup_kerase other stuck.sound.single,found]
        refine iff_of_false (by simp) ?_
        intro wrong
        cases wrong
        cases awaits
      · rw [List.dlookup_kerase_ne same]
  | filterDrop =>
    obtain ⟨ctx',dropped,swept,_,drops⟩ := stuck.sound.filterDrop_spec
    rw [ExtContext.take,swept] at result
    cases result
    change _ ↔ other ∈ x.faultExits++[]
    rw [List.append_nil,← stuck.left other,drops.rest other]
    cases x.ctx.states.dlookup other with
    | none => simp
    | some st => cases st with
      | waitingTerm live => simp [ExtStInner.isDropReady,ExtStInner.clearLiveFlag]
      | faulted live => cases live <;> simp [ExtStInner.isDropReady,ExtStInner.clearLiveFlag]
      | exited waiting => simp [ExtStInner.isDropReady,ExtStInner.clearLiveFlag]

theorem run_stuck (run : Run Takes start history x) : x.Stuck := by
  refine run.invariant (I := fun _ x => x.Stuck) ⟨ExtContext.sound_new,?_⟩ fun _ _ _ _ stuck step => stuck.takes step
  intro id
  exact iff_of_false (by simp [start,ExtContext.new]) (by simp [start])

-- After every sweep of a run, each record is waiting for something exactly when
-- no request exited after a fault so far.
theorem sweep_pending_iff (run : Run Takes start history x) (sweep : x.Takes .filterDrop x') :
    (∀ row ∈ x'.ctx.states, row.2.pending = true) ↔ x.faultExits = [] := by
  have stuck := (run_stuck run).takes sweep
  have same : x'.faultExits = x.faultExits := by
    obtain ⟨_,_,_,exits⟩ := sweep
    exact exits.trans (List.append_nil _)
  rw [← same,List.eq_nil_iff_forall_not_mem]
  constructor
  · intro pending id member
    have found := List.of_mem_dlookup ((stuck.left id).mpr member)
    exact absurd (pending _ found) Bool.false_ne_true
  · intro none_ row member
    obtain ⟨id,st⟩ := row
    have found := List.mem_dlookup stuck.sound.single member
    cases st with
    | waitingTerm live => rfl
    | faulted live => rfl
    | exited waiting => cases waiting with
      | true => rfl
      | false => exact absurd ((stuck.left id).mp found) (none_ id)

theorem Takes.of {ctx : ExtContext} {back : List (RequestId × Entry)} (permitted : x.ctx.Permits event)
    (acknowledged : Acknowledges x.ctx event) (result : x.ctx.take event = .ok (ctx,back)) :
    x.Takes event ⟨ctx,x.faultExits++faultExit x.ctx event⟩ :=
  ⟨permitted,acknowledged,⟨back,result⟩,rfl⟩

-- An aborted request that exited and was swept still waits for its acknowledgement.
theorem sweep_pending_aborted : ∃ history x x', Run Takes start history x ∧ x.Takes .filterDrop x' ∧
    (∀ row ∈ x'.ctx.states, row.2.pending = true) ∧ x'.ctx.states.length = 1 := by
  have run : Run Takes start ([]++[.put (.abort 7 ExtHistory.firstEntry)]++[.put (.exit 7)]) _ :=
    .next (.next .start (.of rfl trivial rfl)) (.of ⟨_,rfl⟩ trivial rfl)
  exact ⟨_,_,_,run,.of trivial trivial rfl,(sweep_pending_iff run (.of trivial trivial rfl)).mpr rfl,rfl⟩

-- A request faults, and the engine reports it as finished in the next cycle: its
-- record is there after every later sweep.
theorem sweep_leaves_exited : ¬∀ history x x', Run Takes start history x → x.Takes .filterDrop x' →
    ∀ row ∈ x'.ctx.states, row.2.pending = true := by
  intro always
  have run : Run Takes start ([]++[.put (.fault 7 ExtHistory.firstEntry)]++[.filterDrop]++[.put (.exit 7)]) _ :=
    .next (.next (.next .start (.of rfl trivial rfl)) (.of trivial trivial rfl)) (.of ⟨_,rfl⟩ trivial rfl)
  have pending := always _ _ _ run (.of trivial trivial rfl) ⟨7,.exited false⟩ (List.mem_singleton_self _)
  exact Bool.false_ne_true pending

end ExtSweeps
end BlitzRouter
