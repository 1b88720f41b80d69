import BlitzRouter.Entry

namespace BlitzRouter

-- The places where the scheduler and the completion loop panic.
inductive Panic where
  | blockSizeZero
  | predHitsSet (id : RequestId)
  | abortNotTracked (id : RequestId)
  | faultNotTracked (id : RequestId)
  | exitNotCaptured (id : RequestId)
  | termNotCaptured (id : RequestId)
  | dropNotCaptured (id : RequestId)
  | invalidState (id : RequestId)
  | realHits (id : RequestId)
  | blocksNotTracked (id : RequestId)
  | noBids (id : RequestId)
  | bidsOutOfRange (id : RequestId)
  | inconsistentBid (id : RequestId)
  | blockHash
deriving DecidableEq,Repr

inductive ExtStInner where
  | waitingTerm (live : Bool)
  | faulted (live : Bool)
  | exited (waitingTerm : Bool)
deriving DecidableEq,Repr

namespace ExtStInner

def onLive : ExtStInner → ExtStInner
  | .waitingTerm _ => .waitingTerm true
  | .faulted _ => .faulted true
  | .exited waiting => .exited waiting

def onExit : ExtStInner → ExtStInner × Bool
  | .waitingTerm _ => (.exited true,true)
  | .faulted _ => (.exited false,true)
  | .exited waiting => (.exited waiting,false)

-- The two cases a debug build rejects answer like their neighbours.
def onTerm : ExtStInner → Bool
  | .waitingTerm _ => true
  | .exited _ => false
  | .faulted _ => true

def clearLiveFlag : ExtStInner → ExtStInner
  | .waitingTerm _ => .waitingTerm false
  | .faulted _ => .faulted false
  | .exited waiting => .exited waiting

def isDropReady : ExtStInner → Bool
  | .faulted live => !live
  | _ => false

-- The entry is still kept beside the state.
def holds : ExtStInner → Bool
  | .exited _ => false
  | _ => true

end ExtStInner

inductive ExtState where
  | abort (id : RequestId) (entry : Entry)
  | fault (id : RequestId) (entry : Entry)
  | term (id : RequestId)
  | exit (id : RequestId)
  | live (id : RequestId)

abbrev ExtStates := List (Sigma fun _ : RequestId => ExtStInner)

structure ExtContext where
  entries : Table RequestId Entry
  states : ExtStates

namespace ExtContext

def new : ExtContext := ⟨∅,[]⟩

-- The list is searched for the first record of an id.
def put (ctx : ExtContext) : ExtState → Except Panic (ExtContext × Option Entry)
  | .abort id entry => .ok (⟨ctx.entries.insert id entry,ctx.states++[⟨id,.waitingTerm false⟩]⟩,none)
  | .fault id entry => .ok (⟨ctx.entries.insert id entry,ctx.states++[⟨id,.faulted true⟩]⟩,none)
  | .live id =>
    match ctx.states.dlookup id with
    | none => .ok (ctx,none)
    | some st => .ok ({ctx with states := ctx.states.kreplace id st.onLive},none)
  | .exit id =>
    match ctx.states.dlookup id with
    | none => .error (.exitNotCaptured id)
    | some st =>
      let ctx := {ctx with states := ctx.states.kreplace id st.onExit.1}
      if st.onExit.2 then .ok ({ctx with entries := ctx.entries.erase id},ctx.entries.lookup id)
      else .ok (ctx,none)
  | .term id =>
    match ctx.states.dlookup id with
    | none => .error (.termNotCaptured id)
    | some st =>
      let ctx := {ctx with states := ctx.states.kerase id}
      if st.onTerm then .ok ({ctx with entries := ctx.entries.erase id},ctx.entries.lookup id)
      else .ok (ctx,none)

def dropFrom (entries : Table RequestId Entry) :
    ExtStates → Except Panic (Table RequestId Entry × ExtStates × List (RequestId × Entry))
  | [] => .ok (entries,[],[])
  | ⟨id,st⟩::rest =>
    if st.isDropReady then
      match entries.lookup id with
      | none => .error (.dropNotCaptured id)
      | some entry => do
        let (entries,rem,dropped) ← dropFrom (entries.erase id) rest
        .ok (entries,rem,(id,entry)::dropped)
    else do
      let (entries,rem,dropped) ← dropFrom entries rest
      .ok (entries,⟨id,st.clearLiveFlag⟩::rem,dropped)

def filterDrop (ctx : ExtContext) : Except Panic (ExtContext × List (RequestId × Entry)) := do
  let (entries,rem,dropped) ← dropFrom ctx.entries ctx.states
  .ok (⟨entries,rem⟩,dropped)

-- One record an id, and an entry beside exactly the records that hold one.
structure Sound (ctx : ExtContext) : Prop where
  single : ctx.states.NodupKeys
  held : ∀ id, (∃ entry, ctx.entries.lookup id = some entry) ↔ ∃ st, ctx.states.dlookup id = some st ∧ st.holds = true

theorem sound_new : Sound new := ⟨List.nodupKeys_nil,by simp [new]⟩

variable {ctx ctx' : ExtContext} {id other : RequestId} {entry : Entry} {st : ExtStInner}

theorem Sound.entry_of (sound : ctx.Sound) (found : ctx.states.dlookup id = some st) (holds : st.holds = true) :
    ∃ entry, ctx.entries.lookup id = some entry :=
  (sound.held id).mpr ⟨st,found,holds⟩

theorem Sound.none_of (sound : ctx.Sound) (found : ctx.states.dlookup id = some st) (gone : st.holds = false) :
    ctx.entries.lookup id = none := by
  cases kept : ctx.entries.lookup id with
  | none => rfl
  | some entry =>
    obtain ⟨st',found',holds⟩ := (sound.held id).mp ⟨entry,kept⟩
    rw [found] at found'
    cases found'
    rw [gone] at holds
    cases holds

theorem Sound.absent (sound : ctx.Sound) (fresh : ctx.states.dlookup id = none) : ctx.entries.lookup id = none := by
  cases kept : ctx.entries.lookup id with
  | none => rfl
  | some entry =>
    obtain ⟨st,found,_⟩ := (sound.held id).mp ⟨entry,kept⟩
    rw [fresh] at found
    cases found

-- A request enters with a record of its own.
theorem Sound.enter (sound : ctx.Sound) (fresh : ctx.states.dlookup id = none) (holds : st.holds = true) :
    Sound ⟨ctx.entries.insert id entry,ctx.states++[⟨id,st⟩]⟩ := by
  refine ⟨Ledger.nodupKeys_concat sound.single fresh,?_⟩
  intro other
  by_cases same : other = id
  · subst same
    simp only [AList.lookup_insert,Ledger.dlookup_concat_self fresh]
    exact ⟨fun _ => ⟨st,rfl,holds⟩,fun _ => ⟨entry,rfl⟩⟩
  · simp only [AList.lookup_insert_ne same,Ledger.dlookup_concat_ne same]
    exact sound.held other

theorem onExit_holds : st.onExit.2 = st.holds ∧ st.onExit.1.holds = false := by cases st <;> exact ⟨rfl,rfl⟩
theorem onTerm_holds : st.onTerm = st.holds := by cases st <;> rfl
theorem clearLiveFlag_holds : st.clearLiveFlag.holds = st.holds := by cases st <;> rfl
theorem onExit_gone (gone : st.holds = false) : st.onExit.1 = st := by cases st <;> first | rfl | cases gone
theorem isDropReady_holds (ready : st.isDropReady = true) : st.holds = true := by cases st <;> first | rfl | cases ready

-- The record stays when its request exits; the entry leaves with the first exit.
theorem Sound.exit_spec (sound : ctx.Sound) (found : ctx.states.dlookup id = some st) :
    ctx.put (.exit id) = .ok (⟨ctx.entries.erase id,ctx.states.kreplace id st.onExit.1⟩,ctx.entries.lookup id) ∧
      Sound ⟨ctx.entries.erase id,ctx.states.kreplace id st.onExit.1⟩ := by
  constructor
  · unfold put
    simp only [found]
    cases holds : st.holds with
    | true => rw [if_pos (onExit_holds.1.trans holds)]
    | false =>
      have absent := sound.none_of found holds
      rw [if_neg (by rw [onExit_holds.1,holds]; exact Bool.false_ne_true),absent,Ledger.erase_absent absent]
  · refine ⟨(List.kreplace_nodupKeys id _).mpr sound.single,?_⟩
    intro other
    by_cases same : other = id
    · subst same
      simp only [AList.lookup_erase,Ledger.dlookup_kreplace (k := other) (v := st.onExit.1) (by rw [found]; rfl)]
      simp [onExit_holds.2]
    · simp only [AList.lookup_erase_ne same,Ledger.dlookup_kreplace_ne same]
      exact sound.held other

theorem Sound.term_spec (sound : ctx.Sound) (found : ctx.states.dlookup id = some st) :
    ctx.put (.term id) = .ok (⟨ctx.entries.erase id,ctx.states.kerase id⟩,ctx.entries.lookup id) ∧
      Sound ⟨ctx.entries.erase id,ctx.states.kerase id⟩ := by
  constructor
  · unfold put
    simp only [found]
    cases holds : st.holds with
    | true => rw [if_pos (onTerm_holds.trans holds)]
    | false =>
      have absent := sound.none_of found holds
      rw [if_neg (by rw [onTerm_holds,holds]; exact Bool.false_ne_true),absent,Ledger.erase_absent absent]
  · refine ⟨sound.single.kerase id,?_⟩
    intro other
    by_cases same : other = id
    · subst same
      simp [AList.lookup_erase,List.dlookup_kerase other sound.single]
    · simp only [AList.lookup_erase_ne same,List.dlookup_kerase_ne same]
      exact sound.held other

-- What a pass over the records takes away: the entries of those that are ready.
structure Dropping (entries : Table RequestId Entry) (states : ExtStates) (entries' : Table RequestId Entry) (rem : ExtStates)
    (dropped : List (RequestId × Entry)) : Prop where
  worth : ∀ {M : Type} [AddCommMonoid M] (worth : RequestId → Entry → M),
    Ledger.total worth entries = Ledger.total worth entries'+(dropped.map fun row => worth row.1 row.2).sum
  taken : ∀ row ∈ dropped, entries.lookup row.1 = some row.2 ∧
    ∃ st, states.dlookup row.1 = some st ∧ st.isDropReady = true
  keys : rem.keys.Sublist states.keys
  rest : ∀ id, rem.dlookup id = (states.dlookup id).bind fun st => if st.isDropReady then none else some st.clearLiveFlag
  kept : ∀ id, entries'.lookup id =
    if ((states.dlookup id).map ExtStInner.isDropReady).getD false then none else entries.lookup id
  all : ∀ id st, states.dlookup id = some st → st.isDropReady = true → id ∈ dropped.map Prod.fst

-- Induction on the records: the first one is dropped or kept, the others never name it.
theorem dropFrom_spec {entries : Table RequestId Entry} {states : ExtStates} (single : states.NodupKeys)
    (held : ∀ id st, states.dlookup id = some st → st.isDropReady = true → ∃ entry, entries.lookup id = some entry) :
    ∃ entries' rem dropped, dropFrom entries states = .ok (entries',rem,dropped) ∧
      Dropping entries states entries' rem dropped := by
  induction states generalizing entries with
  | nil => exact ⟨entries,[],[],rfl,⟨by simp,by simp,List.Sublist.refl _,by simp,by simp,by simp⟩⟩
  | cons row states ih =>
    obtain ⟨id,st⟩ := row
    obtain ⟨apart,single'⟩ := List.nodupKeys_cons.mp single
    have absent : states.dlookup id = none := List.dlookup_eq_none.mpr apart
    cases ready : st.isDropReady with
    | true =>
      obtain ⟨entry,found⟩ := held id st (List.dlookup_cons_eq ..) ready
      have held' : ∀ other st, states.dlookup other = some st → st.isDropReady = true →
          ∃ entry, (entries.erase id).lookup other = some entry := by
        intro other st' found' ready'
        have differs : other ≠ id := by rintro rfl; rw [absent] at found'; cases found'
        rw [AList.lookup_erase_ne differs]
        exact held other st' (by rwa [List.dlookup_cons_ne _ _ differs]) ready'
      obtain ⟨entries',rem,dropped,result,drops⟩ := ih single' held'
      refine ⟨entries',rem,(id,entry)::dropped,by simp [dropFrom,ready,found,result]; rfl,⟨?_,?_,?_,?_,?_,?_⟩⟩
      · intro M _ worth
        rw [Ledger.total_erase worth found,drops.worth,List.map_cons,List.sum_cons]
        exact add_left_comm _ _ _
      · intro row member
        rcases List.mem_cons.mp member with rfl | member
        · exact ⟨found,st,List.dlookup_cons_eq ..,ready⟩
        · obtain ⟨inside,st',found',ready'⟩ := drops.taken row member
          have differs : row.1 ≠ id := by intro equal; rw [equal,absent] at found'; cases found'
          rw [AList.lookup_erase_ne differs] at inside
          exact ⟨inside,st',by rwa [List.dlookup_cons_ne _ _ differs],ready'⟩
      · exact drops.keys.trans (List.sublist_cons_self _ _)
      · intro other
        rw [drops.rest other]
        by_cases same : other = id
        · subst same
          simp [absent,ready]
        · rw [List.dlookup_cons_ne _ _ same]
      · intro other
        rw [drops.kept other]
        by_cases same : other = id
        · subst same
          simp [absent,ready]
        · rw [List.dlookup_cons_ne _ _ same,AList.lookup_erase_ne same]
      · intro other st' found' ready'
        by_cases same : other = id
        · subst same; simp
        · rw [List.dlookup_cons_ne _ _ same] at found'
          exact List.mem_cons_of_mem _ (drops.all other st' found' ready')
    | false =>
      have held' : ∀ other st, states.dlookup other = some st → st.isDropReady = true →
          ∃ entry, entries.lookup other = some entry := by
        intro other st' found' ready'
        have differs : other ≠ id := by rintro rfl; rw [absent] at found'; cases found'
        exact held other st' (by rwa [List.dlookup_cons_ne _ _ differs]) ready'
      obtain ⟨entries',rem,dropped,result,drops⟩ := ih single' held'
      refine ⟨entries',⟨id,st.clearLiveFlag⟩::rem,dropped,by simp [dropFrom,ready,result]; rfl,⟨drops.worth,?_,?_,?_,?_,?_⟩⟩
      · intro row member
        obtain ⟨inside,st',found',ready'⟩ := drops.taken row member
        have differs : row.1 ≠ id := by intro equal; rw [equal,absent] at found'; cases found'
        exact ⟨inside,st',by rwa [List.dlookup_cons_ne _ _ differs],ready'⟩
      · exact drops.keys.cons_cons id
      · intro other
        by_cases same : other = id
        · subst same
          simp [ready]
        · rw [List.dlookup_cons_ne _ _ same,List.dlookup_cons_ne _ _ same,drops.rest other]
      · intro other
        rw [drops.kept other]
        by_cases same : other = id
        · subst same
          simp [absent,ready]
        · rw [List.dlookup_cons_ne _ _ same]
      · intro other st' found' ready'
        by_cases same : other = id
        · subst same
          rw [List.dlookup_cons_eq] at found'
          cases found'
          rw [ready] at ready'
          cases ready'
        · rw [List.dlookup_cons_ne _ _ same] at found'
          exact drops.all other st' found' ready'

theorem Sound.filterDrop_spec (sound : ctx.Sound) :
    ∃ ctx' dropped, ctx.filterDrop = .ok (ctx',dropped) ∧ ctx'.Sound ∧
      Dropping ctx.entries ctx.states ctx'.entries ctx'.states dropped := by
  obtain ⟨entries',rem,dropped,result,drops⟩ := dropFrom_spec sound.single
    fun id st found ready => sound.entry_of found (isDropReady_holds ready)
  refine ⟨⟨entries',rem⟩,dropped,by simp [filterDrop,result]; rfl,⟨?_,?_⟩,drops⟩
  · exact List.Nodup.sublist drops.keys sound.single
  · intro id
    simp only [drops.rest,drops.kept]
    cases found : ctx.states.dlookup id with
    | none => simp [sound.absent found]
    | some st =>
      cases ready : st.isDropReady with
      | true => simp [ready]
      | false =>
        have same := sound.held id
        rw [found] at same
        simpa [ready,clearLiveFlag_holds] using same

end ExtContext
end BlitzRouter
