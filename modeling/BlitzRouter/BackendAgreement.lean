import BlitzRouter.RadixRepresentation
import BlitzRouter.HashTable

namespace BlitzRouter
open Radix PrefixTrie HashTableBlockHash

variable {family : Set (List Hash)} {T : Trie Hash BlockId} {tree : RadixTreeBlockHash} {table table' : HashTableBlockHash}

-- Each hash of these sequences determines the whole prefix before it.
def Chained (family : Set (List Hash)) : Prop :=
  ∀ s ∈ family, ∀ s' ∈ family, ∀ (i j : Nat) h, s[i]? = some h → s'[j]? = some h → s.take (i+1) = s'.take (j+1)

def After (family : Set (List Hash)) (h later : Hash) : Prop :=
  ∃ s ∈ family, ∃ i j : Nat, i < j ∧ s[i]? = some h ∧ s[j]? = some later

-- A path of the tree is a row of the table: the one of its last hash.
structure Coupled (family : Set (List Hash)) (T : Trie Hash BlockId) (table : HashTableBlockHash) : Prop where
  placed : ∀ path b, b ∈ T path → path ≠ [] ∧ ∃ s ∈ family, path <+: s
  held : ∀ h b, table.Holds h b ↔ ∃ path, path.getLast? = some h ∧ b ∈ T path

theorem getLast_initial {path s : List Hash} (proper : path ≠ []) (before : path <+: s) : path.getLast? = s[path.length-1]? := by
  obtain ⟨rest,rfl⟩ := before
  have positive := List.length_pos_of_ne_nil proper
  rw [List.getLast?_eq_getElem?,List.getElem?_append_left (by omega)]

theorem take_getLast {s : List Hash} {i : Nat} {h : Hash} (found : s[i]? = some h) : (s.take (i+1)).getLast? = some h := by
  have bound := (List.getElem?_eq_some_iff.mp found).1
  have proper : s.take (i+1) ≠ [] := by
    intro empty
    have size := congrArg List.length empty
    rw [List.length_take,List.length_nil] at size
    omega
  rw [getLast_initial proper (List.take_prefix _ _),List.length_take,Nat.min_eq_left (by omega),Nat.add_sub_cancel]
  exact found

-- Two paths of the family that end in one hash are the same path.
theorem Chained.unique {path other s s' : List Hash} {h : Hash} (chained : Chained family) (inside : s ∈ family) (within : s' ∈ family)
    (before : path <+: s) (above : other <+: s') (left : path.getLast? = some h) (right : other.getLast? = some h) : path = other := by
  have proper : path ≠ [] := fun empty => by rw [empty] at left; cases left
  have filled : other ≠ [] := fun empty => by rw [empty] at right; cases right
  have same := chained s inside s' within _ _ h ((getLast_initial proper before).symm.trans left) ((getLast_initial filled above).symm.trans right)
  rw [Nat.sub_add_cancel (List.length_pos_of_ne_nil proper),Nat.sub_add_cancel (List.length_pos_of_ne_nil filled)] at same
  rw [List.prefix_iff_eq_take.mp before,List.prefix_iff_eq_take.mp above]
  exact same

namespace Coupled

theorem empty (numBlocks : Nat) : Coupled family PrefixTrie.empty (HashTableBlockHash.new numBlocks) := by
  refine ⟨fun path b member => absurd member (Set.notMem_empty b),fun h b => ⟨?_,?_⟩⟩
  · rintro ⟨bids,found,_⟩
    cases found
  · rintro ⟨path,_,member⟩
    exact absurd member (Set.notMem_empty b)

theorem mono {wider : Set (List Hash)} (coupled : Coupled family T table) (inside : family ⊆ wider) : Coupled wider T table :=
  ⟨fun path b member => (coupled.placed path b member).imp_right fun ⟨s,within,before⟩ => ⟨s,inside within,before⟩,coupled.held⟩

-- The path an id sits at is the only one that ends in its hash.
theorem path_of_held {path s : List Hash} {h : Hash} {b : BlockId} (coupled : Coupled family T table) (chained : Chained family)
    (inside : s ∈ family) (before : path <+: s) (last : path.getLast? = some h) (held : table.Holds h b) : b ∈ T path := by
  obtain ⟨other,ending,member⟩ := (coupled.held h b).mp held
  obtain ⟨_,s',within,above⟩ := coupled.placed other b member
  rw [chained.unique inside within before above last ending]
  exact member

theorem present_iff {path s : List Hash} {h : Hash} (coupled : Coupled family T table) (chained : Chained family) (sound : table.Sound)
    (inside : s ∈ family) (before : path <+: s) (last : path.getLast? = some h) : Present T path ↔ (table.map.lookup h).isSome := by
  rw [sound.lookup_isSome]
  constructor
  · rintro ⟨b,member⟩
    exact ⟨b,(coupled.held h b).mpr ⟨path,last,member⟩⟩
  · rintro ⟨b,held⟩
    exact ⟨b,coupled.path_of_held chained inside before last held⟩

theorem get_eq {query : List Hash} (coupled : Coupled family T table) (chained : Chained family) (sound : table.Sound)
    (valid : WellFormed T) (inside : query ∈ family) : PrefixTrie.get T query = table.get query := by
  obtain ⟨matched,missed⟩ := table.get_spec query
  have limit := table.get_le query
  refine get_eq_of valid limit ?_ fun less => ?_
  · cases count : table.get query with
    | zero => exact .inl rfl
    | succ n =>
      have bound : n < query.length := by omega
      have found := List.getElem?_eq_getElem bound
      exact .inr ((coupled.present_iff chained sound inside (List.take_prefix _ _) (take_getLast found)).mpr
        (matched n _ (by omega) found))
  · have found := List.getElem?_eq_getElem less
    rw [coupled.present_iff chained sound inside (List.take_prefix _ _) (take_getLast found),missed _ found]
    exact Bool.false_ne_true

-- An id of the call is new, or the tree has it at the path the call gives it.
theorem insertable {hashes : List Hash} {bids : List BlockId} (coupled : Coupled family T table) (chained : Chained family)
    (sound : table.Sound) (inside : hashes ∈ family) (aligned : hashes.length = bids.length) (distinct : bids.Nodup)
    (placed : ∀ (i : Nat) b h, bids[i]? = some b → hashes[i]? = some h → table.tracked b = none ∨ table.tracked b = some h) :
    Insertable T [] hashes bids := by
  refine ⟨aligned,distinct,fun i b path named member => ?_⟩
  have bound : i < hashes.length := by
    have within := (List.getElem?_eq_some_iff.mp named).1
    omega
  have found := List.getElem?_eq_getElem bound
  obtain ⟨proper,s,within,before⟩ := coupled.placed path b member
  obtain ⟨h,last⟩ := Option.isSome_iff_exists.mp (List.getLast?_isSome.mpr proper)
  have known := (sound.reversed h b).mp ((coupled.held h b).mpr ⟨path,last,member⟩)
  rcases placed i b _ named found with free | same
  · rw [free] at known
    cases known
  · rw [known,Option.some.injEq] at same
    subst same
    exact chained.unique within inside before (List.take_prefix _ _) last (take_getLast found)

-- Induction on the sequence: one hash more on the path, one row more in the table.
theorem insertBlocks {done keys : List Hash} {ids : List BlockId} {n : Nat} (coupled : Coupled family T table) (sound : table.Sound)
    (legal : Insertable T done keys ids) {s : List Hash} (inside : s ∈ family) (before : done++keys <+: s)
    (result : table.insertBlocks keys ids = some (table',n)) :
    table'.Sound ∧ Coupled family (insertFrom done keys ids T) table' ∧ table'.blockToHash.length = table.blockToHash.length ∧
      ∀ b ∈ ids, b < table.blockToHash.length := by
  induction keys generalizing done ids T table n with
  | nil =>
    have none : ids = [] := List.length_eq_zero_iff.mp (by simpa using legal.aligned.symm)
    subst none
    cases result
    exact ⟨sound,coupled,rfl,fun b member => absurd member List.not_mem_nil⟩
  | cons key keys ih =>
    cases ids with
    | nil => simpa using legal.aligned
    | cons id ids =>
      simp only [HashTableBlockHash.insertBlocks,Option.bind_eq_bind,Option.bind_eq_some_iff,Option.pure_def,Option.some.injEq,
        Prod.mk.injEq] at result
      obtain ⟨⟨u,one⟩,step,⟨v,more⟩,rest,rfl,_⟩ := result
      have last : (done++[key]).getLast? = some key := by simp
      -- where the id already is, it is at this path
      have known : ∀ path, id ∈ T path → path = done++[key] := fun path member => by
        simpa using legal.placed 0 id path (by simp) member
      have free : table.tracked id = none ∨ table.tracked id = some key := by
        cases hash : table.tracked id with
        | none => exact .inl rfl
        | some h =>
          obtain ⟨path,ending,member⟩ := (coupled.held h id).mp ((sound.reversed h id).mpr hash)
          rw [known path member,last] at ending
          exact .inr ending.symm
      obtain ⟨sound',size,bound,holds⟩ := sound.insertBlock free step
      have coupled' : Coupled family (insertAt T (done++[key]) id) u := by
        refine ⟨?_,fun h b => ?_⟩
        · rintro path b (old | ⟨rfl,_,_⟩)
          · exact coupled.placed path b old
          · refine ⟨by simp,s,inside,List.IsPrefix.trans ?_ before⟩
            exact ⟨keys,by simp⟩
        · rw [holds,coupled.held]
          constructor
          · rintro (⟨path,ending,member⟩ | ⟨rfl,rfl⟩)
            · exact ⟨path,ending,.inl member⟩
            · by_cases registered : Registered T b
              · obtain ⟨path,member⟩ := registered
                exact ⟨done++[h],last,.inl (known path member ▸ member)⟩
              · exact ⟨done++[h],last,.inr ⟨rfl,rfl,registered⟩⟩
          · rintro ⟨path,ending,old | ⟨rfl,rfl,_⟩⟩
            · exact .inl ⟨path,ending,old⟩
            · rw [last,Option.some.injEq] at ending
              exact .inr ⟨ending.symm,rfl⟩
      obtain ⟨sound'',coupled'',size',bounds⟩ := ih coupled' sound' (insertable_cons legal) (by simpa using before) rest
      refine ⟨sound'',coupled'',size'.trans size,fun b member => ?_⟩
      rcases List.mem_cons.mp member with rfl | later
      · exact bound
      · exact size ▸ bounds b later

theorem remove {ids : List BlockId} (coupled : Coupled family T table) (chained : Chained family) (sound : table.Sound)
    (valid : WellFormed T) (result : table.remove ids = some table')
    (quiet : ∀ h, (table.map.lookup h).isSome → table'.map.lookup h = none →
      ∀ later, After family h later → table'.map.lookup later = none) :
    Coupled family (PrefixTrie.remove T ids) table' := by
  obtain ⟨sound',_,_,holds⟩ := sound.remove result
  have exact_ := fun x q => mem_remove_exact valid ids (by
    intro path longer above proper emptied y member
    obtain ⟨_,s,inside,before⟩ := coupled.placed longer y member
    by_cases whole : path.length = longer.length
    · obtain rfl := above.eq_of_length whole
      exact emptied y member
    have more : longer ≠ [] := fun empty => proper (List.prefix_nil.mp (empty ▸ above))
    obtain ⟨h,last⟩ := Option.isSome_iff_exists.mp (List.getLast?_isSome.mpr proper)
    obtain ⟨later,ending⟩ := Option.isSome_iff_exists.mp (List.getLast?_isSome.mpr more)
    have before' := above.trans before
    have known := (coupled.present_iff chained sound inside before' last).mp (valid.closed path longer above proper ⟨y,member⟩)
    have lost : table'.map.lookup h = none := by
      apply Option.not_isSome_iff_eq_none.mp
      intro still
      obtain ⟨b,held⟩ := (sound'.lookup_isSome h).mp still
      obtain ⟨old,outside⟩ := (holds h b).mp held
      exact outside (emptied b (coupled.path_of_held chained inside before' last old))
    have chain : After family h later := by
      have shorter := above.length_le
      have positive := List.length_pos_of_ne_nil proper
      exact ⟨s,inside,path.length-1,longer.length-1,by omega,(getLast_initial proper before').symm.trans last,
        (getLast_initial more before).symm.trans ending⟩
    have gone := quiet h known lost later chain
    apply Classical.byContradiction
    intro outside
    have held := (holds later y).mpr ⟨(coupled.held later y).mpr ⟨longer,ending,member⟩,outside⟩
    have still := (sound'.lookup_isSome later).mpr ⟨y,held⟩
    rw [gone] at still
    cases still) x q
  refine ⟨fun path b member => coupled.placed path b ((exact_ b path).mp member).1,fun h b => ?_⟩
  rw [holds,coupled.held]
  constructor
  · rintro ⟨⟨path,last,member⟩,outside⟩
    exact ⟨path,last,(exact_ b path).mpr ⟨member,outside⟩⟩
  · rintro ⟨path,last,member⟩
    obtain ⟨old,outside⟩ := (exact_ b path).mp member
    exact ⟨⟨path,last,old⟩,outside⟩

end Coupled

-- A call on whole chained sequences, and on ids whose removal empties no hash
-- while a later one on its chain keeps an id.
def Radix.Call.Fits (family : Set (List Hash)) (table : HashTableBlockHash) : Call → Prop
  | .insert hashes bids => hashes ∈ family ∧ hashes.length = bids.length ∧ bids.Nodup ∧
      ∀ (i : Nat) b h, bids[i]? = some b → hashes[i]? = some h → table.tracked b = none ∨ table.tracked b = some h
  | .remove bids => ∀ table', table.remove bids = some table' → ∀ h, (table.map.lookup h).isSome → table'.map.lookup h = none →
      ∀ later, After family h later → table'.map.lookup later = none
  | .get _ => True

def Radix.Call.bids : Call → List BlockId
  | .insert _ bids => bids
  | .remove bids => bids
  | .get _ => []

def Fitting (family : Set (List Hash)) : HashTableBlockHash → List Call → Prop
  | _,[] => True
  | table,call::rest => call.Fits family table ∧ ∀ table', call.apply table = some table' → Fitting family table' rest

structure Agreeing (family : Set (List Hash)) (tree : RadixTreeBlockHash) (T : Trie Hash BlockId) (table : HashTableBlockHash) : Prop where
  refines : Refines tree T
  sound : table.Sound
  coupled : Coupled family T table
  blocks : tree.blockToNode.length = table.blockToHash.length

namespace Agreeing

theorem valid (agreeing : Agreeing family tree T table) : WellFormed T := by
  obtain ⟨pre,standing⟩ := agreeing.refines
  exact standing.valid

theorem new (family : Set (List Hash)) (numBlocks : Nat) :
    Agreeing family (RadixTreeBlockHash.new numBlocks) PrefixTrie.empty (HashTableBlockHash.new numBlocks) :=
  ⟨refines_new numBlocks,sound_new numBlocks,Coupled.empty numBlocks,by simp [RadixTreeBlockHash.new,HashTableBlockHash.new]⟩

-- Whatever the table answers, the tree answers too, and both stay together.
theorem step {call : Call} (agreeing : Agreeing family tree T table) (chained : Chained family) (fits : call.Fits family table)
    (result : call.apply table = some table') :
    (∃ tree' T', call.apply tree = some tree' ∧ Agreeing family tree' T' table') ∧
      table'.blockToHash.length = table.blockToHash.length := by
  cases call with
  | insert hashes bids =>
    obtain ⟨inside,aligned,distinct,placed⟩ := fits
    have legal := agreeing.coupled.insertable chained agreeing.sound inside aligned distinct placed
    simp only [Call.apply,Option.map_eq_some_iff] at result
    obtain ⟨⟨last,n⟩,result,rfl⟩ := result
    change table.insert hashes bids = some (last,n) at result
    simp only [HashTableBlockHash.insert,Option.bind_eq_bind,Option.bind_eq_some_iff,Option.pure_def,Option.some.injEq,
      Prod.mk.injEq] at result
    obtain ⟨⟨u,m⟩,blocks,rfl,_⟩ := result
    obtain ⟨sound',coupled',size,bounds⟩ := agreeing.coupled.insertBlocks agreeing.sound legal inside (List.prefix_refl _) blocks
    obtain ⟨tree',grown,kept,refines'⟩ := agreeing.refines.insert_spec legal fun b member => by
      rw [agreeing.blocks]
      exact bounds b member
    have step : BlockHash.insert tree hashes bids = some (tree',_) := grown
    refine ⟨⟨tree',_,by simp only [Call.apply,step,Option.map_some],refines',⟨sound'.filled,sound'.reversed⟩,
      ⟨coupled'.placed,coupled'.held⟩,?_⟩,size⟩
    rw [kept,agreeing.blocks]
    exact size.symm
  | remove bids =>
    obtain ⟨sound',size,bounds,_⟩ := agreeing.sound.remove result
    obtain ⟨tree',shrunk,kept,refines'⟩ := agreeing.refines.remove_spec fun b member => by
      rw [agreeing.blocks]
      exact bounds b member
    refine ⟨⟨tree',_,shrunk,refines',sound',
      agreeing.coupled.remove chained agreeing.sound agreeing.valid result (fits table' result),?_⟩,size⟩
    rw [kept,size,agreeing.blocks]
  | get query =>
    cases result
    have step : BlockHash.get tree query = some (PrefixTrie.get T query) := agreeing.refines.get_spec query
    exact ⟨⟨tree,T,by simp only [Call.apply,step,Option.map_some],agreeing⟩,rfl⟩

theorem run {calls : List Call} (agreeing : Agreeing family tree T table) (chained : Chained family) (fitting : Fitting family table calls)
    (result : calls.foldlM Call.apply table = some table') :
    ∃ tree' T', calls.foldlM Call.apply tree = some tree' ∧ Agreeing family tree' T' table' := by
  induction calls generalizing tree T table with
  | nil =>
    cases result
    exact ⟨tree,T,rfl,agreeing⟩
  | cons call rest ih =>
    simp only [List.foldlM_cons,Option.bind_eq_bind,Option.bind_eq_some_iff] at result
    obtain ⟨next,first,result⟩ := result
    obtain ⟨⟨tree₁,T₁,step,agreeing₁⟩,_⟩ := agreeing.step chained fitting.1 first
    obtain ⟨last,T₂,ran,agreeing₂⟩ := ih agreeing₁ (fitting.2 next first) result
    exact ⟨last,T₂,by rw [List.foldlM_cons,step]; exact ran,agreeing₂⟩

-- Calls that fit, on ids of the back end, return.
theorem applied {calls : List Call} (agreeing : Agreeing family tree T table) (chained : Chained family) (fitting : Fitting family table calls)
    (bound : ∀ call ∈ calls, ∀ b ∈ call.bids, b < table.blockToHash.length) : ∃ table', calls.foldlM Call.apply table = some table' := by
  induction calls generalizing tree T table with
  | nil => exact ⟨table,rfl⟩
  | cons call rest ih =>
    have returned : ∃ next, call.apply table = some next := by
      have fits := bound call List.mem_cons_self
      cases call with
      | insert hashes bids =>
        obtain ⟨⟨last,n⟩,done⟩ := insert_total hashes fits
        have step : BlockHash.insert table hashes bids = some (last,n) := done
        exact ⟨last,by simp only [Call.apply,step,Option.map_some]⟩
      | remove bids => exact agreeing.sound.remove_total fits
      | get query => exact ⟨table,rfl⟩
    obtain ⟨next,first⟩ := returned
    obtain ⟨⟨_,_,_,agreeing₁⟩,size⟩ := agreeing.step chained fitting.1 first
    obtain ⟨last,ran⟩ := ih agreeing₁ (fitting.2 next first) fun call member => size ▸ bound call (List.mem_cons_of_mem _ member)
    exact ⟨last,by rw [List.foldlM_cons,first]; exact ran⟩

end Agreeing

theorem backends_agree (numBlocks : Nat) (family : Set (List Hash)) (chained : Chained family) (calls : List Call)
    (fitting : Fitting family (HashTableBlockHash.new numBlocks) calls) (table : HashTableBlockHash)
    (applied : calls.foldlM Call.apply (HashTableBlockHash.new numBlocks) = some table) :
    ∃ tree, calls.foldlM Call.apply (RadixTreeBlockHash.new numBlocks) = some tree ∧
      ∀ query, Chained (insert query family) → tree.get query = some (table.get query) := by
  obtain ⟨tree,T,ran,agreeing⟩ := (Agreeing.new family numBlocks).run chained fitting applied
  refine ⟨tree,ran,fun query joins => ?_⟩
  have coupled := agreeing.coupled.mono (Set.subset_insert query family)
  rw [agreeing.refines.get_spec query,coupled.get_eq joins agreeing.sound agreeing.valid (Set.mem_insert query family)]

-- The second sequence takes over an id that the removal freed.
theorem backends_agree_reused : ∃ table tree,
    [.insert [1,2] [0,1],.remove [0,1],.insert [1,3] [0,2]].foldlM Call.apply (HashTableBlockHash.new 4) = some table ∧
      [.insert [1,2] [0,1],.remove [0,1],.insert [1,3] [0,2]].foldlM Call.apply (RadixTreeBlockHash.new 4) = some tree ∧
      ∀ query, Chained (insert query {[1,2],[1,3]}) → tree.get query = some (table.get query) := by
  have chained : Chained {[1,2],[1,3]} := by
    have check : ∀ s ∈ [[1,2],[1,3]], ∀ s' ∈ [[1,2],[1,3]], ∀ i < 2, ∀ j < 2, s[i]? = s'[j]? → s.take (i+1) = s'.take (j+1) := by decide
    have size : ∀ s ∈ ({[1,2],[1,3]} : Set (List Hash)), s ∈ [[1,2],[1,3]] ∧ s.length = 2 := by
      rintro s (rfl | rfl) <;> decide
    intro s inside s' within i j h one two
    obtain ⟨listed,length⟩ := size s inside
    obtain ⟨among,count⟩ := size s' within
    have bound := (List.getElem?_eq_some_iff.mp one).1
    have limit := (List.getElem?_eq_some_iff.mp two).1
    exact check s listed s' among i (length ▸ bound) j (count ▸ limit) (one.trans two.symm)
  have fitting : Fitting {[1,2],[1,3]} (HashTableBlockHash.new 4) [.insert [1,2] [0,1],.remove [0,1],.insert [1,3] [0,2]] := by
    refine ⟨⟨.inl rfl,rfl,by decide,?_⟩,fun t₁ first => ⟨?_,fun t₂ second => ⟨⟨.inr rfl,rfl,by decide,?_⟩,fun _ _ => trivial⟩⟩⟩
    · intro i b h named _
      exact .inl ((by decide : ∀ b ∈ [0,1], (HashTableBlockHash.new 4).tracked b = none) b (List.mem_of_getElem? named))
    · -- the removal empties the table
      intro t₂ second h _ _ later _
      have empty : ((Call.apply (HashTableBlockHash.new 4) (.insert [1,2] [0,1])).bind fun t => t.remove [0,1]).map
          (fun t => t.map.entries) = some [] := by rfl
      rw [first,Option.bind_some,second,Option.map_some,Option.some.injEq] at empty
      have none : t₂.map = ∅ := AList.ext empty
      rw [none]
      exact AList.lookup_empty later
    · intro i b h named _
      have free : ((Call.apply (HashTableBlockHash.new 4) (.insert [1,2] [0,1])).bind fun t => Call.apply t (.remove [0,1])).map
          (fun t => (t.tracked 0,t.tracked 2)) = some (none,none) := by decide
      rw [first,Option.bind_some,second,Option.map_some,Option.some.injEq,Prod.mk.injEq] at free
      rcases List.mem_pair.mp (List.mem_of_getElem? named) with rfl | rfl
      · exact .inl free.1
      · exact .inl free.2
  obtain ⟨table,applied⟩ := (Agreeing.new {[1,2],[1,3]} 4).applied chained fitting (by decide)
  obtain ⟨tree,ran,agree⟩ := backends_agree 4 _ chained _ fitting table applied
  exact ⟨table,tree,applied,ran,agree⟩

end BlitzRouter
