import BlitzRouter.RadixInsert
import BlitzRouter.RadixRemove

namespace BlitzRouter.Radix
open PrefixTrie CommonPrefix RadixTreeBlockHash

variable {t t' : RadixTreeBlockHash} {pre : Ptr → List Hash} {T : Trie Hash BlockId}

-- The outcome of one insertion: it answers with the number of new paths.
structure Inserted (t : RadixTreeBlockHash) (T : Trie Hash BlockId) (key : List Hash) (ids : List BlockId)
    (t' : RadixTreeBlockHash) (n : Nat) : Prop where
  count : n = key.length-get T key
  blocks : t'.blockToNode.length = t.blockToNode.length
  root : t'.root = t.root
  refines : Refines t' (insert T key ids)

section Insert
variable {key : List Hash} {ids : List BlockId} (standing : Standing t pre T) (legal : Insertable T [] key ids)
  (bound : ∀ b ∈ ids, b < t.blockToNode.length)
include standing legal bound

theorem Standing.alias_whole (held : Present T key) :
    ∃ t', t.aliasPath key ids = some t' ∧ Inserted t T key ids t' 0 := by
  obtain ⟨t',result,same,standing'⟩ := standing.aliasPath_spec legal.aligned bound (.inr held)
  refine ⟨t',result,?_,same.blocks,same.root,pre,standing'⟩
  rw [get_eq_length standing.valid (.inr held),Nat.sub_self]

-- The matched prefix is aliased first; what is left over fits below it.
theorem Standing.alias_matched (done : List Hash) {key1 : List Hash} (path : done++key1 = key) (held : done = [] ∨ Present T done) :
    ∃ t', t.aliasPath (key.take (key.length-key1.length)) (ids.take (key.length-key1.length)) = some t' ∧ SameForest t t' ∧
      Standing t' pre (insert T done (ids.take done.length)) ∧
      Insertable (insert T done (ids.take done.length)) done key1 (ids.drop done.length) ∧
      insert T key ids = insertFrom done key1 (ids.drop done.length) (insert T done (ids.take done.length)) ∧
      key.length-key1.length = done.length := by
  subst path
  have aligned := legal.aligned
  rw [List.length_append] at aligned
  have size : (done++key1).length-key1.length = done.length := by simp
  have short : done.length = (ids.take done.length).length := by rw [List.length_take]; omega
  have halves : Insertable T [] (done++key1) (ids.take done.length++ids.drop done.length) := by
    rw [List.take_append_drop]; exact legal
  obtain ⟨_,rest⟩ := insertable_append halves short
  rw [size,List.take_left]
  obtain ⟨t',result,same,standing'⟩ := standing.aliasPath_spec short
    (fun b member => bound b (List.mem_of_mem_take member)) held
  refine ⟨t',result,same,standing',rest,?_,rfl⟩
  have whole : insertFrom [] (done++key1) (ids.take done.length++ids.drop done.length) T = _ := insertFrom_append [] short T
  rw [List.take_append_drop] at whole
  exact whole

theorem Standing.below_full {q : Ptr} {n : Node} {key1 : List Hash} (found : t.heap.read q = some n) (filled : n.value ≠ [])
    (path : pre q++n.value++key1 = key) (ready : ∀ first, key1.head? = some first → Ready t q first) :
    ∃ t' c, t.insertBelow key ids key1 (.fullMatch q) = some (t',c) ∧ Inserted t T key ids t' c := by
  have held : Present T (pre q++n.value) := by
    obtain ⟨_,_,_,_,located⟩ := standing.skeleton.ends_at ⟨n,found,.inr filled,rfl⟩ (by simp [filled])
    exact (standing.present_iff _).mpr ⟨q,_,located⟩
  cases key1 with
  | nil =>
    rw [List.append_nil] at path
    obtain ⟨t',result,inserted⟩ := standing.alias_whole legal bound (path ▸ held)
    exact ⟨t',0,by simp [insertBelow,result],inserted⟩
  | cons first rest =>
    obtain ⟨t₁,aliased,same,standing₁,legal₁,whole,size⟩ := standing.alias_matched legal bound _ path (.inr held)
    obtain ⟨m,found₁,_,value⟩ := same.node found
    have ready₁ := same.ready (ready first rfl)
    have absent : ¬Present T (pre q++n.value++[first]) :=
      standing.not_present_child found (.inr filled) (standing.headless (ready first rfl) found)
    have absent₁ := standing₁.not_present_child found₁ (.inr (by rw [value]; exact filled)) (standing₁.headless ready₁ found₁)
    rw [value] at absent₁
    have total : (pre q++n.value).length+(first::rest).length = key.length := by
      rw [← List.length_append,path]
    have count : (first::rest).length = key.length-get T key := by
      have reached : get T key = (pre q++n.value).length := by
        subst path
        refine get_eq_of standing.valid (by simp) (.inr (by rwa [List.take_left])) (fun _ => ?_)
        rwa [List.take_length_add_append]
      omega
    have bound₁ : ∀ b ∈ ids.drop (pre q++n.value).length, b < t₁.blockToNode.length := fun b member => by
      rw [same.blocks]; exact bound b (List.mem_of_mem_drop member)
    have room : key.length-(first::rest).length ≤ ids.length ∧
        (first::rest).length = (ids.drop (key.length-(first::rest).length)).length := by
      have aligned := legal.aligned
      rw [List.length_drop]
      omega
    have body : ∃ t' pre', (if m.children.isEmpty then t₁.extendLeaf q (first::rest) (ids.drop (key.length-(first::rest).length))
        else t₁.insertAsChild q (first::rest) (ids.drop (key.length-(first::rest).length))) = some t' ∧
        t'.root = t₁.root ∧ t'.blockToNode.length = t₁.blockToNode.length ∧ Standing t' pre' (insert T key ids) := by
      rw [whole,size]
      by_cases leaf : m.children.isEmpty = true
      · rw [if_pos leaf]
        obtain ⟨t',result,root,blocks,standing'⟩ := standing₁.extendLeaf_spec found₁ (by rw [value]; exact filled)
          ((children_isEmpty _).mp leaf) (by rw [value]; exact legal₁) (by rw [value]; exact absent₁) bound₁
        exact ⟨t',pre,result,root,blocks,by rw [value] at standing'; exact standing'⟩
      · rw [if_neg leaf]
        obtain ⟨t',pre',result,root,blocks,standing'⟩ := standing₁.insertAsChild_spec found₁ (.inr (by rw [value]; exact filled))
          ready₁ (by rw [value]; exact legal₁) bound₁
        exact ⟨t',pre',result,root,blocks,by rw [value] at standing'; exact standing'⟩
    obtain ⟨t',pre',result,root,blocks,standing'⟩ := body
    refine ⟨t',_,?_,count,blocks.trans same.blocks,root.trans same.root,pre',standing'⟩
    simp only [insertBelow,reduceCtorEq,if_false,if_pos room,aliased,found₁,Option.bind_eq_bind,Option.bind_some]
    split at result
    · rename_i leaf
      rw [if_pos leaf,result]
      rfl
    · rename_i inner
      rw [if_neg inner,result]
      rfl

theorem Standing.below_inside {q : Ptr} {n : Node} {key1 : List Hash} (found : t.heap.read q = some n)
    (path : pre q++key1 = key) (lower : 0 < commonLen n.value key1) (upper : commonLen n.value key1 < n.value.length) :
    ∃ t' c, t.insertBelow key ids key1 (.partialMatch q (commonLen n.value key1)) = some (t',c) ∧
      Inserted t T key ids t' c := by
  have limit := commonLen_le_right n.value key1
  have agree := take_commonLen n.value key1
  have here : Present T (pre q++key1.take (commonLen n.value key1)) :=
    (standing.present_iff _).mpr ⟨q,commonLen n.value key1-1,n,found,by omega,by rw [Nat.sub_add_cancel lower,agree]⟩
  by_cases all : key1.length = commonLen n.value key1
  · rw [← all,List.take_length,path] at here
    obtain ⟨t',result,inserted⟩ := standing.alias_whole legal bound here
    exact ⟨t',0,by simp [insertBelow,all,result],inserted⟩
  · have held : pre q = [] ∨ Present T (pre q) := by
      by_cases top : pre q = []
      · exact .inl top
      · exact .inr (standing.valid.closed _ _ (List.prefix_append _ _) top here)
    obtain ⟨t₁,aliased,same,standing₁,legal₁,whole,size⟩ := standing.alias_matched legal bound (pre q) path held
    obtain ⟨m,found₁,_,value⟩ := same.node found
    have total : (pre q).length+key1.length = key.length := by rw [← List.length_append,path]
    have leaves := standing.leaves_inside found lower upper (by omega)
    have count : key1.length-commonLen n.value key1 = key.length-get T key := by
      have reached : get T key = (pre q).length+commonLen n.value key1 := by
        subst path
        refine get_eq_of standing.valid (by rw [List.length_append]; omega) (.inr ?_) (fun _ => ?_)
        · rwa [List.take_length_add_append]
        · rwa [Nat.add_assoc,List.take_length_add_append]
      omega
    have room : key.length-key1.length ≤ ids.length ∧ key1.length = (ids.drop (key.length-key1.length)).length := by
      have aligned := legal.aligned
      rw [List.length_drop]
      omega
    rw [← value] at lower upper all leaves
    obtain ⟨t',pre',result,root,blocks,standing'⟩ := standing₁.split_spec found₁ rfl lower upper (by rw [value] at all ⊢; omega)
      legal₁ fun b member => by rw [same.blocks]; exact bound b (List.mem_of_mem_drop member)
    refine ⟨t',_,?_,count,blocks.trans same.blocks,root.trans same.root,pre',whole ▸ standing'⟩
    rw [value] at result all
    simp only [insertBelow,if_neg all,if_pos room,aliased,Option.bind_eq_bind,Option.bind_some]
    rw [size,result]
    rfl

theorem Standing.insertInner_spec :
    ∃ t' c, t.insertInner key ids = some (t',c) ∧ Inserted t T key ids t' c := by
  cases key with
  | nil =>
    refine ⟨t,0,by simp [insertInner],by simp,rfl,rfl,pre,?_⟩
    have none : ids = [] := List.length_eq_zero_iff.mp (by simpa using legal.aligned.symm)
    simpa [none,PrefixTrie.insert,insertFrom] using standing
  | cons first rest =>
    obtain ⟨t₁,n,hit,standing₁,same,blank,level,step⟩ := standing.root_step first rest
    have bound₁ : ∀ b ∈ ids, b < t₁.blockToNode.length := fun b member => by rw [same.table]; exact bound b member
    have carry : ∀ {t' c}, Inserted t₁ T (first::rest) ids t' c → Inserted t T (first::rest) ids t' c :=
      fun done => ⟨done.count,done.blocks.trans (congrArg List.length same.table),done.root.trans same.root,done.refines⟩
    have topLabel : pre t.root = [] := standing.skeleton.rootPre
    cases hit with
    | none =>
      cases level with
      | miss parent ready =>
        have label : pre t.root++n.value = [] := by rw [topLabel,blank]; rfl
        have absent : ¬Present T [first] := by
          have missing := standing₁.not_present_child parent (.inl same.root.symm) (standing₁.headless (ready first rfl) parent)
          simpa [label] using missing
        have none : get T (first::rest) = 0 :=
          get_eq_of standing.valid (Nat.zero_le _) (.inl rfl) (fun _ => by simpa using absent)
        obtain ⟨t',pre',result,root,blocks,standing'⟩ := standing₁.insertAsChild_spec parent (.inl same.root.symm)
          (ready first rfl) (by rw [label]; exact legal) bound₁
        refine ⟨t',(first::rest).length,?_,carry ⟨by rw [none]; rfl,blocks,root,pre',?_⟩⟩
        · simp only [insertInner,step,reduceCtorEq,if_false,Option.bind_eq_bind,Option.bind_some,if_pos same.root.symm]
          rw [same.root,result]
          rfl
        · rw [label] at standing'
          exact standing'
    | some found =>
      obtain ⟨c,k⟩ := found
      obtain ⟨found,label,inner,shared⟩ := level.inside standing₁
      have top : pre c = [] := by rw [label,topLabel,blank]; rfl
      have limit := commonLen_le_left k.value (first::rest)
      by_cases whole : commonLen k.value (first::rest) = k.value.length
      · have split := take_commonLen_full whole
        have end_ : Ends t₁.heap.read t₁.root pre c k.value :=
          ⟨k,found,.inr (List.ne_nil_of_length_pos (by omega)),by rw [top]; rfl⟩
        obtain ⟨t₂,hit,key1,result,standing₂,same₂,landing⟩ := standing₁.combo_spec end_ inner
          (show ((first::rest).drop k.value.length).length < (first::rest).length+1 by rw [List.length_drop]; omega)
        rw [← split] at landing
        have bound₂ : ∀ b ∈ ids, b < t₂.blockToNode.length := fun b member => by rw [same₂.table]; exact bound₁ b member
        have below : ∃ t' c', t₂.insertBelow (first::rest) ids key1 hit = some (t',c') ∧ Inserted t₂ T (first::rest) ids t' c' := by
          cases landing with
          | full found filled path ready => exact standing₂.below_full legal bound₂ found filled path ready
          | inside found path lower upper => exact standing₂.below_inside legal bound₂ found path lower upper
        obtain ⟨t',c',done,inserted⟩ := below
        refine ⟨t',c',?_,carry ⟨inserted.count,inserted.blocks.trans (congrArg List.length same₂.table),
          inserted.root.trans same₂.root,inserted.refines⟩⟩
        simp only [insertInner,step,reduceCtorEq,if_false,Option.bind_eq_bind,Option.bind_some,classify,if_pos whole,found,
          result,done]
      · -- a first-level node is cut without registering aliases first: there is nothing above it
        obtain ⟨t',c',done,inserted⟩ := standing₁.below_inside legal bound₁ found (by rw [top]; rfl) shared (by omega)
        refine ⟨t',c',?_,carry inserted⟩
        simp only [insertInner,step,reduceCtorEq,if_false,Option.bind_eq_bind,Option.bind_some,classify,if_neg whole]
        have nothing : t₁.aliasPath [] [] = some t₁ := rfl
        have aligned := legal.aligned
        simp only [insertBelow,Nat.sub_self,List.take_zero,List.drop_zero,nothing,Nat.zero_le,true_and,
          if_pos aligned,Option.bind_eq_bind,Option.bind_some] at done
        exact done

end Insert

theorem Refines.insert_spec {keys : List Hash} {ids : List BlockId} (refines : Refines t T) (legal : Insertable T [] keys ids)
    (bound : ∀ b ∈ ids, b < t.blockToNode.length) :
    ∃ t', t.insert keys ids = some (t',created T keys ids) ∧ t'.blockToNode.length = t.blockToNode.length ∧
      Refines t' (PrefixTrie.insert T keys ids) := by
  obtain ⟨pre,standing⟩ := refines
  obtain ⟨t',c,result,inserted⟩ := standing.insertInner_spec legal bound
  obtain ⟨pre',standing'⟩ := inserted.refines
  refine ⟨{t' with size := t'.size+c,epoch := t'.epoch+1},?_,inserted.blocks,pre',standing'⟩
  rw [created_eq standing.valid legal,← inserted.count]
  simp [RadixTreeBlockHash.insert,result]

theorem Refines.remove_spec {ids : List BlockId} (refines : Refines t T) (bound : ∀ b ∈ ids, b < t.blockToNode.length) :
    ∃ t', t.remove ids = some t' ∧ t'.blockToNode.length = t.blockToNode.length ∧ Refines t' (PrefixTrie.remove T ids) := by
  have bumped : Refines {t with epoch := t.epoch+1} T := refines
  obtain ⟨t',removed,result,blocks,pre,standing⟩ := bumped.removeInner_spec bound
  refine ⟨{t' with size := t'.size-removed},?_,blocks,pre,standing⟩
  simp [RadixTreeBlockHash.remove,result]

theorem Refines.remove_outside {ids : List BlockId} (refines : Refines t T) (outside : ∃ b ∈ ids, t.blockToNode.length ≤ b) :
    t.remove ids = none := by
  have bumped : Refines {t with epoch := t.epoch+1} T := refines
  obtain ⟨b,member,high⟩ := outside
  have stopped := remove_list_outside bumped ⟨b,List.mem_reverse.mpr member,high⟩ 0
  simp only [RadixTreeBlockHash.remove,removeInner_eq,stopped,Option.bind_eq_bind,Option.bind_none]

theorem Refines.get_spec (refines : Refines t T) (query : List Hash) : t.get query = some (PrefixTrie.get T query) := by
  obtain ⟨pre,standing⟩ := refines
  exact standing.get_eq query

theorem refines_new (numBlocks : Nat) : Refines (new numBlocks) PrefixTrie.empty := by
  have reads : ∀ p n, (new numBlocks).heap.read p = some n → p = 0 ∧ n = ⟨.small [],[],[]⟩ := by
    intro p n found
    have inside : p < 1 := Arena.read_bound found
    obtain rfl : p = 0 := by omega
    exact ⟨rfl,(Option.some.inj found).symm⟩
  have nowhere : ∀ p i path, ¬At (new numBlocks).heap.read (fun _ => []) p i path := by
    rintro p i path ⟨n,found,bound,_⟩
    obtain ⟨_,rfl⟩ := reads p n found
    simp at bound
  have free : ∀ b, (new numBlocks).slot b = none := by
    intro b
    simp only [RadixTreeBlockHash.slot,new,List.getElem?_replicate]
    split <;> rfl
  refine ⟨fun _ => [],⟨⟨⟨_,rfl,rfl⟩,rfl,?_,?_,?_,?_,?_,?_⟩,⟨?_,?_,?_,?_,?_⟩,wellFormed_empty⟩⟩
  · intro p n found _ _
    rw [(reads p n found).2]; rfl
  · intro p n found _ c
    obtain ⟨rfl,rfl⟩ := reads p n found
    simp only [ptrs_small,List.not_mem_nil,false_iff]
    rintro ⟨⟨k,live⟩,other,_⟩
    exact other (reads c k live).1
  · intro c k found other
    exact absurd (reads c k found).1 other
  · intro p n found
    rw [(reads p n found).2]; exact List.nodup_nil
  · intro c d k l one two _ _ _ _ _
    rw [(reads c k one).1,(reads d l two).1]
  · intro p n m found large
    rw [(reads p n found).2] at large
    cases large
  · intro p n found
    rw [(reads p n found).2]; rfl
  · intro p n i bids found slot
    rw [(reads p n found).2] at slot; cases slot
  · intro p n i bids found slot
    rw [(reads p n found).2] at slot; cases slot
  · intro path b member; cases member
  · intro b p
    rw [free]
    constructor
    · intro equal; cases equal
    · rintro ⟨_,_,member,_⟩; cases member

inductive Call where
  | insert (hashes : List Hash) (bids : List BlockId)
  | remove (bids : List BlockId)
  | get (query : List Hash)

-- What the calls of a history return until one of them panics.
def answers {β : Type} [BlockHash β] : β → List Call → List Nat
  | _,[] => []
  | t,.insert hashes bids::rest =>
    match BlockHash.insert t hashes bids with
    | none => []
    | some (t,inserted) => inserted::answers t rest
  | t,.remove bids::rest =>
    match BlockHash.remove t bids with
    | none => []
    | some t => answers t rest
  | t,.get query::rest =>
    match BlockHash.get t query with
    | none => []
    | some matched => matched::answers t rest

-- The uncompressed reference. No call answers after a removal has named an id
-- that is no block of the backend.
open Classical in
noncomputable def expected (numBlocks : Nat) : Trie Hash BlockId → List Call → List Nat
  | _,[] => []
  | T,.insert hashes bids::rest => created T hashes bids::expected numBlocks (PrefixTrie.insert T hashes bids) rest
  | T,.remove bids::rest =>
    if ∀ b ∈ bids, b < numBlocks then expected numBlocks (PrefixTrie.remove T bids) rest else []
  | T,.get query::rest => PrefixTrie.get T query::expected numBlocks T rest

def Legal (numBlocks : Nat) : Trie Hash BlockId → List Call → Prop
  | _,[] => True
  | T,.insert hashes bids::rest =>
    (Insertable T [] hashes bids ∧ ∀ b ∈ bids, b < numBlocks) ∧ Legal numBlocks (PrefixTrie.insert T hashes bids) rest
  | T,.remove bids::rest => Legal numBlocks (PrefixTrie.remove T bids) rest
  | T,.get _::rest => Legal numBlocks T rest

-- Induction on the history: every call answers like the reference and refines what follows.
theorem answers_expected {calls : List Call} (refines : Refines t T) (legal : Legal t.blockToNode.length T calls) :
    answers t calls = expected t.blockToNode.length T calls := by
  induction calls generalizing t T with
  | nil => rfl
  | cons call rest ih =>
    cases call with
    | insert hashes bids =>
      obtain ⟨⟨fits,bound⟩,legal⟩ := legal
      obtain ⟨t',result,blocks,refines'⟩ := refines.insert_spec fits bound
      have step : BlockHash.insert t hashes bids = some (t',created T hashes bids) := result
      simp only [answers,expected,step]
      rw [ih refines' (blocks ▸ legal),blocks]
    | remove bids =>
      by_cases bound : ∀ b ∈ bids, b < t.blockToNode.length
      · obtain ⟨t',result,blocks,refines'⟩ := refines.remove_spec bound
        have step : BlockHash.remove t bids = some t' := result
        simp only [answers,expected,step,if_pos bound]
        rw [ih refines' (blocks ▸ legal),blocks]
      · have outside : ∃ b ∈ bids, t.blockToNode.length ≤ b := by
          push Not at bound
          exact bound
        have step : BlockHash.remove t bids = none := refines.remove_outside outside
        simp only [answers,expected,step,if_neg bound]
    | get query =>
      have step : BlockHash.get t query = some (PrefixTrie.get T query) := refines.get_spec query
      simp only [answers,expected,step]
      rw [ih refines legal]

theorem radix_refines_trie (numBlocks : Nat) (calls : List Call) (legal : Legal numBlocks PrefixTrie.empty calls) :
    answers (new numBlocks) calls = expected numBlocks PrefixTrie.empty calls := by
  have blocks : (new numBlocks).blockToNode.length = numBlocks := List.length_replicate ..
  have legal' : Legal (new numBlocks).blockToNode.length PrefixTrie.empty calls := by rw [blocks]; exact legal
  have run := answers_expected (refines_new numBlocks) legal'
  rwa [blocks] at run

-- Two requests that share their first hash: the second one splits the node of the first.
theorem radix_refines_trie_split :
    answers (new 4) [.insert [1,2] [0,1],.insert [1,3] [2,3],.remove [1],.get [1,2]] =
      expected 4 PrefixTrie.empty [.insert [1,2] [0,1],.insert [1,3] [2,3],.remove [1],.get [1,2]] := by
  have first : Insertable (PrefixTrie.empty : Trie Hash BlockId) [] [1,2] [0,1] :=
    ⟨rfl,by decide,fun _ _ _ _ held => absurd held (Set.notMem_empty _)⟩
  have second : Insertable (PrefixTrie.insert PrefixTrie.empty [1,2] [0,1]) [] [1,3] [2,3] := by
    refine ⟨rfl,by decide,fun i b path named held => ?_⟩
    rcases (mem_insert first b path).mp held with old | ⟨j,again,_⟩
    · exact absurd old (Set.notMem_empty _)
    · have new : b ∈ [2,3] := List.mem_of_getElem? named
      have known : b ∈ [0,1] := List.mem_of_getElem? again
      simp only [List.mem_cons,List.not_mem_nil,or_false] at new known
      omega
  exact radix_refines_trie 4 _ ⟨⟨first,by decide⟩,⟨second,by decide⟩,trivial⟩

example : answers (new 4) [.insert [1,2] [0,1],.insert [1,3] [2,3],.remove [1],.get [1,2]] = [2,1,1] := by decide

end BlitzRouter.Radix
