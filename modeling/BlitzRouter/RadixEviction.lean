import BlitzRouter.RadixSize

namespace BlitzRouter.Radix
open PrefixTrie RadixTreeBlockHash

variable {t t' : RadixTreeBlockHash} {T : Trie Hash BlockId} {bids : List BlockId}

-- A position is emptied when the list names every id in it.
def Emptied (t : RadixTreeBlockHash) (bids : List BlockId) (path : List Hash) : Prop :=
  path ≠ [] ∧ ∀ y, RegisteredAt t y path → y ∈ bids

open Classical in
-- The ids off the list that hang at an emptied position or below one.
noncomputable def RadixTreeBlockHash.stranded (t : RadixTreeBlockHash) (bids : List BlockId) : Finset BlockId :=
  t.registered.filter fun b => b ∉ bids ∧ ∃ path above, RegisteredAt t b path ∧ above <+: path ∧ Emptied t bids above

def RadixTreeBlockHash.listed (t : RadixTreeBlockHash) (bids : List BlockId) : Finset BlockId := t.registered.filter (· ∈ bids)

theorem mem_listed : b ∈ t.listed bids ↔ b ∈ t.registered ∧ b ∈ bids := Finset.mem_filter

theorem mem_stranded : b ∈ t.stranded bids ↔
    b ∈ t.registered ∧ b ∉ bids ∧ ∃ path above, RegisteredAt t b path ∧ above <+: path ∧ Emptied t bids above := by
  simp only [stranded,Finset.mem_filter]

theorem Standing.mem_registered_iff {pre : Ptr → List Hash} (standing : Standing t pre T) (b : BlockId) :
    b ∈ t.registered ↔ ∃ path, b ∈ T path :=
  mem_registered.trans (Option.ne_none_iff_exists'.trans (standing.registered_iff b).symm)

-- What a removal takes off the index is what it was given and what it strands.
theorem Refines.removeInner_registered {removed : Nat} (refines : Refines t T) (bound : ∀ b ∈ bids, b < t.blockToNode.length)
    (done : t.removeInner bids = some (t',removed)) : t.registered \ t'.registered = t.listed bids ∪ t.stranded bids := by
  obtain ⟨u,count,result,_,pre',standing'⟩ := refines.removeInner_spec bound
  rw [done] at result
  cases result
  obtain ⟨pre,standing⟩ := refines
  ext b
  rw [Finset.mem_sdiff,Finset.mem_union,mem_listed,mem_stranded]
  constructor
  · rintro ⟨known,gone⟩
    by_cases inside : b ∈ bids
    · exact .inl ⟨known,inside⟩
    · obtain ⟨path,held⟩ := (standing.mem_registered_iff b).mp known
      refine .inr ⟨known,inside,path,?_⟩
      by_contra kept
      refine gone ((standing'.mem_registered_iff b).mpr ⟨path,(mem_remove standing.valid bids b path).mpr ⟨held,inside,fun above before proper => ?_⟩⟩)
      by_contra emptied
      push Not at emptied
      exact kept ⟨above,(standing.registeredAt_iff b path).mpr held,before,proper,fun y there => emptied y ((standing.registeredAt_iff y above).mp there)⟩
  · rintro (⟨known,inside⟩ | ⟨known,inside,path,above,there,before,proper,emptied⟩)
    · refine ⟨known,fun still => ?_⟩
      obtain ⟨path,held⟩ := (standing'.mem_registered_iff b).mp still
      exact ((mem_remove standing.valid bids b path).mp held).2.1 inside
    · refine ⟨known,fun still => ?_⟩
      obtain ⟨other,held⟩ := (standing'.mem_registered_iff b).mp still
      obtain ⟨old,_,kept⟩ := (mem_remove standing.valid bids b other).mp held
      obtain rfl := standing.valid.single b other path old ((standing.registeredAt_iff b path).mp there)
      obtain ⟨y,stays,missing⟩ := kept above before proper
      exact missing (emptied y ((standing.registeredAt_iff y above).mpr stays))

theorem Refines.removeInner_count {removed : Nat} (refines : Refines t T) (bound : ∀ b ∈ bids, b < t.blockToNode.length)
    (done : t.removeInner bids = some (t',removed)) : removed = (t.listed bids).card+(t.stranded bids).card := by
  have gone := refines.removeInner_registered bound done
  obtain ⟨pre,standing⟩ := refines
  have spent := standing.indexed.removeInner done
  have apart : Disjoint (t.listed bids) (t.stranded bids) := by
    refine Finset.disjoint_left.mpr fun b inside out => ?_
    exact (mem_stranded.mp out).2.1 (mem_listed.mp inside).2
  have fewer : t'.registered ⊆ t.registered := by
    obtain ⟨u,count,result,_,pre',standing'⟩ := Refines.removeInner_spec ⟨pre,standing⟩ bound
    rw [done] at result
    cases result
    intro b still
    obtain ⟨path,held⟩ := (standing'.mem_registered_iff b).mp still
    exact (standing.mem_registered_iff b).mpr ⟨path,((mem_remove standing.valid bids b path).mp held).1⟩
  have size := Finset.card_sdiff_add_card_eq_card fewer
  rw [gone,Finset.card_union_of_disjoint apart] at size
  omega

-- The epoch counts the calls and holds no id.
theorem Refines.stranded_epoch (refines : Refines t T) (epoch : Nat) (bids : List BlockId) :
    ({t with epoch} : RadixTreeBlockHash).stranded bids = t.stranded bids := by
  obtain ⟨pre,standing⟩ := refines
  have later : Standing {t with epoch} pre T := standing
  have same : ∀ y path, RegisteredAt {t with epoch} y path ↔ RegisteredAt t y path := fun y path =>
    (later.registeredAt_iff y path).trans (standing.registeredAt_iff y path).symm
  ext b
  simp only [mem_stranded,Emptied,same]
  rfl

namespace Call

-- The assertion at the end of `remove_inner`.
def Asserted (t : RadixTreeBlockHash) : Call → Prop
  | .remove bids => ∀ t' nblockCanary, {t with epoch := t.epoch+1}.removeInner bids = some (t',nblockCanary) → nblockCanary ≤ bids.length
  | _ => True

-- The list has an entry to spare for each id it strands.
def Spares (t : RadixTreeBlockHash) : Call → Prop
  | .remove bids => (t.stranded bids).card ≤ bids.length-(t.listed bids).card
  | _ => True

end Call

theorem listed_le (t : RadixTreeBlockHash) (bids : List BlockId) : (t.listed bids).card ≤ bids.length := by
  refine (Finset.card_le_card fun b member => ?_).trans (List.toFinset_card_le bids)
  exact List.mem_toFinset.mpr (mem_listed.mp member).2

theorem Refines.asserted_iff {call : Call} (refines : Refines t T) (allowed : call.Allowed t) : call.Asserted t ↔ call.Spares t := by
  cases call with
  | insert hashes bids => exact Iff.rfl
  | get query => exact Iff.rfl
  | remove bids =>
    have bumped : Refines {t with epoch := t.epoch+1} T := refines
    obtain ⟨u,count,result,_,_⟩ := bumped.removeInner_spec allowed
    have exact_ : count = (t.listed bids).card+(t.stranded bids).card := by
      rw [bumped.removeInner_count allowed result,refines.stranded_epoch]
      rfl
    have room := listed_le t bids
    change (∀ t' nblockCanary, {t with epoch := t.epoch+1}.removeInner bids = some (t',nblockCanary) → nblockCanary ≤ bids.length) ↔ _
    rw [result]
    constructor
    · intro asserted
      have within := asserted u count rfl
      change (t.stranded bids).card ≤ bids.length-(t.listed bids).card
      omega
    · rintro spares t' nblockCanary same
      cases same
      change (t.stranded bids).card ≤ bids.length-(t.listed bids).card at spares
      omega

theorem Refines.along_asserted {calls : List Call} (refines : Refines t T) (counted : t.Counted) (admissible : Admissible t calls) :
    Along Call.Asserted t calls ↔ Along Call.Spares t calls := by
  induction calls generalizing t T with
  | nil => exact Iff.rfl
  | cons call rest ih =>
    obtain ⟨t',T',step,refines',counted'⟩ := apply_represents refines counted admissible.1
    refine and_congr (refines.asserted_iff admissible.1) ?_
    simp only [step,Option.some.injEq,forall_eq']
    exact ih refines' counted' (admissible.2 t' step)

-- Over any history the assertion holds in every removal exactly when none of them
-- strands more ids than its list can spare entries.
theorem removal_count_iff (numBlocks : Nat) (calls : List Call) (admissible : Admissible (RadixTreeBlockHash.new numBlocks) calls) :
    Along Call.Asserted (RadixTreeBlockHash.new numBlocks) calls ↔ Along Call.Spares (RadixTreeBlockHash.new numBlocks) calls :=
  (refines_new numBlocks).along_asserted (RadixTreeBlockHash.counted_new numBlocks) admissible

theorem admissible_insert {numBlocks : Nat} {hashes : List Hash} {bids : List BlockId} {rest : List Call} (aligned : hashes.length = bids.length)
    (distinct : bids.Nodup) (inside : ∀ b ∈ bids, b < numBlocks)
    (later : ∀ t, Call.apply (RadixTreeBlockHash.new numBlocks) (.insert hashes bids) = some t → Admissible t rest) :
    Admissible (RadixTreeBlockHash.new numBlocks) (.insert hashes bids::rest) := by
  refine ⟨⟨aligned,distinct,fun b member => by simpa [RadixTreeBlockHash.new] using inside b member,fun i b _ => .inl ?_⟩,later⟩
  rw [RadixTreeBlockHash.slot,RadixTreeBlockHash.new,List.getElem?_replicate]
  split <;> rfl

theorem admissible_inner : Admissible (RadixTreeBlockHash.new 2) [.insert [1,2] [0,1],.remove [0]] := by
  refine admissible_insert rfl (by decide) (by decide) fun t first => ⟨fun b member => ?_,fun _ _ => trivial⟩
  have blocks : (Call.apply (RadixTreeBlockHash.new 2) (.insert [1,2] [0,1])).map (fun t => t.blockToNode.length) = some 2 := by decide
  rw [first,Option.map_some,Option.some.injEq] at blocks
  rw [List.mem_singleton.mp member,blocks]
  decide

theorem removal_count_iff_inner : Along Call.Asserted (RadixTreeBlockHash.new 2) [.insert [1,2] [0,1],.remove [0]] ↔
    Along Call.Spares (RadixTreeBlockHash.new 2) [.insert [1,2] [0,1],.remove [0]] := removal_count_iff 2 _ admissible_inner

-- Only id 0 is given; id 1 hangs below it and goes too.
theorem inner_removal_fails : Admissible (RadixTreeBlockHash.new 2) [.insert [1,2] [0,1],.remove [0]] ∧
    ¬Along Call.Asserted (RadixTreeBlockHash.new 2) [.insert [1,2] [0,1],.remove [0]] := by
  refine ⟨admissible_inner,fun along => ?_⟩
  have counts : (Call.apply (RadixTreeBlockHash.new 2) (.insert [1,2] [0,1])).bind
      (fun t => ({t with epoch := t.epoch+1} : RadixTreeBlockHash).removeInner [0] |>.map Prod.snd) = some 2 := by decide
  obtain ⟨t,first,removed⟩ := Option.bind_eq_some_iff.mp counts
  obtain ⟨⟨t',count⟩,result,same⟩ := Option.map_eq_some_iff.mp removed
  have within : count ≤ 1 := (along.2 t first).1 t' count result
  obtain rfl : count = 2 := same
  omega

end BlitzRouter.Radix
