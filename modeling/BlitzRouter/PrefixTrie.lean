import Mathlib.Data.Nat.Find
import Mathlib.Data.Set.Basic
import Mathlib.Data.List.Infix
import Mathlib.Data.Finset.Card
import Mathlib.Order.Interval.Finset.Nat
import Mathlib.Data.Fintype.Card

namespace BlitzRouter.PrefixTrie
open Classical

-- An uncompressed trie is read off as the set of ids stored at each path;
-- a path is present when that set is not empty.
abbrev Trie (α β : Type*) := List α → Set β

variable {α β : Type*} {T : Trie α β}

def Present (T : Trie α β) (path : List α) : Prop := (T path).Nonempty
def Registered (T : Trie α β) (id : β) : Prop := ∃ path, id ∈ T path

structure WellFormed (T : Trie α β) : Prop where
  rooted : ¬Present T []
  closed : ∀ path longer, path <+: longer → path ≠ [] → Present T longer → Present T path
  single : ∀ id path other, id ∈ T path → id ∈ T other → path = other

def empty : Trie α β := fun _ => ∅

def insertAt (T : Trie α β) (path : List α) (id : β) : Trie α β :=
  fun q => {x | x ∈ T q ∨ (q = path ∧ x = id ∧ ¬Registered T id)}

def insertFrom (done : List α) : List α → List β → Trie α β → Trie α β
  | key::keys,id::ids,T => insertFrom (done++[key]) keys ids (insertAt T (done++[key]) id)
  | _,_,T => T

def insert (T : Trie α β) (keys : List α) (ids : List β) : Trie α β := insertFrom [] keys ids T

noncomputable def created (T : Trie α β) (keys : List α) (ids : List β) : Nat :=
  ((Finset.range keys.length).filter fun i =>
    ¬Present T (keys.take (i+1)) ∧ Present (insert T keys ids) (keys.take (i+1))).card

-- Taking the only id off a path drops that path with every extension of it.
def removeAt (T : Trie α β) (id : β) : Trie α β :=
  fun q => {x | x ∈ T q ∧ x ≠ id ∧ ∀ path, path <+: q → T path ≠ {id}}

def remove (T : Trie α β) (ids : List β) : Trie α β := ids.foldr (fun id T => removeAt T id) T

noncomputable def get (T : Trie α β) (query : List α) : Nat :=
  Nat.findGreatest (fun n => Present T (query.take n)) query.length

-- What an insertion below `done` may name: each id is new or already sits at its own path.
structure Insertable (T : Trie α β) (done : List α) (keys : List α) (ids : List β) : Prop where
  aligned : keys.length = ids.length
  distinct : ids.Nodup
  placed : ∀ (i : Nat) id path, ids[i]? = some id → id ∈ T path → path = done++keys.take (i+1)

theorem wellFormed_empty : WellFormed (empty : Trie α β) :=
  ⟨by simp [Present,empty],by simp [Present,empty],by simp [empty]⟩

theorem insertable_cons {id : β} (legal : Insertable T done (key::keys) (id::ids)) :
    Insertable (insertAt T (done++[key]) id) (done++[key]) keys ids := by
  have distinct := legal.distinct
  simp only [List.nodup_cons] at distinct
  refine ⟨by simpa using legal.aligned,distinct.2,?_⟩
  intro i other path found held
  rcases held with old | ⟨_,same,_⟩
  · simpa using legal.placed (i+1) other path (by simpa using found) old
  · subst same
    exact absurd (List.mem_of_getElem? found) distinct.1

theorem mem_insertFrom (legal : Insertable T done keys ids) (x : β) (q : List α) :
    x ∈ insertFrom done keys ids T q ↔
      x ∈ T q ∨ ∃ i : Nat, ids[i]? = some x ∧ q = done++keys.take (i+1) := by
  induction keys generalizing done ids T with
  | nil =>
    have none : ids = [] := List.length_eq_zero_iff.mp (by simpa using legal.aligned.symm)
    subst none
    simp [insertFrom]
  | cons key keys ih =>
    cases ids with
    | nil => simpa using legal.aligned
    | cons id ids =>
      rw [insertFrom,ih (insertable_cons legal)]
      constructor
      · rintro ((old | ⟨rfl,rfl,_⟩) | ⟨i,found,rfl⟩)
        · exact .inl old
        · exact .inr ⟨0,by simp,by simp⟩
        · exact .inr ⟨i+1,by simpa using found,by simp⟩
      · rintro (old | ⟨i,found,rfl⟩)
        · exact .inl (.inl old)
        · cases i with
          | succ i => exact .inr ⟨i,by simpa using found,by simp⟩
          | zero =>
            simp only [List.getElem?_cons_zero,Option.some.injEq] at found
            subst found
            by_cases known : Registered T id
            · obtain ⟨path,held⟩ := known
              have at_ := legal.placed 0 id path (by simp) held
              exact .inl (.inl (at_ ▸ held))
            · exact .inl (.inr ⟨by simp,rfl,known⟩)

theorem present_insertFrom (legal : Insertable T done keys ids) (q : List α) :
    Present (insertFrom done keys ids T) q ↔ Present T q ∨ ∃ i < keys.length, q = done++keys.take (i+1) := by
  constructor
  · rintro ⟨x,held⟩
    rcases (mem_insertFrom legal x q).mp held with old | ⟨i,found,same⟩
    · exact .inl ⟨x,old⟩
    · have bound := (List.getElem?_eq_some_iff.mp found).1
      exact .inr ⟨i,legal.aligned ▸ bound,same⟩
  · rintro (⟨x,old⟩ | ⟨i,bound,same⟩)
    · exact ⟨x,(mem_insertFrom legal x q).mpr (.inl old)⟩
    · have inside : i < ids.length := legal.aligned ▸ bound
      exact ⟨ids[i],(mem_insertFrom legal _ q).mpr (.inr ⟨i,by simp [inside],same⟩)⟩

theorem wellFormed_insertFrom (valid : WellFormed T) (legal : Insertable T done keys ids)
    (anchored : done = [] ∨ Present T done) : WellFormed (insertFrom done keys ids T) := by
  refine ⟨?_,?_,?_⟩
  · rw [present_insertFrom legal]
    rintro (old | ⟨i,bound,same⟩)
    · exact valid.rooted old
    · have empty := congrArg List.length same
      simp at empty
      omega
  · intro path longer extends_ nonempty held
    rw [present_insertFrom legal] at held ⊢
    rcases held with old | ⟨i,bound,rfl⟩
    · exact .inl (valid.closed path longer extends_ nonempty old)
    · -- a prefix of a new path ends inside `done` or at an earlier new path
      by_cases inner : path.length ≤ done.length
      · have above : path <+: done := List.prefix_of_prefix_length_le extends_ (List.prefix_append _ _) inner
        rcases anchored with rfl | held
        · exact absurd (List.prefix_nil.mp above) nonempty
        · exact .inl (valid.closed path done above nonempty held)
      · have le := extends_.length_le
        simp only [List.length_append,List.length_take] at le
        have taken := List.prefix_iff_eq_take.mp extends_
        rw [List.take_append,List.take_of_length_le (by omega : done.length ≤ path.length),List.take_take] at taken
        refine .inr ⟨path.length-done.length-1,by omega,?_⟩
        rw [show path.length-done.length-1+1 = min (path.length-done.length) (i+1) by omega]
        exact taken
  · intro id path other left right
    rw [mem_insertFrom legal] at left right
    rcases left with old | ⟨i,found,rfl⟩ <;> rcases right with prior | ⟨j,again,rfl⟩
    · exact valid.single id path other old prior
    · exact legal.placed j id path again old
    · exact (legal.placed i id other found prior).symm
    · have inside := (List.getElem?_eq_some_iff.mp found).1
      have same : i = j := (List.getElem?_inj inside legal.distinct).mp (found.trans again.symm)
      rw [same]

theorem insertAt_known (held : Registered T x) (path : List α) : insertAt T path x = T := by
  funext q
  ext y
  exact ⟨fun member => member.resolve_right fun new => new.2.2 held,.inl⟩

theorem insertFrom_mono (member : x ∈ T q) (done keys : List α) (ids : List β) : x ∈ insertFrom done keys ids T q := by
  induction keys generalizing done ids T with
  | nil => simpa [insertFrom] using member
  | cons key keys ih =>
    cases ids with
    | nil => simpa [insertFrom] using member
    | cons other ids => exact ih (.inl member) (done++[key]) ids

-- Ids that could only sit below a missing path are new.
theorem fresh_of_absent (valid : WellFormed T) (legal : Insertable T done (first::keys) ids)
    (absent : ¬Present T (done++[first])) (member : x ∈ ids) : ¬Registered T x := by
  rintro ⟨path,held⟩
  obtain ⟨i,found⟩ := List.mem_iff_getElem?.mp member
  have placed := legal.placed i x path found held
  apply absent
  refine valid.closed _ path ⟨keys.take i,?_⟩ (by simp) ⟨x,held⟩
  rw [placed]
  simp

theorem insertFrom_append (done : List α) {keys : List α} {ids : List β} (aligned : keys.length = ids.length)
    (T : Trie α β) :
    insertFrom done (keys++more) (ids++others) T = insertFrom (done++keys) more others (insertFrom done keys ids T) := by
  induction keys generalizing done ids T with
  | nil =>
    have none : ids = [] := List.length_eq_zero_iff.mp (by simpa using aligned.symm)
    simp [none,insertFrom]
  | cons key keys ih =>
    cases ids with
    | nil => simp at aligned
    | cons id ids =>
      simp only [List.cons_append,insertFrom]
      rw [ih (done++[key]) (by simpa using aligned)]
      simp

theorem insertable_append (legal : Insertable T done (keys++more) (ids++others)) (aligned : keys.length = ids.length) :
    Insertable T done keys ids ∧ Insertable (insertFrom done keys ids T) (done++keys) more others := by
  have whole := legal.aligned
  simp only [List.length_append] at whole
  obtain ⟨left,right,apart⟩ := List.nodup_append.mp legal.distinct
  have first : Insertable T done keys ids := by
    refine ⟨aligned,left,?_⟩
    intro i id path found held
    have bound := (List.getElem?_eq_some_iff.mp found).1
    rw [legal.placed i id path (by rw [List.getElem?_append_left bound]; exact found) held]
    rw [List.take_append_of_le_length (by omega)]
  refine ⟨first,by omega,right,?_⟩
  intro i id path found held
  rcases (mem_insertFrom first id path).mp held with old | ⟨j,before,_⟩
  · have shifted : (ids++others)[ids.length+i]? = some id := by
      rw [List.getElem?_append_right (by omega),Nat.add_sub_cancel_left]; exact found
    rw [legal.placed _ id path shifted old,← aligned,Nat.add_assoc,List.take_length_add_append,List.append_assoc]
  · exact absurd rfl (apart id (List.mem_of_getElem? before) id (List.mem_of_getElem? found))

theorem mem_insert (legal : Insertable T [] keys ids) (x : β) (q : List α) :
    x ∈ insert T keys ids q ↔ x ∈ T q ∨ ∃ i : Nat, ids[i]? = some x ∧ q = keys.take (i+1) :=
  mem_insertFrom legal x q

theorem present_insert (legal : Insertable T [] keys ids) (q : List α) :
    Present (insert T keys ids) q ↔ Present T q ∨ ∃ i < keys.length, q = keys.take (i+1) :=
  present_insertFrom legal q

theorem wellFormed_insertAt (valid : WellFormed T) (held : Present T path) (x : β) :
    WellFormed (insertAt T path x) := by
  have same : ∀ q, Present (insertAt T path x) q ↔ Present T q := by
    intro q
    constructor
    · rintro ⟨y,old | ⟨rfl,_⟩⟩
      · exact ⟨y,old⟩
      · exact held
    · rintro ⟨y,old⟩
      exact ⟨y,.inl old⟩
  refine ⟨by rw [same]; exact valid.rooted,?_,?_⟩
  · intro above longer extends_ nonempty present
    rw [same] at present ⊢
    exact valid.closed above longer extends_ nonempty present
  · rintro y above other (old | ⟨rfl,rfl,fresh⟩) (prior | ⟨rfl,same,unknown⟩)
    · exact valid.single y above other old prior
    · exact absurd ⟨above,same ▸ old⟩ unknown
    · exact absurd ⟨other,prior⟩ fresh
    · rfl

theorem wellFormed_removeAt (valid : WellFormed T) (id : β) : WellFormed (removeAt T id) := by
  refine ⟨fun held => valid.rooted ?_,?_,?_⟩
  · obtain ⟨x,held⟩ := held
    exact ⟨x,held.1⟩
  · rintro path longer extends_ nonempty ⟨x,held,_,kept⟩
    have below := valid.closed path longer extends_ nonempty ⟨x,held⟩
    -- some id other than the removed one must sit here, else the path would be dropped
    have other : ∃ y ∈ T path, y ≠ id := by
      apply Classical.byContradiction
      intro only
      apply kept path extends_
      obtain ⟨y,there⟩ := below
      ext z
      constructor
      · intro held; exact Classical.byContradiction fun differs => only ⟨z,held,differs⟩
      · rintro rfl
        have same : y = z := Classical.byContradiction fun differs => only ⟨y,there,differs⟩
        exact same ▸ there
    obtain ⟨y,there,differs⟩ := other
    exact ⟨y,there,differs,fun shorter before => kept shorter (before.trans extends_)⟩
  · intro x path other left right
    exact valid.single x path other left.1 right.1

theorem removeAt_absent (unknown : ¬Registered T x) : removeAt T x = T := by
  funext q
  ext y
  constructor
  · exact fun held => held.1
  · intro held
    refine ⟨held,?_,?_⟩
    · rintro rfl; exact unknown ⟨q,held⟩
    · intro path _ only
      exact unknown ⟨path,only ▸ rfl⟩

theorem mem_removeAt_shared (valid : WellFormed T) (held : x ∈ T path) (more : y ∈ T path) (differs : y ≠ x)
    (z : β) (q : List α) : z ∈ removeAt T x q ↔ z ∈ T q ∧ z ≠ x := by
  constructor
  · exact fun kept => ⟨kept.1,kept.2.1⟩
  · rintro ⟨there,apart⟩
    refine ⟨there,apart,fun above _ only => differs ?_⟩
    have same := valid.single x above path (only ▸ rfl) held
    rw [← same,only] at more
    exact more

theorem mem_removeAt_last (valid : WellFormed T) (only : T path = {x}) (z : β) (q : List α) :
    z ∈ removeAt T x q ↔ z ∈ T q ∧ ¬path <+: q := by
  have held : x ∈ T path := only ▸ rfl
  constructor
  · rintro ⟨there,_,kept⟩
    exact ⟨there,fun above => kept path above only⟩
  · rintro ⟨there,outside⟩
    refine ⟨there,?_,?_⟩
    · rintro rfl
      exact outside (valid.single z q path there held ▸ List.prefix_refl _)
    · intro above extends_ same
      have equal := valid.single x above path (same ▸ rfl) held
      exact outside (equal ▸ extends_)

theorem wellFormed_remove (valid : WellFormed T) (ids : List β) : WellFormed (remove T ids) := by
  induction ids with
  | nil => exact valid
  | cons id ids ih => exact wellFormed_removeAt ih id

-- Induction on the ids: a path outlives them when every path above it, and itself, keeps an id.
theorem mem_remove (valid : WellFormed T) (ids : List β) (x : β) (q : List α) :
    x ∈ remove T ids q ↔ x ∈ T q ∧ x ∉ ids ∧ ∀ path, path <+: q → path ≠ [] → ∃ y ∈ T path, y ∉ ids := by
  induction ids generalizing x q with
  | nil =>
    constructor
    · intro held
      exact ⟨held,List.not_mem_nil,fun path above proper =>
        (valid.closed path q above proper ⟨x,held⟩).imp fun y there => ⟨there,List.not_mem_nil⟩⟩
    · exact fun held => held.1
  | cons id ids ih =>
    have valid' := wellFormed_remove valid ids
    change x ∈ remove T ids q ∧ x ≠ id ∧ (∀ path, path <+: q → remove T ids path ≠ {id}) ↔ _
    simp only [List.mem_cons,not_or]
    constructor
    · rintro ⟨held,differs,kept⟩
      obtain ⟨old,outside,_⟩ := (ih x q).mp held
      refine ⟨old,⟨differs,outside⟩,fun path above proper => ?_⟩
      obtain ⟨y,there⟩ := valid'.closed path q above proper ⟨x,held⟩
      have other : ∃ z ∈ remove T ids path, z ≠ id := by
        apply Classical.byContradiction
        intro only
        push Not at only
        exact kept path above (Set.eq_singleton_iff_unique_mem.mpr ⟨only y there ▸ there,only⟩)
      obtain ⟨z,stays,apart⟩ := other
      obtain ⟨was,missing,_⟩ := (ih z path).mp stays
      exact ⟨z,was,apart,missing⟩
    · rintro ⟨held,⟨differs,outside⟩,kept⟩
      have longer : ∀ path, path <+: q → path ≠ [] → ∃ y ∈ T path, y ∉ ids := fun path above proper =>
        (kept path above proper).imp fun y there => ⟨there.1,there.2.2⟩
      refine ⟨(ih x q).mpr ⟨held,outside,longer⟩,differs,fun path above only => ?_⟩
      by_cases proper : path = []
      · exact valid'.rooted ⟨id,by rw [← proper,only]; rfl⟩
      · obtain ⟨y,there,apart,missing⟩ := kept path above proper
        have stays : y ∈ remove T ids path :=
          (ih y path).mpr ⟨there,missing,fun shorter before => longer shorter (before.trans above)⟩
        rw [only] at stays
        exact apart stays

-- Where only ids on the list hang below an emptied path, nothing else goes.
theorem mem_remove_exact (valid : WellFormed T) (ids : List β)
    (whole : ∀ path longer, path <+: longer → path ≠ [] → (∀ y ∈ T path, y ∈ ids) → ∀ y ∈ T longer, y ∈ ids) (x : β) (q : List α) :
    x ∈ remove T ids q ↔ x ∈ T q ∧ x ∉ ids := by
  rw [mem_remove valid]
  constructor
  · exact fun held => ⟨held.1,held.2.1⟩
  · rintro ⟨held,outside⟩
    refine ⟨held,outside,fun path above proper => ?_⟩
    apply Classical.byContradiction
    intro emptied
    push Not at emptied
    exact outside (whole path q above proper emptied x held)

theorem present_take_get (valid : WellFormed T) (query : List α) (n : Nat) (positive : 0 < n)
    (bound : n ≤ query.length) : Present T (query.take n) ↔ n ≤ get T query := by
  constructor
  · exact fun held => Nat.le_findGreatest bound held
  · intro le
    have reached : get T query ≠ 0 := by omega
    have top : Present T (query.take (get T query)) :=
      Nat.findGreatest_of_ne_zero (P := fun n => Present T (query.take n)) rfl reached
    refine valid.closed _ _ ?_ ?_ top
    · exact List.take_prefix_take_left le
    · intro nothing
      have size := congrArg List.length nothing
      simp only [List.length_take,List.length_nil] at size
      omega

theorem get_le_length (query : List α) : get T query ≤ query.length := Nat.findGreatest_le _

theorem get_eq_of (valid : WellFormed T) {query : List α} {n : Nat} (bound : n ≤ query.length)
    (here : n = 0 ∨ Present T (query.take n))
    (above : n < query.length → ¬Present T (query.take (n+1))) : get T query = n := by
  have upper : get T query ≤ n := by
    apply Classical.byContradiction
    intro more
    have limit := get_le_length (T := T) query
    exact above (by omega) ((present_take_get valid query (n+1) (by omega) (by omega)).mpr (by omega))
  rcases here with rfl | held
  · omega
  · by_cases zero : n = 0
    · omega
    · have lower := (present_take_get valid query n (by omega) bound).mp held
      omega

-- Each prefix of a present path holds an id of its own.
theorem length_le_of_ids {T : Trie α Nat} (valid : WellFormed T) (held : Present T path) {limit : Nat}
    (bound : ∀ x q, x ∈ T q → x < limit) : path.length ≤ limit := by
  have above : ∀ i : Fin path.length, Present T (path.take (i.val+1)) := fun i =>
    valid.closed _ path (List.take_prefix _ _) (by
      intro nothing
      have size := congrArg List.length nothing
      simp only [List.length_take,List.length_nil] at size
      omega) held
  choose pick member using above
  have injective : Function.Injective fun i => (⟨pick i,bound _ _ (member i)⟩ : Fin limit) := by
    intro i j same
    have equal : pick i = pick j := congrArg Fin.val same
    have paths := valid.single (pick i) _ _ (member i) (equal ▸ member j)
    have size := congrArg List.length paths
    simp only [List.length_take] at size
    exact Fin.ext (by omega)
  simpa using Fintype.card_le_of_injective _ injective

theorem get_eq_length (valid : WellFormed T) {query : List α} (held : query = [] ∨ Present T query) :
    get T query = query.length := by
  refine get_eq_of valid (Nat.le_refl _) ?_ (fun less => absurd less (Nat.lt_irrefl _))
  rcases held with rfl | held
  · exact .inl rfl
  · exact .inr (by rwa [List.take_length])

-- Every missing prefix of the inserted keys is created, no other path is.
theorem created_eq (valid : WellFormed T) (legal : Insertable T [] keys ids) :
    created T keys ids = keys.length-get T keys := by
  have limit := get_le_length (T := T) keys
  have same : ((Finset.range keys.length).filter fun i =>
      ¬Present T (keys.take (i+1)) ∧ Present (insert T keys ids) (keys.take (i+1))) =
      Finset.Ico (get T keys) keys.length := by
    ext i
    simp only [Finset.mem_filter,Finset.mem_range,Finset.mem_Ico]
    constructor
    · rintro ⟨bound,missing,_⟩
      refine ⟨?_,bound⟩
      rw [present_take_get valid keys (i+1) (by omega) (by omega)] at missing
      omega
    · rintro ⟨lower,bound⟩
      refine ⟨bound,?_,(present_insert legal _).mpr (.inr ⟨i,bound,rfl⟩)⟩
      rw [present_take_get valid keys (i+1) (by omega) (by omega)]
      omega
  rw [created,same,Nat.card_Ico]

end BlitzRouter.PrefixTrie
