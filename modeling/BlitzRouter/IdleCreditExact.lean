import BlitzRouter.IdleCredit

namespace BlitzRouter
open SlidingWindow

namespace Credit
variable {idleSamples : Nat → Nat} {credit : Credit}

theorem dates_eq (idleSamples : Nat → Nat) (credit : Credit) : credit.dates idleSamples = (List.range (idleSamples credit.idleDur)).map fun i =>
    credit.start+credit.idleDur/(idleSamples credit.idleDur%2^32)*((i+1)%2^32) := rfl

-- The step of a fitting credit leads over its interval and not past it.
theorem fits_step (fits : credit.Fits idleSamples) {i : Nat} (inside : i < idleSamples credit.idleDur) :
    credit.idleDur/(idleSamples credit.idleDur%2^32)*((i+1)%2^32) = credit.idleDur/(idleSamples credit.idleDur%2^32)*(i+1) ∧
      credit.idleDur/(idleSamples credit.idleDur%2^32)*(i+1) ≤ credit.idleDur := by
  rcases fits with small | short
  · have whole : idleSamples credit.idleDur%2^32 = idleSamples credit.idleDur := Nat.mod_eq_of_lt small
    have position : (i+1)%2^32 = i+1 := Nat.mod_eq_of_lt (by omega)
    rw [whole,position]
    refine ⟨rfl,?_⟩
    calc credit.idleDur/idleSamples credit.idleDur*(i+1)
        ≤ credit.idleDur/idleSamples credit.idleDur*idleSamples credit.idleDur := Nat.mul_le_mul_left _ inside
      _ ≤ credit.idleDur := Nat.div_mul_le_self _ _
  · have still : credit.idleDur/(idleSamples credit.idleDur%2^32) = 0 := Nat.div_eq_of_lt short
    rw [still,Nat.zero_mul,Nat.zero_mul]
    exact ⟨rfl,Nat.zero_le _⟩

theorem fits_dates (fits : credit.Fits idleSamples) (elapsed : credit.idleDur ≤ credit.now) :
    (credit.dates idleSamples).Pairwise (· ≤ ·) ∧ ∀ date ∈ credit.dates idleSamples, credit.start ≤ date ∧ date ≤ credit.now := by
  rw [dates_eq]
  refine ⟨?_,fun date member => ?_⟩
  · rw [List.pairwise_map]
    refine List.Pairwise.imp_of_mem (fun {i j} first second before => ?_) List.pairwise_lt_range
    rw [(fits_step fits (List.mem_range.mp first)).1,(fits_step fits (List.mem_range.mp second)).1]
    exact Nat.add_le_add_left (Nat.mul_le_mul_left _ (by omega)) _
  · obtain ⟨i,inside,rfl⟩ := List.mem_map.mp member
    obtain ⟨whole,reaches⟩ := fits_step fits (List.mem_range.mp inside)
    rw [whole]
    unfold start
    omega

theorem fits_divides (fits : credit.Fits idleSamples) : ¬credit.Panics idleSamples := by
  intro ⟨any,bad⟩
  rcases fits with small | short
  · rw [Nat.mod_eq_of_lt small] at bad
    omega
  · omega

-- With 2^32 samples or more, and a step between them, the factor starts again
-- at 0 and the samples go back in time.
theorem dates_fit (divides : ¬credit.Panics idleSamples) (ordered : (credit.dates idleSamples).Pairwise (· ≤ ·)) : credit.Fits idleSamples := by
  by_contra unfit
  obtain ⟨many,long⟩ : 2^32 ≤ idleSamples credit.idleDur ∧ idleSamples credit.idleDur%2^32 ≤ credit.idleDur := by
    unfold Fits at unfit
    omega
  have divisor : 0 < idleSamples credit.idleDur%2^32 := by
    unfold Panics at divides
    omega
  have step : 0 < credit.idleDur/(idleSamples credit.idleDur%2^32) := Nat.div_pos long divisor
  rw [dates_eq,List.pairwise_map,List.pairwise_iff_getElem] at ordered
  have back := ordered (2^32-2) (2^32-1) (by rw [List.length_range]; omega) (by rw [List.length_range]; omega) (by omega)
  rw [List.getElem_range,List.getElem_range] at back
  have first : (2^32-2+1)%2^32 = 2^32-1 := rfl
  have second : (2^32-1+1)%2^32 = 0 := rfl
  rw [first,second,Nat.mul_zero] at back
  have far : 0 < credit.idleDur/(idleSamples credit.idleDur%2^32)*(2^32-1) := Nat.mul_pos step (by omega)
  omega

end Credit

-- Time does not run backwards in a history.
def TpsOp.Ordered (history : List TpsOp) : Prop := (history.map TpsOp.time).Pairwise (· ≤ ·)

instance (history : List TpsOp) : Decidable (TpsOp.Ordered history) := inferInstanceAs (Decidable (List.Pairwise _ _))

def TpsOp.Separated (history : List TpsOp) : Prop := ∀ front middle back now now',
  history = front++.compensate now::(middle++.compensate now'::back) → ∃ bs t, TpsOp.step bs t ∈ middle

namespace Tally
variable {duration : Nat} {idleSamples : Nat → Nat} {history : List TpsOp} {tally : Tally}

theorem pushes_append (ops more : List (WindowOp Unit)) : pushes (ops++more) = pushes ops++pushes more := List.filterMap_append

theorem expiries_append (ops more : List (WindowOp Unit)) : expiries (ops++more) = expiries ops++expiries more := List.filterMap_append

theorem pushes_dates (dates : List Nat) : pushes (dates.map fun t => WindowOp.push t ()) = dates.map fun t => (t,()) := by
  simp [pushes,WindowOp.pushed,Function.comp_def]

theorem expiries_dates (dates : List Nat) : expiries (dates.map fun t => WindowOp.push t ()) = [] := by
  simp [expiries,WindowOp.expired]

-- One operation after the others, in what it adds.
theorem next_step (tally : Tally) (bs now : Nat) : (tally.next duration idleSamples (.step bs now)).pushed = tally.pushed++[now] := by
  simp [Tally.next,pushed,pushes,WindowOp.pushed]

theorem next_cold (tally : Tally) (now : Nat) (cold : tally.last = none) :
    tally.next duration idleSamples (.compensate now) = {tally with credited := true} := by
  simp only [Tally.next,cold]

theorem next_credit (duration : Nat) (idleSamples : Nat → Nat) (tally : Tally) {last : Nat} (now : Nat) (busy : tally.last = some last) :
    let credit : Credit := ⟨min (now-last) duration,now⟩
    let credited := tally.next duration idleSamples (.compensate now)
    credited.last = some last ∧ credited.credited = true ∧ credited.steps = tally.steps ∧ credited.credits = tally.credits++[credit] ∧
      credited.pushed = tally.pushed++credit.dates idleSamples ∧ expiries credited.ops = expiries tally.ops := by
  simp [Tally.next,busy,pushed,pushes_append,expiries_append,pushes_dates,expiries_dates,Function.comp_def]

theorem next_count (duration : Nat) (idleSamples : Nat → Nat) (tally : Tally) (bs now : Nat) : let counted := tally.next duration idleSamples (.count bs now)
    counted.last = tally.last ∧ counted.credited = tally.credited ∧ counted.steps = tally.steps ∧ counted.credits = tally.credits ∧
      counted.pushed = tally.pushed ∧ ∀ past ∈ expiries counted.ops, past ∈ expiries tally.ops ∨ past = now := by
  simp only [Tally.next]
  split
  · exact ⟨rfl,rfl,rfl,rfl,rfl,fun past member => .inl member⟩
  · simp [pushed,pushes,WindowOp.pushed,expiries,WindowOp.expired]

-- What is pushed is real or credited.
theorem pushed_count (P : Nat → Bool) (history : List TpsOp) : (Tally.of duration idleSamples history).pushed.countP P =
    (Tally.of duration idleSamples history).steps.countP P+
      ((Tally.of duration idleSamples history).credits.flatMap (Credit.dates idleSamples)).countP P := by
  induction history using List.reverseRecOn with
  | nil => rfl
  | append_singleton history op ih =>
    rw [of_append]
    cases op with
    | step bs now =>
      rw [next_step,List.countP_append,ih]
      simp only [Tally.next,List.countP_append]
      omega
    | compensate now =>
      cases busy : (Tally.of duration idleSamples history).last with
      | none =>
        rw [next_cold _ _ busy]
        exact ih
      | some last =>
        obtain ⟨_,_,steps,credits,pushes,_⟩ := next_credit duration idleSamples _ now busy
        rw [steps,credits,pushes,List.countP_append,ih,List.flatMap_append,List.countP_append,List.flatMap_singleton,Nat.add_assoc]
    | count bs now =>
      obtain ⟨_,_,steps,credits,pushes,_⟩ := next_count duration idleSamples (Tally.of duration idleSamples history) bs now
      rw [steps,credits,pushes,ih]

theorem dates_pushed {credit : Credit} (member : credit ∈ (Tally.of duration idleSamples history).credits) :
    (credit.dates idleSamples).Sublist (Tally.of duration idleSamples history).pushed := by
  induction history using List.reverseRecOn with
  | nil => cases member
  | append_singleton history op ih =>
    rw [of_append] at member ⊢
    cases op with
    | step bs now =>
      rw [next_step]
      exact (ih member).trans (List.sublist_append_left _ _)
    | compensate now =>
      cases busy : (Tally.of duration idleSamples history).last with
      | none =>
        rw [next_cold _ _ busy] at member ⊢
        exact ih member
      | some last =>
        obtain ⟨_,_,_,credits,pushes,_⟩ := next_credit duration idleSamples _ now busy
        rw [credits] at member
        rw [pushes]
        rcases List.mem_append.mp member with past | new
        · exact (ih past).trans (List.sublist_append_left _ _)
        · cases List.mem_singleton.mp new
          exact List.sublist_append_right _ _
    | count bs now =>
      obtain ⟨_,_,_,credits,pushes,_⟩ := next_count duration idleSamples (Tally.of duration idleSamples history) bs now
      rw [credits] at member
      rw [pushes]
      exact ih member

-- Everything that a history recorded happened by then.
structure Until (now : Nat) (tally : Tally) : Prop where
  pushed : ∀ t ∈ tally.pushed, t ≤ now
  steps : ∀ t ∈ tally.steps, t ≤ now
  credits : ∀ credit ∈ tally.credits, credit.now ≤ now
  expiries : ∀ past ∈ expiries tally.ops, past ≤ now

-- `settled` carries the order: before a credit starts its interval, at the last
-- step, nothing was pushed or credited later than that.
structure Sound (duration : Nat) (idleSamples : Nat → Nat) (history : List TpsOp) (tally : Tally) : Prop where
  seen : ∀ now, (∀ op ∈ history, op.time ≤ now) → tally.Until now
  last : ∀ last, tally.last = some last → last ∈ tally.steps ∧ ∀ t ∈ tally.steps, t ≤ last
  settled : tally.credited = false → ∀ last, tally.last = some last →
    (∀ t ∈ tally.pushed, t ≤ last) ∧ ∀ credit ∈ tally.credits, credit.now ≤ last
  marked : tally.credited = true → ∃ front middle now, history = front++.compensate now::middle ∧ ∀ bs t, TpsOp.step bs t ∉ middle
  ordered : tally.pushed.Pairwise (· ≤ ·)
  once : tally.credits.Pairwise fun c d => c.now ≤ d.start
  apart : ∀ credit ∈ tally.credits, ∀ t ∈ tally.steps, t ≤ credit.start ∨ credit.now ≤ t
  recent : ∀ credit ∈ tally.credits, credit.idleDur ≤ duration ∧ credit.idleDur ≤ credit.now

theorem Sound.start : Sound duration idleSamples [] empty where
  seen := fun _ _ => ⟨nofun,nofun,nofun,nofun⟩
  last := nofun
  settled := nofun
  marked := nofun
  ordered := .nil
  once := .nil
  apart := nofun
  recent := nofun

theorem Sound.step (sound : Sound duration idleSamples history tally) {bs now : Nat} (late : ∀ op ∈ history, op.time ≤ now) :
    Sound duration idleSamples (history++[.step bs now]) (tally.next duration idleSamples (.step bs now)) := by
  have past := sound.seen now late
  have pushes : ∀ t ∈ (tally.next duration idleSamples (.step bs now)).pushed, t ≤ now := by
    rw [next_step]
    intro t member
    rcases List.mem_append.mp member with before | here
    · exact past.pushed t before
    · exact (List.mem_singleton.mp here).le
  have steps : ∀ t ∈ tally.steps++[now], t ≤ now := by
    intro t member
    rcases List.mem_append.mp member with before | here
    · exact past.steps t before
    · exact (List.mem_singleton.mp here).le
  constructor
  · intro later times
    have reached : now ≤ later := times (.step bs now) (by simp)
    have before := sound.seen later fun op member => times op (List.mem_append_left _ member)
    refine ⟨fun t member => (pushes t member).trans reached,fun t member => (steps t member).trans reached,before.credits,?_⟩
    simpa [Tally.next,expiries_append,SlidingWindow.expiries,WindowOp.expired] using before.expiries
  · intro last same
    cases same
    exact ⟨by simp [Tally.next],steps⟩
  · intro _ last same
    cases same
    exact ⟨pushes,past.credits⟩
  · intro marked
    simp [Tally.next] at marked
  · rw [next_step,List.pairwise_append]
    exact ⟨sound.ordered,List.pairwise_singleton _ _,fun t member u same => List.mem_singleton.mp same ▸ past.pushed t member⟩
  · exact sound.once
  · intro credit member t inside
    rcases List.mem_append.mp inside with before | here
    · exact sound.apart credit member t before
    · exact .inr ((List.mem_singleton.mp here).symm ▸ past.credits credit member)
  · exact sound.recent

theorem Sound.count (sound : Sound duration idleSamples history tally) {bs now : Nat} :
    Sound duration idleSamples (history++[.count bs now]) (tally.next duration idleSamples (.count bs now)) := by
  obtain ⟨last,credited,steps,credits,pushes,expiries⟩ := next_count duration idleSamples tally bs now
  constructor
  · intro later times
    have before := sound.seen later fun op member => times op (List.mem_append_left _ member)
    refine ⟨by rw [pushes]; exact before.pushed,by rw [steps]; exact before.steps,by rw [credits]; exact before.credits,fun past member => ?_⟩
    rcases expiries past member with earlier | rfl
    · exact before.expiries past earlier
    · exact times (.count bs past) (by simp)
  · rw [last,steps]
    exact sound.last
  · rw [last,credited,pushes,credits]
    exact sound.settled
  · rw [credited]
    intro marked
    obtain ⟨front,middle,at_,rfl,silent⟩ := sound.marked marked
    refine ⟨front,middle++[.count bs now],at_,by simp,fun bs' t member => ?_⟩
    rcases List.mem_append.mp member with inside | same
    · exact silent bs' t inside
    · cases List.mem_singleton.mp same
  · rw [pushes]
    exact sound.ordered
  · rw [credits]
    exact sound.once
  · rw [credits,steps]
    exact sound.apart
  · rw [credits]
    exact sound.recent

theorem Sound.cold (sound : Sound duration idleSamples history tally) {now : Nat} (cold : tally.last = none) :
    Sound duration idleSamples (history++[.compensate now]) (tally.next duration idleSamples (.compensate now)) := by
  rw [next_cold tally now cold]
  exact ⟨fun later times =>
      have before := sound.seen later fun op member => times op (List.mem_append_left _ member)
      ⟨before.pushed,before.steps,before.credits,before.expiries⟩,
    sound.last,nofun,fun _ => ⟨history,[],now,rfl,by simp⟩,sound.ordered,sound.once,sound.apart,sound.recent⟩

-- The interval of a credit begins at the last step or later.
theorem Sound.credit (sound : Sound duration idleSamples history tally) {now last : Nat} (late : ∀ op ∈ history, op.time ≤ now)
    (busy : tally.last = some last) (uncredited : tally.credited = false)
    (fits : Credit.Fits idleSamples ⟨min (now-last) duration,now⟩) :
    Sound duration idleSamples (history++[.compensate now]) (tally.next duration idleSamples (.compensate now)) := by
  obtain ⟨same,credited,steps,credits,pushes,expiries⟩ := next_credit duration idleSamples tally now busy
  obtain ⟨member,latest⟩ := sound.last last busy
  obtain ⟨pushedBefore,creditedBefore⟩ := sound.settled uncredited last busy
  have past := sound.seen now late
  have order : last ≤ now := past.steps last member
  obtain ⟨ordered,inside⟩ := Credit.fits_dates fits (show min (now-last) duration ≤ now by omega)
  have begins : last ≤ Credit.start ⟨min (now-last) duration,now⟩ := by
    simp only [Credit.start]
    omega
  constructor
  · intro later times
    have reached : now ≤ later := times (.compensate now) (by simp)
    have before := sound.seen later fun op member => times op (List.mem_append_left _ member)
    refine ⟨fun t at_ => ?_,by rw [steps]; exact before.steps,fun c at_ => ?_,by rw [expiries]; exact before.expiries⟩
    · rw [pushes] at at_
      rcases List.mem_append.mp at_ with earlier | dated
      · exact before.pushed t earlier
      · exact (inside t dated).2.trans reached
    · rw [credits] at at_
      rcases List.mem_append.mp at_ with earlier | new
      · exact before.credits c earlier
      · cases List.mem_singleton.mp new
        exact reached
  · rw [same,steps,← busy]
    exact sound.last
  · rw [credited]
    exact nofun
  · exact fun _ => ⟨history,[],now,rfl,by simp⟩
  · rw [pushes,List.pairwise_append]
    exact ⟨sound.ordered,ordered,fun t earlier u dated => ((pushedBefore t earlier).trans begins).trans (inside u dated).1⟩
  · rw [credits,List.pairwise_append]
    refine ⟨sound.once,List.pairwise_singleton _ _,fun c earlier d new => ?_⟩
    cases List.mem_singleton.mp new
    exact (creditedBefore c earlier).trans begins
  · rw [credits,steps]
    intro c at_ t stepped
    rcases List.mem_append.mp at_ with earlier | new
    · exact sound.apart c earlier t stepped
    · cases List.mem_singleton.mp new
      exact .inl ((latest t stepped).trans begins)
  · rw [credits]
    intro c at_
    rcases List.mem_append.mp at_ with earlier | new
    · exact sound.recent c earlier
    · cases List.mem_singleton.mp new
      exact ⟨Nat.min_le_right _ _,show min (now-last) duration ≤ now by omega⟩

theorem separated_front {op : TpsOp} (separated : TpsOp.Separated (history++[op])) : TpsOp.Separated history := by
  intro front middle back now now' split
  exact separated front middle (back++[op]) now now' (by simp [split])

theorem separated_uncredited {now : Nat} (separated : TpsOp.Separated (history++[.compensate now]))
    (sound : Sound duration idleSamples history tally) : tally.credited = false := by
  by_contra credited
  obtain ⟨front,middle,at_,rfl,silent⟩ := sound.marked (by simpa using credited)
  obtain ⟨bs,t,member⟩ := separated front middle [] at_ now (by simp)
  exact silent bs t member

theorem sound_of (ordered : TpsOp.Ordered history) (separated : TpsOp.Separated history)
    (fits : ∀ credit ∈ (Tally.of duration idleSamples history).credits, credit.Fits idleSamples) :
    Sound duration idleSamples history (Tally.of duration idleSamples history) := by
  induction history using List.reverseRecOn with
  | nil => exact .start
  | append_singleton history op ih =>
    rw [TpsOp.Ordered,List.map_append,List.pairwise_append] at ordered
    obtain ⟨earlier,_,late⟩ := ordered
    have late : ∀ a ∈ history, a.time ≤ op.time := fun a member => late a.time (List.mem_map_of_mem member) op.time (by simp)
    rw [of_append] at fits ⊢
    obtain ⟨more,grown⟩ := credits_next duration idleSamples (Tally.of duration idleSamples history) op
    have sound := ih earlier (separated_front separated) fun credit member => fits credit (grown ▸ List.mem_append_left _ member)
    cases op with
    | step bs now => exact sound.step late
    | count bs now => exact sound.count
    | compensate now =>
      cases busy : (Tally.of duration idleSamples history).last with
      | none => exact sound.cold busy
      | some last =>
        refine sound.credit late busy (separated_uncredited separated sound) (fits _ ?_)
        obtain ⟨_,_,_,credits,_⟩ := next_credit duration idleSamples _ now busy
        rw [credits]
        exact List.mem_append_right _ (List.mem_singleton.mpr rfl)

end Tally

-- What is asked of one history: it returns, counts right, and credits in order.
structure Exact (duration : Nat) (idleSamples : Nat → Nat) (history : List TpsOp) : Prop where
  returns : ∃ p, (PrebleTpsBlockHash.new duration idleSamples).run history = some p ∧
    ∀ bs now, bs ≠ 0 → (∀ op ∈ history, op.time ≤ now) → (p.tpsCount bs now).2 =
      some ((Tally.of duration idleSamples history).steps.countP (fun t => now-t ≤ duration)+
        ((Tally.of duration idleSamples history).credits.flatMap (Credit.dates idleSamples)).countP fun t => now-t ≤ duration)
  ordered : (Tally.of duration idleSamples history).pushed.Pairwise (· ≤ ·)
  recent : ∀ credit ∈ (Tally.of duration idleSamples history).credits, ∀ date ∈ credit.dates idleSamples,
    date ≤ credit.now ∧ credit.now-date ≤ duration
  once : (Tally.of duration idleSamples history).credits.Pairwise fun c d => c.now ≤ d.start
  idle : ∀ credit ∈ (Tally.of duration idleSamples history).credits, ∀ t ∈ (Tally.of duration idleSamples history).steps,
    t ≤ credit.start ∨ credit.now ≤ t

theorem tpsCount_eq {duration : Nat} {idleSamples : Nat → Nat} {history : List TpsOp} {p : PrebleTpsBlockHash} {bs now : Nat}
    (result : (PrebleTpsBlockHash.new duration idleSamples).run history = some p)
    (sound : Tally.Sound duration idleSamples history (Tally.of duration idleSamples history)) (busy : bs ≠ 0)
    (late : ∀ op ∈ history, op.time ≤ now) :
    (p.tpsCount bs now).2 = some ((Tally.of duration idleSamples history).pushed.countP fun t => now-t ≤ duration) := by
  have represents := PrebleTpsBlockHash.run_represents result
  have holds := run_holds duration Window.Count.count (Tally.of duration idleSamples history).ops
  have ordered := sound.ordered
  rw [Tally.pushed,List.pairwise_map] at ordered
  have entries := (holds.exact ordered (sound.seen now late).expiries).1
  rw [← represents.window] at entries
  simp only [PrebleTpsBlockHash.tpsCount,if_neg busy,SlidingWindow.lenAt,SlidingWindow.len,entries,← List.countP_eq_length_filter]
  rw [Tally.pushed,List.countP_map]
  rfl

theorem exact_iff {duration : Nat} {idleSamples : Nat → Nat} {history : List TpsOp} (ordered : TpsOp.Ordered history)
    (separated : TpsOp.Separated history) :
    Exact duration idleSamples history ↔ ∀ credit ∈ (Tally.of duration idleSamples history).credits, credit.Fits idleSamples := by
  constructor
  · intro exact_ credit member
    obtain ⟨p,result,_⟩ := exact_.returns
    exact Credit.dates_fit (PrebleTpsBlockHash.run_divides result credit member) (exact_.ordered.sublist (Tally.dates_pushed member))
  · intro fits
    have sound := Tally.sound_of ordered separated fits
    obtain ⟨p,result⟩ := PrebleTpsBlockHash.run_completes fun credit member => Credit.fits_divides (fits credit member)
    refine ⟨⟨p,result,fun bs now busy late => ?_⟩,sound.ordered,fun credit member date dated => ?_,sound.once,sound.apart⟩
    · rw [tpsCount_eq result sound busy late,Tally.pushed_count]
    · obtain ⟨width,elapsed⟩ := sound.recent credit member
      obtain ⟨after,before⟩ := (Credit.fits_dates (fits credit member) elapsed).2 date dated
      refine ⟨before,?_⟩
      unfold Credit.start at after
      omega

-- Every window with its pushes in order, and every history of steps, reads and
-- credits, of which no two come without a step between.
theorem windows_exact_iff (duration : Nat) (idleSamples : Nat → Nat) (history : List TpsOp) (ordered : TpsOp.Ordered history)
    (separated : TpsOp.Separated history) :
    (∀ (T A : Type) [Aggregate A T] [LawfulAggregate A T] (agg : A) (ops : List (WindowOp T)) (now : Nat),
      (pushes ops).Pairwise (fun a b => a.1 ≤ b.1) → (expiries (ops++[.expire now])).Pairwise (· ≤ ·) →
      (((new duration agg).run ops).expire now).entries = (pushes ops).filter (fun e => Fresh duration now e) ∧
        (((new duration agg).run ops).expire now).agg = total agg ((pushes ops).filter fun e => Fresh duration now e)) ∧
    (Exact duration idleSamples history ↔ ∀ credit ∈ (Tally.of duration idleSamples history).credits, credit.Fits idleSamples) := by
  refine ⟨fun T A _ _ agg ops now pushed expired => ?_,exact_iff ordered separated⟩
  rw [expiries,List.filterMap_append,List.pairwise_append] at expired
  exact (run_holds duration agg ops).exact pushed fun past member => expired.2.2 past member now (List.mem_singleton.mpr rfl)

def TpsOp.compensates : TpsOp → Bool
  | .compensate _ => true
  | _ => false

theorem separated_of_count {history : List TpsOp} (once : history.countP TpsOp.compensates ≤ 1) : TpsOp.Separated history := by
  rintro front middle back now now' rfl
  simp only [List.countP_append,List.countP_cons,TpsOp.compensates,if_true] at once
  omega

-- 2^25 samples a second for an idle interval of 128 s.
def fastSamples (idleDur : Nat) : Nat := 2^25*idleDur/10^9

def longIdle : List TpsOp := [.step 8 0,.compensate (128*10^9)]

theorem credits_overflow : TpsOp.Ordered longIdle ∧ TpsOp.Separated longIdle ∧
    (PrebleTpsBlockHash.new (180*10^9) fastSamples).run longIdle = none ∧ ¬Exact (180*10^9) fastSamples longIdle := by
  have stopped : (PrebleTpsBlockHash.new (180*10^9) fastSamples).run longIdle = none := rfl
  refine ⟨by decide,separated_of_count (by decide),stopped,fun exact_ => ?_⟩
  obtain ⟨p,result,_⟩ := exact_.returns
  rw [stopped] at result
  cases result

-- One sample a nanosecond: a short idle time, a window of 5.
def shortIdle : List TpsOp := [.step 8 0,.step 8 4,.compensate 7,.count 1 7]

theorem windows_exact_iff_short : Exact 5 (fun idleDur => idleDur) shortIdle ∧
    (((new 5 (⟨0⟩ : Window.Sum Int)).run [.push 1 10,.expire 3,.push 4 (-7)]).expire 8).agg.value = -7 := by
  obtain ⟨window,credit⟩ := windows_exact_iff 5 (fun idleDur => idleDur) shortIdle (by decide) (separated_of_count (by decide))
  refine ⟨credit.mpr ?_,?_⟩
  · intro c member
    cases List.mem_singleton.mp (show c ∈ [⟨3,7⟩] from member)
    exact .inl (by decide)
  · rw [(window Int (Window.Sum Int) ⟨0⟩ [.push 1 10,.expire 3,.push 4 (-7)] 8 (by decide) (by decide)).2]
    rfl

end BlitzRouter
