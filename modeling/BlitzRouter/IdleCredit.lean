import BlitzRouter.SlidingWindow

namespace BlitzRouter
open Window SlidingWindow

-- `idleSamples` is `(idle_tps * idle_dur.as_secs_f32()) as usize` for the rate that
-- was set, as a function of the idle duration. The prefix tree is left out.
structure PrebleTpsBlockHash where
  tpsWindow : SlidingWindow Unit Count
  lastBusyAt : Option Nat
  windowDuration : Nat
  idleSamples : Nat → Nat

namespace PrebleTpsBlockHash

def new (windowDuration : Nat) (idleSamples : Nat → Nat) : PrebleTpsBlockHash :=
  ⟨.new windowDuration .count,none,windowDuration,idleSamples⟩

def updateWithStep (p : PrebleTpsBlockHash) (_bs now : Nat) : PrebleTpsBlockHash :=
  {p with tpsWindow := p.tpsWindow.push now (),lastBusyAt := some now}

-- The samples of a credit. Divisor and factor of a duration are 32 bits wide;
-- only past a divisor that was cut off could the product overflow a duration.
def creditDates (count idleDur now : Nat) : List Nat :=
  let step := idleDur/(count%2^32)
  let start := now-idleDur
  (List.range count).map fun i => start+step*((i+1)%2^32)

-- `none` is the panic of a division by zero.
def compensateIdleGap (p : PrebleTpsBlockHash) (now : Nat) : Option PrebleTpsBlockHash :=
  match p.lastBusyAt with
  | none => some p
  | some last =>
    let idleDur := min (now-last) p.windowDuration
    let count := p.idleSamples idleDur
    if 0 < count then
      if count%2^32 = 0 then none
      else some {p with tpsWindow := (creditDates count idleDur now).foldl (fun w t => w.push t ()) p.tpsWindow}
    else some p

def tpsCount (p : PrebleTpsBlockHash) (bs now : Nat) : PrebleTpsBlockHash × Option Nat :=
  if bs = 0 then (p,none) else
    let (w,n) := p.tpsWindow.lenAt now
    ({p with tpsWindow := w},some n)

end PrebleTpsBlockHash

inductive TpsOp where
  | step (bs now : Nat)
  | compensate (now : Nat)
  | count (bs now : Nat)
deriving DecidableEq,Repr

namespace TpsOp

def time : TpsOp → Nat
  | .step _ now => now
  | .compensate now => now
  | .count _ now => now

def apply (p : PrebleTpsBlockHash) : TpsOp → Option PrebleTpsBlockHash
  | .step bs now => some (p.updateWithStep bs now)
  | .compensate now => p.compensateIdleGap now
  | .count bs now => some (p.tpsCount bs now).1

end TpsOp

def PrebleTpsBlockHash.run (p : PrebleTpsBlockHash) (history : List TpsOp) : Option PrebleTpsBlockHash := history.foldlM TpsOp.apply p

-- An idle interval for which a replica was credited.
structure Credit where
  idleDur : Nat
  now : Nat
deriving DecidableEq,Repr

namespace Credit

def start (credit : Credit) : Nat := credit.now-credit.idleDur

def dates (idleSamples : Nat → Nat) (credit : Credit) : List Nat :=
  PrebleTpsBlockHash.creditDates (idleSamples credit.idleDur) credit.idleDur credit.now

def Panics (idleSamples : Nat → Nat) (credit : Credit) : Prop :=
  0 < idleSamples credit.idleDur ∧ idleSamples credit.idleDur%2^32 = 0

instance (idleSamples : Nat → Nat) (credit : Credit) : Decidable (credit.Panics idleSamples) := inferInstanceAs (Decidable (_ ∧ _))

-- The number of samples is below 2^32, or what 32 bits keep of it is more than
-- there are nanoseconds, so that the samples have one date.
def Fits (idleSamples : Nat → Nat) (credit : Credit) : Prop :=
  idleSamples credit.idleDur < 2^32 ∨ credit.idleDur < idleSamples credit.idleDur%2^32

end Credit

-- What a history is about, whatever the code does: its steps, the intervals it
-- credits, and whether the last of these came after the last step.
structure Tally where
  last : Option Nat
  credited : Bool
  steps : List Nat
  credits : List Credit
  ops : List (WindowOp Unit)

namespace Tally
variable {duration : Nat} {idleSamples : Nat → Nat}

def empty : Tally := ⟨none,false,[],[],[]⟩

def next (duration : Nat) (idleSamples : Nat → Nat) (tally : Tally) : TpsOp → Tally
  | .step _ now => {tally with
      last := some now,credited := false,steps := tally.steps++[now],ops := tally.ops++[.push now ()]}
  | .compensate now =>
    match tally.last with
    | none => {tally with credited := true}
    | some last =>
      let credit : Credit := ⟨min (now-last) duration,now⟩
      {tally with
        credited := true,credits := tally.credits++[credit]
        ops := tally.ops++(credit.dates idleSamples).map fun t => .push t ()}
  | .count bs now => if bs = 0 then tally else {tally with ops := tally.ops++[.expire now]}

def of (duration : Nat) (idleSamples : Nat → Nat) (history : List TpsOp) : Tally := history.foldl (next duration idleSamples) empty

def pushed (tally : Tally) : List Nat := (pushes tally.ops).map Prod.fst

theorem credits_next (duration : Nat) (idleSamples : Nat → Nat) (tally : Tally) (op : TpsOp) :
    ∃ more, (tally.next duration idleSamples op).credits = tally.credits++more := by
  cases op with
  | step bs now => exact ⟨[],(List.append_nil _).symm⟩
  | compensate now =>
    simp only [Tally.next]
    cases tally.last with
    | none => exact ⟨[],(List.append_nil _).symm⟩
    | some busy => exact ⟨_,rfl⟩
  | count bs now =>
    simp only [Tally.next]
    split <;> exact ⟨[],(List.append_nil _).symm⟩

theorem of_append (history : List TpsOp) (op : TpsOp) :
    Tally.of duration idleSamples (history++[op]) = (Tally.of duration idleSamples history).next duration idleSamples op := by
  simp [Tally.of]

end Tally

namespace PrebleTpsBlockHash
variable {duration : Nat} {idleSamples : Nat → Nat} {history : List TpsOp} {p : PrebleTpsBlockHash}

structure Represents (duration : Nat) (idleSamples : Nat → Nat) (tally : Tally) (p : PrebleTpsBlockHash) : Prop where
  window : p.tpsWindow = (SlidingWindow.new duration Count.count).run tally.ops
  last : p.lastBusyAt = tally.last
  duration : p.windowDuration = duration
  samples : p.idleSamples = idleSamples

theorem pushing_run (w : SlidingWindow Unit Count) (dates : List Nat) :
    dates.foldl (fun w t => w.push t ()) w = w.run (dates.map fun t => .push t ()) := by
  rw [SlidingWindow.run,List.foldl_map]
  rfl

theorem compensateIdleGap_eq {last now : Nat} (busy : p.lastBusyAt = some last) :
    let credit : Credit := ⟨min (now-last) p.windowDuration,now⟩
    p.compensateIdleGap now = if credit.Panics p.idleSamples then none
      else some {p with tpsWindow := p.tpsWindow.run ((credit.dates p.idleSamples).map fun t => .push t ())} := by
  intro credit
  unfold compensateIdleGap
  simp only [busy]
  by_cases any : 0 < p.idleSamples (min (now-last) p.windowDuration)
  · rw [if_pos any]
    by_cases bad : p.idleSamples (min (now-last) p.windowDuration)%2^32 = 0
    · have panics : credit.Panics p.idleSamples := ⟨any,bad⟩
      rw [if_pos bad,if_pos panics]
    · have divides : ¬credit.Panics p.idleSamples := fun panics => bad panics.2
      rw [if_neg bad,if_neg divides,pushing_run]
      rfl
  · have divides : ¬credit.Panics p.idleSamples := fun panics => any panics.1
    have silent : credit.dates p.idleSamples = [] := by
      simp only [Credit.dates,creditDates,credit,Nat.eq_zero_of_not_pos any,List.range_zero,List.map_nil]
    rw [if_neg any,if_neg divides,silent,← busy]
    rfl

-- Where a history returns, the window took the operations of its tally.
theorem Represents.apply {tally : Tally} {p' : PrebleTpsBlockHash} {op : TpsOp} (represents : Represents duration idleSamples tally p)
    (result : op.apply p = some p') : Represents duration idleSamples (tally.next duration idleSamples op) p' := by
  obtain ⟨window,last,width,samples⟩ := represents
  cases op with
  | step bs now =>
    cases result
    refine ⟨?_,rfl,width,samples⟩
    simp only [updateWithStep,Tally.next,SlidingWindow.run,List.foldl_append,List.foldl_cons,List.foldl_nil,window,WindowOp.apply]
  | compensate now =>
    simp only [TpsOp.apply] at result
    simp only [Tally.next]
    cases found : tally.last with
    | none =>
      rw [found] at last
      simp only [compensateIdleGap,last] at result
      cases result
      exact ⟨window,last,width,samples⟩
    | some busy =>
      rw [compensateIdleGap_eq (last.trans found)] at result
      split at result
      · cases result
      · cases result
        refine ⟨?_,last.trans found,width,samples⟩
        simp only [window,width,samples,SlidingWindow.run,List.foldl_append]
  | count bs now =>
    simp only [TpsOp.apply,tpsCount] at result
    simp only [Tally.next]
    split at result
    · rename_i idle
      cases result
      rw [if_pos idle]
      exact ⟨window,last,width,samples⟩
    · rename_i busy
      cases result
      rw [if_neg busy]
      refine ⟨?_,last,width,samples⟩
      simp only [SlidingWindow.lenAt,SlidingWindow.run,List.foldl_append,List.foldl_cons,List.foldl_nil,window,WindowOp.apply]

theorem run_append (p : PrebleTpsBlockHash) (history : List TpsOp) (op : TpsOp) :
    p.run (history++[op]) = (p.run history).bind fun p => op.apply p := by
  simp [run,List.foldlM_append,Option.bind_eq_bind]

theorem run_represents (result : (new duration idleSamples).run history = some p) :
    Represents duration idleSamples (Tally.of duration idleSamples history) p := by
  induction history using List.reverseRecOn generalizing p with
  | nil =>
    cases result
    exact ⟨rfl,rfl,rfl,rfl⟩
  | append_singleton history op ih =>
    rw [run_append,Option.bind_eq_some_iff] at result
    obtain ⟨before,earlier,result⟩ := result
    rw [Tally.of_append]
    exact (ih earlier).apply result

theorem run_divides (result : (new duration idleSamples).run history = some p) :
    ∀ credit ∈ (Tally.of duration idleSamples history).credits, ¬credit.Panics idleSamples := by
  induction history using List.reverseRecOn generalizing p with
  | nil => exact fun credit member => absurd member List.not_mem_nil
  | append_singleton history op ih =>
    rw [run_append,Option.bind_eq_some_iff] at result
    obtain ⟨before,earlier,result⟩ := result
    obtain ⟨_,last,width,samples⟩ := run_represents earlier
    rw [Tally.of_append]
    cases op with
    | step bs now => exact ih earlier
    | count bs now =>
      simp only [Tally.next]
      split
      · exact ih earlier
      · exact ih earlier
    | compensate now =>
      simp only [Tally.next]
      cases found : (Tally.of duration idleSamples history).last with
      | none => exact ih earlier
      | some busy =>
        simp only [TpsOp.apply] at result
        rw [compensateIdleGap_eq (last.trans found),width,samples] at result
        intro credit member
        rcases List.mem_append.mp member with past | new
        · exact ih earlier credit past
        · cases List.mem_singleton.mp new
          intro panics
          rw [if_pos panics] at result
          cases result

theorem run_completes (divides : ∀ credit ∈ (Tally.of duration idleSamples history).credits, ¬credit.Panics idleSamples) :
    ∃ p, (new duration idleSamples).run history = some p := by
  induction history using List.reverseRecOn with
  | nil => exact ⟨_,rfl⟩
  | append_singleton history op ih =>
    rw [Tally.of_append] at divides
    obtain ⟨more,grown⟩ := Tally.credits_next duration idleSamples (Tally.of duration idleSamples history) op
    obtain ⟨p,earlier⟩ := ih fun credit member => divides credit (grown ▸ List.mem_append_left _ member)
    obtain ⟨_,last,width,samples⟩ := run_represents earlier
    rw [run_append,earlier,Option.bind_some]
    cases op with
    | step bs now => exact ⟨_,rfl⟩
    | count bs now => exact ⟨_,rfl⟩
    | compensate now =>
      simp only [TpsOp.apply]
      cases found : (Tally.of duration idleSamples history).last with
      | none =>
        rw [found] at last
        exact ⟨p,by simp only [compensateIdleGap,last]⟩
      | some busy =>
        rw [compensateIdleGap_eq (last.trans found),width,samples]
        have fine := divides ⟨min (now-busy) duration,now⟩ (by simp [Tally.next,found])
        rw [if_neg fine]
        exact ⟨_,rfl⟩

end PrebleTpsBlockHash

end BlitzRouter
