import Mathlib.Data.Nat.Basic
import Mathlib.Data.Nat.Init
import Mathlib.Order.Basic

namespace Fairness
variable {σ : Type} {same : σ → σ → Prop} {act weaker : σ → σ → Prop} {b : Nat → σ} {P Q R : σ → Prop}

-- Actions relate the states before and after a step; `same` compares the variables
-- that a step has to change.
def Changing (same act : σ → σ → Prop) (s t : σ) : Prop := act s t ∧ ¬same s t

def Enabled (act : σ → σ → Prop) (s : σ) : Prop := ∃ t, act s t

-- An action that is enabled from some time on is taken again and again.
def WeaklyFair (same act : σ → σ → Prop) (b : Nat → σ) : Prop :=
  (∃ n, ∀ m, n ≤ m → Enabled (Changing same act) (b m)) → ∀ n, ∃ m, n ≤ m ∧ Changing same act (b m) (b (m+1))

def LeadsTo (P Q : σ → Prop) (b : Nat → σ) : Prop := ∀ n, P (b n) → ∃ m, n ≤ m ∧ Q (b m)

theorem Enabled.weaken (enabled : Enabled (Changing same act) (b n)) (weaker_ : ∀ s t, act s t → weaker s t) :
    Enabled (Changing same weaker) (b n) := by
  obtain ⟨t,taken,changes⟩ := enabled
  exact ⟨t,weaker_ _ _ taken,changes⟩

theorem LeadsTo.refl : LeadsTo P P b := fun n here => ⟨n,Nat.le_refl n,here⟩

theorem LeadsTo.trans (one : LeadsTo P Q b) (two : LeadsTo Q R b) : LeadsTo P R b := by
  intro n here
  obtain ⟨m,after,reached⟩ := one n here
  obtain ⟨k,later,done⟩ := two m reached
  exact ⟨k,Nat.le_trans after later,done⟩

theorem LeadsTo.cases {P' : σ → Prop} (one : LeadsTo P Q b) (two : LeadsTo P' Q b) : LeadsTo (fun s => P s ∨ P' s) Q b :=
  fun n here => here.elim (one n) (two n)

theorem always (start : P (b 0)) (keeps : ∀ n, P (b n) → P (b (n+1))) (n : Nat) : P (b n) := by
  induction n with
  | zero => exact start
  | succ n ih => exact keeps n ih

theorem stays {n m : Nat} (here : P (b n)) (keeps : ∀ n, P (b n) → P (b (n+1))) (after : n ≤ m) : P (b m) := by
  induction m,after using Nat.le_induction with
  | base => exact here
  | succ m _ ih => exact keeps m ih

-- A fair action that is enabled as long as the goal is not reached, and each time
-- brings it nearer, reaches it, when nothing takes it further away.
theorem WeaklyFair.leads_to (fair : WeaklyFair same act b) (rank : σ → Nat) (enabled : ∀ n, P (b n) → Enabled (Changing same act) (b n))
    (keeps : ∀ n, P (b n) → Q (b (n+1)) ∨ P (b (n+1)) ∧ rank (b (n+1)) ≤ rank (b n))
    (falls : ∀ n, P (b n) → act (b n) (b (n+1)) → Q (b (n+1)) ∨ rank (b (n+1)) < rank (b n)) : LeadsTo P Q b := by
  intro n
  induction reached : rank (b n) using Nat.strongRecOn generalizing n with
  | ind r ih =>
    intro here
    by_contra never
    have missed (m : Nat) (after : n ≤ m) : ¬Q (b m) := fun done => never ⟨m,after,done⟩
    have holds (m : Nat) (after : n ≤ m) : P (b m) ∧ rank (b m) ≤ r := by
      induction m,after using Nat.le_induction with
      | base => exact ⟨here,reached.le⟩
      | succ m after ih =>
        obtain ⟨still,low⟩ := (keeps m ih.1).resolve_left (missed (m+1) (after.trans (Nat.le_succ m)))
        exact ⟨still,low.trans ih.2⟩
    obtain ⟨m,after,taken,_⟩ := fair ⟨n,fun m after => enabled m (holds m after).1⟩ n
    have next : n ≤ m+1 := after.trans (Nat.le_succ m)
    have lower := (falls m (holds m after).1 taken).resolve_left (missed (m+1) next)
    obtain ⟨k,later,done⟩ := ih (rank (b (m+1))) (lower.trans_le (holds m after).2) (m+1) rfl (holds (m+1) next).1
    exact never ⟨k,next.trans later,done⟩

end Fairness
