import Mathlib.Data.List.Count

namespace BlitzRouter
variable {α : Type} {final : α → Bool} {l more : List α} {a : α}

-- A stream of messages, some of which are meant to be the last.
def Running (final : α → Bool) (l : List α) : Prop := ∀ a ∈ l, final a = false

def Closes (final : α → Bool) (l : List α) : Prop := ∀ before a after, l = before++a::after → final a = true → after = []

theorem running_nil : Running final [] := nofun

theorem Running.append (running : Running final l) (goes : Running final more) : Running final (l++more) := by
  intro a member
  rcases List.mem_append.mp member with old | new
  · exact running a old
  · exact goes a new

theorem running_singleton (goes : final a = false) : Running final [a] := by
  intro b member
  rw [List.mem_singleton.mp member]
  exact goes

theorem Running.closes (running : Running final l) : Closes final l := by
  intro before a after equal ends
  have goes := running a (by rw [equal]; exact List.mem_append_right before List.mem_cons_self)
  rw [goes] at ends
  cases ends

-- One more message, final or not, is behind every message that is not.
theorem Running.close (running : Running final l) (a : α) : Closes final (l++[a]) := by
  intro before b after equal ends
  rcases List.append_eq_append_iff.mp equal with ⟨front,rfl,rest⟩ | ⟨front,rfl,rest⟩
  · cases front with
    | nil => exact (List.cons.inj rest).2.symm
    | cons c front => cases front <;> cases rest
  · cases front with
    | nil => exact (List.cons.inj rest).2
    | cons c front =>
      obtain ⟨rfl,rfl⟩ := List.cons.inj rest
      have goes := running b (List.mem_append_right before List.mem_cons_self)
      rw [goes] at ends
      cases ends

theorem Closes.rest (closes : Closes final (a::l)) : Closes final l :=
  fun before b after equal => closes (a::before) b after (by rw [equal,List.cons_append])

theorem Closes.at_most_once (closes : Closes final l) : l.countP final ≤ 1 := by
  induction l with
  | nil => exact Nat.zero_le 1
  | cons a l ih =>
    cases ends : final a with
    | true =>
      have alone : (a::l).countP final = 1 := by rw [closes [] a l rfl ends,List.countP_singleton,if_pos ends]
      exact Nat.le_of_eq alone
    | false =>
      rw [List.countP_cons_of_neg (by rw [ends]; exact Bool.false_ne_true)]
      exact ih closes.rest

end BlitzRouter
