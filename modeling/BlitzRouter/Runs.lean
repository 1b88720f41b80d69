namespace BlitzRouter

-- Runs of a labelled transition system, with the labels they took. The last
-- step is outermost, so that an invariant may speak about the history.
inductive Run {σ α : Type} (step : σ → α → σ → Prop) (start : σ) : List α → σ → Prop where
  | start : Run step start [] start
  | next {history : List α} {s t : σ} {a : α} : Run step start history s → step s a t → Run step start (history++[a]) t

namespace Run
variable {σ α : Type} {step other : σ → α → σ → Prop} {start s : σ} {history : List α}

theorem invariant {I : List α → σ → Prop} (run : Run step start history s) (base : I [] start)
    (keep : ∀ past s a t, I past s → step s a t → I (past++[a]) t) : I history s := by
  induction run with
  | start => exact base
  | next _ taken ih => exact keep _ _ _ _ ih taken

theorem weaken (run : Run step start history s) (weaker : ∀ s a t, step s a t → other s a t) : Run other start history s := by
  induction run with
  | start => exact .start
  | next _ taken ih => exact .next ih (weaker _ _ _ taken)

-- Only the labels that were taken have to allow the weaker step.
theorem weaken_of {P : α → Prop} (run : Run step start history s) (all : ∀ a ∈ history, P a)
    (weaker : ∀ s a t, P a → step s a t → other s a t) : Run other start history s := by
  induction run with
  | start => exact .start
  | next _ taken ih =>
    refine .next (ih fun a member => all a (List.mem_append_left _ member)) (weaker _ _ _ (all _ ?_) taken)
    exact List.mem_append_right _ (List.mem_singleton_self _)

-- What an executor returns after some labels is reached by a run over them, when
-- each label it takes is a step.
theorem executed {exec : σ → List α → Option σ} {t : σ} {acts : List α} (run : Run step start history s)
    (stops : ∀ s, exec s [] = some s)
    (steps : ∀ s a rest t, exec s (a::rest) = some t → ∃ next, step s a next ∧ exec next rest = some t)
    (result : exec s acts = some t) : Run step start (history++acts) t := by
  induction acts generalizing s history with
  | nil =>
    rw [stops] at result
    cases result
    rwa [List.append_nil]
  | cons a rest ih =>
    obtain ⟨next,taken,later⟩ := steps s a rest t result
    simpa using ih (.next run taken) later

-- A second system that follows step by step.
theorem simulate {τ : Type} {step' : τ → α → τ → Prop} {R : σ → τ → Prop} {start' : τ} (run : Run step start history s)
    (base : R start start') (follow : ∀ s a t s', R s s' → step s a t → ∃ t', step' s' a t' ∧ R t t') :
    ∃ s', Run step' start' history s' ∧ R s s' := by
  induction run with
  | start => exact ⟨start',.start,base⟩
  | next _ taken ih =>
    obtain ⟨s',run',related⟩ := ih
    obtain ⟨t',taken',related'⟩ := follow _ _ _ _ related taken
    exact ⟨t',.next run' taken',related'⟩

end Run
end BlitzRouter
