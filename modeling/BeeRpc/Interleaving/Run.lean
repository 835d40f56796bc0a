import Mathlib.Data.List.Basic
import Mathlib.Data.List.Infix

namespace Interleaving

variable {σ τ : Type} (step : σ → τ → Option σ)

-- The state that a schedule leads to, `none` where one of its steps cannot be taken.
def run : σ → List τ → Option σ
  | s, [] => some s
  | s, t :: ts =>
      match step s t with
      | none => none
      | some s' => run s' ts

-- Every step of the schedule is allowed in the state that it is taken from.
def Along (allowed : σ → τ → Prop) : σ → List τ → Prop
  | _, [] => True
  | s, t :: ts => allowed s t ∧ ∀ s' ∈ step s t, Along allowed s' ts

instance decidableAlong (allowed : σ → τ → Prop) [∀ s t, Decidable (allowed s t)] :
    ∀ (s : σ) (ts : List τ), Decidable (Along step allowed s ts)
  | _, [] => isTrue trivial
  | s, t :: ts =>
      have : ∀ s', Decidable (Along step allowed s' ts) := fun s' => decidableAlong allowed s' ts
      inferInstanceAs (Decidable (allowed s t ∧ ∀ s' ∈ step s t, Along step allowed s' ts))

variable {step}

theorem run_cons {s s' : σ} {t : τ} {ts : List τ} (hrun : run step s (t :: ts) = some s') :
    ∃ next, step s t = some next ∧ run step next ts = some s' := by
  unfold run at hrun
  cases hstep : step s t with
  | none => rw [hstep] at hrun; cases hrun
  | some next =>
      rw [hstep] at hrun
      exact ⟨next, rfl, hrun⟩

theorem run_of_step {s next s' : σ} {t : τ} {ts : List τ} (hstep : step s t = some next)
    (hrun : run step next ts = some s') : run step s (t :: ts) = some s' := by
  unfold run
  rw [hstep]
  exact hrun

theorem along_cons {allowed : σ → τ → Prop} {s next : σ} {t : τ} {ts : List τ}
    (hstep : step s t = some next) :
    Along step allowed s (t :: ts) ↔ allowed s t ∧ Along step allowed next ts := by
  show (allowed s t ∧ ∀ s' ∈ step s t, Along step allowed s' ts) ↔ _
  simp [hstep]

theorem along_mono {allowed more : σ → τ → Prop} (h : ∀ s t, allowed s t → more s t) (ts : List τ) :
    ∀ {s : σ}, Along step allowed s ts → Along step more s ts := by
  induction ts with
  | nil => exact fun _ => trivial
  | cons t ts ih => exact fun halong => ⟨h _ t halong.1, fun s' hs' => ih (halong.2 s' hs')⟩

-- What holds at the start and is kept by every allowed step holds of every state reached.
theorem invariant_run {allowed : σ → τ → Prop} {inv : σ → Prop}
    (hkeeps : ∀ s t s', inv s → allowed s t → step s t = some s' → inv s')
    (ts : List τ) : ∀ {s s' : σ}, inv s → Along step allowed s ts → run step s ts = some s' →
      inv s' := by
  induction ts with
  | nil =>
      intro s s' hinv _ hrun
      obtain rfl := Option.some.inj hrun
      exact hinv
  | cons t ts ih =>
      intro s s' hinv halong hrun
      obtain ⟨next, hstep, hrest⟩ := run_cons hrun
      obtain ⟨hallowed, hmore⟩ := (along_cons hstep).mp halong
      exact ih (hkeeps s t next hinv hallowed hstep) hmore hrest

-- An invariant that also tells the steps taken so far.
theorem history_run {inv : List τ → σ → Prop}
    (hkeeps : ∀ past s t s', inv past s → step s t = some s' → inv (past ++ [t]) s')
    (ts : List τ) : ∀ {past : List τ} {s s' : σ}, inv past s → run step s ts = some s' →
      inv (past ++ ts) s' := by
  induction ts with
  | nil =>
      intro past s s' hinv hrun
      obtain rfl := Option.some.inj hrun
      rwa [List.append_nil]
  | cons t ts ih =>
      intro past s s' hinv hrun
      obtain ⟨next, hstep, hrest⟩ := run_cons hrun
      have h := ih (hkeeps past s t next hinv hstep) hrest
      rwa [List.append_assoc] at h

theorem invariant_run_all {inv : σ → Prop} (hkeeps : ∀ s t s', inv s → step s t = some s' → inv s')
    (ts : List τ) {s s' : σ} (hinv : inv s) (hrun : run step s ts = some s') : inv s' :=
  @history_run σ τ step (fun _ s => inv s) (fun _ s t s' => hkeeps s t s') ts [] s s' hinv hrun

-- Where a step that is not allowed is one into a state that is not good, the runs that
-- meet good states only are those whose steps are all allowed.
theorem along_iff_good {allowed : σ → τ → Prop} {inv good : σ → Prop}
    (hgood : ∀ s, inv s → good s)
    (hkeeps : ∀ s t s', inv s → allowed s t → step s t = some s' → inv s')
    (hbreaks : ∀ s t s', inv s → ¬ allowed s t → step s t = some s' → ¬ good s')
    (ts : List τ) : ∀ {s s' : σ}, inv s → run step s ts = some s' →
      ((∀ front, front <+: ts → ∀ met, run step s front = some met → good met) ↔
        Along step allowed s ts) := by
  induction ts with
  | nil =>
      intro s s' hinv _
      refine ⟨fun _ => trivial, fun _ front hfront met hmet => ?_⟩
      obtain rfl := List.prefix_nil.mp hfront
      obtain rfl := Option.some.inj hmet
      exact hgood _ hinv
  | cons t ts ih =>
      intro s s' hinv hrun
      obtain ⟨next, hstep, hrest⟩ := run_cons hrun
      rw [along_cons hstep]
      constructor
      · intro hall
        have hone := hall [t] ⟨ts, rfl⟩ next (run_of_step hstep rfl)
        have hallowed : allowed s t :=
          Classical.byContradiction fun hnot => hbreaks s t next hinv hnot hstep hone
        refine ⟨hallowed, (ih (hkeeps s t next hinv hallowed hstep) hrest).mp ?_⟩
        intro front hfront met hmet
        exact hall (t :: front) (List.cons_prefix_cons.mpr ⟨rfl, hfront⟩) met
          (run_of_step hstep hmet)
      · rintro ⟨hallowed, hmore⟩ front hfront met hmet
        cases front with
        | nil =>
            obtain rfl := Option.some.inj hmet
            exact hgood _ hinv
        | cons head front =>
            obtain ⟨rfl, hrestFront⟩ := List.cons_prefix_cons.mp hfront
            obtain ⟨other, hother, hfrontRun⟩ := run_cons hmet
            obtain rfl := Option.some.inj (hstep.symm.trans hother)
            exact (ih (hkeeps s head next hinv hallowed hstep) hrest).mpr hmore front hrestFront met
              hfrontRun

end Interleaving
