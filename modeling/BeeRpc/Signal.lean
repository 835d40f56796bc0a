import BeeRpc.Interleaving.Run

namespace BeeRpc

open Interleaving

-- Who holds the lock of the condition.
inductive Thread where
  | parser
  | sender
  deriving Repr, DecidableEq

-- Where the parser is in `change`.
inductive ChangeAt where
  -- no call in progress
  | returned
  -- has read `open` as True, will write False
  | stopping
  -- has read it as False, will acquire the condition
  | acquiring
  -- inside `with self.condition`
  | notifying
  -- has notified, will release the condition
  | releasing
  -- will write True
  | continuing
  deriving Repr, DecidableEq

-- Where the sender is in `wait`.
inductive WaitAt where
  | returned
  -- has read `open` as False, will acquire the condition
  | acquiring
  -- inside `with self.condition`
  | waiting
  -- in `condition.wait()`, which has released the lock
  | parked
  -- notified, will acquire the lock again
  | notified
  -- will release the condition
  | releasing
  deriving Repr, DecidableEq

-- A Signal (`self.open` is `isOpen`) with the two threads that use it.
structure Signal where
  exist : Bool
  isOpen : Bool := true
  lock : Option Thread := none
  parser : ChangeAt := .returned
  sender : WaitAt := .returned
  deriving Repr, DecidableEq

namespace Signal

variable (s : Signal)

-- The next step of a call of `change`, or the first one of another call.
def change : Option Signal :=
  match s.parser with
  | .returned =>
      if !s.exist then some s
      else if s.isOpen then some { s with parser := .stopping }
      else some { s with parser := .acquiring }
  | .stopping => some { s with isOpen := false, parser := .returned }
  | .acquiring =>
      if s.lock = none then some { s with lock := some .parser, parser := .notifying } else none
  | .notifying =>
      some { s with
        sender := if s.sender = .parked then .notified else s.sender
        parser := .releasing }
  | .releasing => some { s with lock := none, parser := .continuing }
  | .continuing => some { s with isOpen := true, parser := .returned }

-- The next step of a call of `wait`. Nothing but a notification ends the wait.
def wait : Option Signal :=
  match s.sender with
  | .returned =>
      if s.exist && !s.isOpen then some { s with sender := .acquiring } else some s
  | .acquiring =>
      if s.lock = none then some { s with lock := some .sender, sender := .waiting } else none
  | .waiting => some { s with lock := none, sender := .parked }
  | .parked => none
  | .notified =>
      if s.lock = none then some { s with lock := some .sender, sender := .releasing } else none
  | .releasing => some { s with lock := none, sender := .returned }

-- One step of the thread whose turn it is.
def step (s : Signal) : Thread → Option Signal
  | .parser => s.change
  | .sender => s.wait

-- The sender is parked on an open signal and nobody is about to wake it.
def Stranded : Prop := s.sender = .parked ∧ s.isOpen = true ∧ s.parser = .returned

instance : Decidable s.Stranded :=
  inferInstanceAs (Decidable (_ ∧ _ ∧ _))

-- What a step must not do for a waiter to be woken: notify while the sender is between its
-- test of `open` and its park, or test `open` between the notification and the write.
def Meets (s : Signal) : Thread → Prop
  | .parser => s.parser = .notifying → s.sender ≠ .acquiring
  | .sender => s.sender = .returned → s.parser ≠ .releasing ∧ s.parser ≠ .continuing

instance : ∀ t, Decidable (s.Meets t)
  | .parser => inferInstanceAs (Decidable (_ → _))
  | .sender => inferInstanceAs (Decidable (_ → _))

variable {s}

-- What holds in every state, however the threads take turns: the lock is held in the
-- `with` blocks and nowhere else.
structure Locked (s : Signal) : Prop where
  parser : s.lock = some .parser ↔ s.parser = .notifying ∨ s.parser = .releasing
  sender : s.lock = some .sender ↔ s.sender = .waiting ∨ s.sender = .releasing
  closed : s.parser = .acquiring ∨ s.parser = .notifying ∨ s.parser = .releasing ∨
    s.parser = .continuing → s.exist = true ∧ s.isOpen = false

theorem Locked.change {s' : Signal} (hlocked : s.Locked) (hstep : s.change = some s') :
    s'.Locked := by
  obtain ⟨hparser, hsender, hclosed⟩ := hlocked
  unfold Signal.change at hstep
  cases hat : s.parser with
  | returned =>
      simp only [hat] at hstep
      by_cases hexist : s.exist = true
      · by_cases hopen : s.isOpen = true
        · simp only [hexist, hopen, Bool.not_true, Bool.false_eq_true, if_false, if_true,
            Option.some.injEq] at hstep
          subst hstep
          exact ⟨by simp_all, hsender, by simp⟩
        · simp only [hexist, hopen, Bool.not_true, Bool.false_eq_true, if_false,
            Option.some.injEq] at hstep
          subst hstep
          exact ⟨by simp_all, hsender, by simp_all⟩
      · simp only [hexist, Bool.not_false, if_true, Option.some.injEq] at hstep
        subst hstep
        exact ⟨hparser, hsender, hclosed⟩
  | stopping =>
      simp only [hat, Option.some.injEq] at hstep
      subst hstep
      exact ⟨by simp_all, hsender, by simp⟩
  | acquiring =>
      simp only [hat] at hstep
      by_cases hfree : s.lock = none
      · rw [if_pos hfree, Option.some.injEq] at hstep
        subst hstep
        exact ⟨by simp, by simp_all, fun _ => hclosed (Or.inl hat)⟩
      · rw [if_neg hfree] at hstep
        cases hstep
  | notifying =>
      simp only [hat, Option.some.injEq] at hstep
      subst hstep
      have hlock := hparser.mpr (Or.inl hat)
      refine ⟨by simp [hlock], ?_, fun _ => hclosed (Or.inr (Or.inl hat))⟩
      by_cases hparked : s.sender = .parked
      · simp [hlock, hparked]
      · simp_all
  | releasing =>
      simp only [hat, Option.some.injEq] at hstep
      subst hstep
      have hlock := hparser.mpr (Or.inr hat)
      exact ⟨by simp, by simp_all, fun _ => hclosed (Or.inr (Or.inr (Or.inl hat)))⟩
  | continuing =>
      simp only [hat, Option.some.injEq] at hstep
      subst hstep
      exact ⟨by simp_all, hsender, by simp⟩

theorem Locked.wait {s' : Signal} (hlocked : s.Locked) (hstep : s.wait = some s') : s'.Locked := by
  obtain ⟨hparser, hsender, hclosed⟩ := hlocked
  unfold Signal.wait at hstep
  cases hat : s.sender with
  | returned =>
      simp only [hat] at hstep
      by_cases htest : (s.exist && !s.isOpen) = true
      · rw [if_pos htest, Option.some.injEq] at hstep
        subst hstep
        exact ⟨hparser, by simp_all, hclosed⟩
      · rw [if_neg htest, Option.some.injEq] at hstep
        subst hstep
        exact ⟨hparser, hsender, hclosed⟩
  | acquiring =>
      simp only [hat] at hstep
      by_cases hfree : s.lock = none
      · rw [if_pos hfree, Option.some.injEq] at hstep
        subst hstep
        exact ⟨by simp_all, by simp, hclosed⟩
      · rw [if_neg hfree] at hstep
        cases hstep
  | waiting =>
      simp only [hat, Option.some.injEq] at hstep
      subst hstep
      have hlock := hsender.mpr (Or.inl hat)
      exact ⟨by simp_all, by simp, hclosed⟩
  | parked =>
      simp only [hat] at hstep
      cases hstep
  | notified =>
      simp only [hat] at hstep
      by_cases hfree : s.lock = none
      · rw [if_pos hfree, Option.some.injEq] at hstep
        subst hstep
        exact ⟨by simp_all, by simp, hclosed⟩
      · rw [if_neg hfree] at hstep
        cases hstep
  | releasing =>
      simp only [hat, Option.some.injEq] at hstep
      subst hstep
      have hlock := hsender.mpr (Or.inr hat)
      exact ⟨by simp_all, by simp, hclosed⟩

theorem locked_run {exist : Bool} {schedule : List Thread}
    (hrun : run step { exist := exist } schedule = some s) : s.Locked := by
  refine invariant_run_all ?_ schedule ⟨by simp, by simp, by simp⟩ hrun
  intro s t s' hlocked hstep
  cases t with
  | parser => exact hlocked.change hstep
  | sender => exact hlocked.wait hstep

-- The sender is on its way to the park, or there, only while the signal is closed and a
-- notification is still to come.
def Wakeable (s : Signal) : Prop :=
  s.sender = .acquiring ∨ s.sender = .waiting ∨ s.sender = .parked →
    s.isOpen = false ∧ s.parser ≠ .releasing ∧ s.parser ≠ .continuing

theorem Wakeable.not_stranded (hwake : s.Wakeable) : ¬ s.Stranded := by
  rintro ⟨hparked, hopen, -⟩
  have hclosed := (hwake (Or.inr (Or.inr hparked))).1
  rw [hopen] at hclosed
  cases hclosed

theorem Wakeable.change {s' : Signal} (hwake : s.Wakeable) (hlocked : s.Locked)
    (hmeets : s.Meets .parser) (hstep : s.change = some s') : s'.Wakeable := by
  unfold Signal.change at hstep
  unfold Wakeable at hwake ⊢
  cases hat : s.parser with
  | returned =>
      simp only [hat] at hstep
      by_cases hexist : s.exist = true
      · by_cases hopen : s.isOpen = true
        · simp only [hexist, hopen, Bool.not_true, Bool.false_eq_true, if_false, if_true,
            Option.some.injEq] at hstep
          subst hstep
          simp_all
        · simp only [hexist, hopen, Bool.not_true, Bool.false_eq_true, if_false,
            Option.some.injEq] at hstep
          subst hstep
          simp_all
      · simp only [hexist, Bool.not_false, if_true, Option.some.injEq] at hstep
        subst hstep
        exact hwake
  | stopping =>
      simp only [hat, Option.some.injEq] at hstep
      subst hstep
      exact fun _ => ⟨rfl, by simp, by simp⟩
  | acquiring =>
      simp only [hat] at hstep
      by_cases hfree : s.lock = none
      · rw [if_pos hfree, Option.some.injEq] at hstep
        subst hstep
        exact fun hway => ⟨(hwake hway).1, by simp, by simp⟩
      · rw [if_neg hfree] at hstep
        cases hstep
  | notifying =>
      simp only [hat, Option.some.injEq] at hstep
      subst hstep
      -- whoever is at the park is woken, and nobody is on the way there
      have hlock := hlocked.parser.mpr (Or.inl hat)
      have hsender := hlocked.sender
      have hacquiring := hmeets hat
      by_cases hparked : s.sender = .parked
      · simp [hparked]
      · simp_all
  | releasing =>
      simp only [hat, Option.some.injEq] at hstep
      subst hstep
      exact fun hway => absurd hat (hwake hway).2.1
  | continuing =>
      simp only [hat, Option.some.injEq] at hstep
      subst hstep
      exact fun hway => absurd hat (hwake hway).2.2

theorem Wakeable.wait {s' : Signal} (hwake : s.Wakeable) (hmeets : s.Meets .sender)
    (hstep : s.wait = some s') : s'.Wakeable := by
  unfold Signal.wait at hstep
  unfold Wakeable at hwake ⊢
  cases hat : s.sender with
  | returned =>
      simp only [hat] at hstep
      by_cases htest : (s.exist && !s.isOpen) = true
      · rw [if_pos htest, Option.some.injEq] at hstep
        subst hstep
        have hclosed : s.isOpen = false := by simp_all
        exact fun _ => ⟨hclosed, hmeets hat⟩
      · rw [if_neg htest, Option.some.injEq] at hstep
        subst hstep
        exact hwake
  | acquiring =>
      simp only [hat] at hstep
      by_cases hfree : s.lock = none
      · rw [if_pos hfree, Option.some.injEq] at hstep
        subst hstep
        exact fun _ => hwake (Or.inl hat)
      · rw [if_neg hfree] at hstep
        cases hstep
  | waiting =>
      simp only [hat, Option.some.injEq] at hstep
      subst hstep
      exact fun _ => hwake (Or.inr (Or.inl hat))
  | parked =>
      simp only [hat] at hstep
      cases hstep
  | notified =>
      simp only [hat] at hstep
      by_cases hfree : s.lock = none
      · rw [if_pos hfree, Option.some.injEq] at hstep
        subst hstep
        simp
      · rw [if_neg hfree] at hstep
        cases hstep
  | releasing =>
      simp only [hat, Option.some.injEq] at hstep
      subst hstep
      simp

-- The parser stops the signal and goes on again while the sender, which has found it
-- closed, is still on its way to the park: there is nobody to notify.
theorem wait_misses_notification :
    ∃ s, run step { exist := true }
        [.parser, .parser, .sender, .parser, .parser, .parser, .parser, .parser, .sender, .sender] =
        some s ∧
      s.Stranded :=
  ⟨{ exist := true, sender := .parked }, by decide, by decide⟩

-- Where no notification falls between a test of `open` and its park, and no test between
-- a notification and the write behind it, a parked sender is woken.
theorem wait_ends (exist : Bool) (schedule : List Thread) (s : Signal)
    (hrun : run step { exist := exist } schedule = some s)
    (hmeets : Along step Meets { exist := exist } schedule) : ¬ s.Stranded := by
  have hboth : s.Locked ∧ s.Wakeable := by
    have hstart : Locked { exist := exist } ∧ Wakeable { exist := exist } :=
      ⟨⟨by simp, by simp, by simp⟩, by simp [Wakeable]⟩
    refine @invariant_run Signal Thread step Meets (fun s => s.Locked ∧ s.Wakeable) ?_ schedule _ _
      hstart hmeets hrun
    rintro s t s' ⟨hlocked, hwake⟩ hallowed hstep
    cases t with
    | parser => exact ⟨hlocked.change hstep, hwake.change hlocked hallowed hstep⟩
    | sender => exact ⟨hlocked.wait hstep, hwake.wait hallowed hstep⟩
  exact hboth.2.not_stranded

-- The signal is stopped, waited for and continued.
theorem wait_ends_sample :
    ¬ Stranded { exist := true, sender := .notified } :=
  wait_ends true
    [.parser, .parser, .sender, .sender, .sender, .parser, .parser, .parser, .parser, .parser] _
    (by decide) (by decide)

-- A step that does not meet the condition is enough: the sender gets to its park, and the
-- parser to the end of its call, with nothing in between to wake it.
theorem wait_strands {exist : Bool} {schedule : List Thread} {s' : Signal} {t : Thread}
    (hrun : run step { exist := exist } schedule = some s) (hstep : step s t = some s')
    (hbroken : ¬ s.Meets t) : ∃ more last, run step s' more = some last ∧ last.Stranded := by
  obtain ⟨hparser, hsender, hclosed⟩ := locked_run hrun
  obtain ⟨exists', isOpen, lock, parser, sender⟩ := s
  cases t with
  | parser =>
      simp only [Meets, Classical.not_imp, not_not] at hbroken
      obtain ⟨rfl, rfl⟩ := hbroken
      obtain rfl := Option.some.inj hstep
      exact ⟨[.parser, .parser, .sender, .sender], _, rfl, rfl, rfl, rfl⟩
  | sender =>
      simp only [Meets, Classical.not_imp] at hbroken
      obtain ⟨rfl, hbetween⟩ := hbroken
      have hat : parser = .releasing ∨ parser = .continuing := by
        simpa only [not_and_or, not_not] using hbetween
      obtain ⟨rfl, rfl⟩ := hclosed (Or.inr (Or.inr hat))
      obtain rfl := Option.some.inj hstep
      rcases hat with rfl | rfl
      · exact ⟨[.parser, .parser, .sender, .sender], _, rfl, rfl, rfl, rfl⟩
      · have hfree : lock = none := by
          cases lock with
          | none => rfl
          | some thread => cases thread <;> simp at hparser hsender
        subst hfree
        exact ⟨[.parser, .sender, .sender], _, rfl, rfl, rfl, rfl⟩

end Signal

end BeeRpc
