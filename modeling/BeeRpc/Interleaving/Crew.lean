import BeeRpc.Interleaving.Run
import Mathlib.Logic.Function.Basic
import Mathlib.Logic.Relation

namespace Interleaving

-- Agents around something that they share. One that has come to its end takes no turn.
structure Crew (ι σ α : Type) where
  shared : σ
  agents : ι → α

section

variable {ι σ α : Type} [DecidableEq ι] (act : σ → α → Option (σ × α))

def Crew.step (s : Crew ι σ α) (i : ι) : Option (Crew ι σ α) :=
  match act s.shared (s.agents i) with
  | none => none
  | some (shared, agent) => some { shared, agents := Function.update s.agents i agent }

variable {act}

theorem crew_step {s s' : Crew ι σ α} {i : ι} (hstep : s.step act i = some s') :
    ∃ shared agent, act s.shared (s.agents i) = some (shared, agent) ∧
      s' = { shared, agents := Function.update s.agents i agent } := by
  unfold Crew.step at hstep
  split at hstep
  · cases hstep
  · rename_i shared agent hact
    exact ⟨shared, agent, hact, (Option.some.inj hstep).symm⟩

-- What each agent keeps when it takes a turn that it may take, and does not lose when another one
-- takes one that spares it. `moves` is what the others can rely on.
structure RelyGuarantee (act : σ → α → Option (σ × α)) (inv : σ → Prop) (own : ι → σ → α → Prop)
    (moves : α → σ → σ → Prop) (may : α → Prop) (spares : α → α → Prop) : Prop where
  turn : ∀ i s a s' a', inv s → own i s a → may a → act s a = some (s', a') →
    inv s' ∧ own i s' a' ∧ moves a s s'
  rely : ∀ i s s' a b, inv s → inv s' → own i s b → moves a s s' → spares a b → own i s' b

variable {inv : σ → Prop} {own : ι → σ → α → Prop} {moves : α → σ → σ → Prop} {may : α → Prop}
  {spares : α → α → Prop}

theorem RelyGuarantee.run (h : RelyGuarantee act inv own moves may spares) (ts : List ι)
    {s s' : Crew ι σ α} (hinv : inv s.shared) (hown : ∀ i, own i s.shared (s.agents i))
    (halong : Along (Crew.step act)
      (fun s i => may (s.agents i) ∧ ∀ j, j ≠ i → spares (s.agents i) (s.agents j)) s ts)
    (hrun : Interleaving.run (Crew.step act) s ts = some s') :
    inv s'.shared ∧ ∀ i, own i s'.shared (s'.agents i) := by
  have hkeeps : ∀ (s : Crew ι σ α) (i : ι) (s' : Crew ι σ α),
      (inv s.shared ∧ ∀ i, own i s.shared (s.agents i)) →
        (may (s.agents i) ∧ ∀ j, j ≠ i → spares (s.agents i) (s.agents j)) →
          s.step act i = some s' → inv s'.shared ∧ ∀ i, own i s'.shared (s'.agents i) := by
    rintro s i s' ⟨hinv, hown⟩ ⟨hmay, hspares⟩ hstep
    obtain ⟨shared, agent, hact, rfl⟩ := crew_step hstep
    obtain ⟨hinv', hown', hmoves⟩ := h.turn i _ _ _ _ hinv (hown i) hmay hact
    refine ⟨hinv', fun j => ?_⟩
    by_cases hj : j = i
    · subst hj
      simpa only [Function.update_self] using hown'
    · simpa only [Function.update_of_ne hj] using
        h.rely j _ _ _ _ hinv hinv' (hown j) hmoves (hspares j hj)
  exact invariant_run hkeeps ts ⟨hinv, hown⟩ halong hrun

variable {moves : σ → σ → Prop}

-- What every turn does to what is shared, a run does.
theorem shared_run (hrefl : ∀ s, moves s s) (htrans : ∀ a b c, moves a b → moves b c → moves a c)
    (hact : ∀ s a s' a', act s a = some (s', a') → moves s s') (ts : List ι) {s s' : Crew ι σ α}
    (hrun : Interleaving.run (Crew.step act) s ts = some s') : moves s.shared s'.shared := by
  have hkeeps : ∀ (t : Crew ι σ α) (i : ι) (t' : Crew ι σ α), moves s.shared t.shared →
      t.step act i = some t' → moves s.shared t'.shared := by
    intro t i t' hmoves hstep
    obtain ⟨shared, agent, hagent, rfl⟩ := crew_step hstep
    exact htrans _ _ _ hmoves (hact _ _ _ _ hagent)
  exact invariant_run_all hkeeps ts (hrefl s.shared) hrun

-- An agent that is alone with what is shared.
abbrev Alone (act : σ → α → Option (σ × α)) : σ × α → σ × α → Prop :=
  Relation.ReflTransGen fun before after => act before.1 before.2 = some after

theorem alone_run {i : ι} {s : Crew ι σ α} {after : σ × α}
    (h : Alone act (s.shared, s.agents i) after) :
    ∃ n, Interleaving.run (Crew.step act) s (List.replicate n i) =
      some { shared := after.1, agents := Function.update s.agents i after.2 } := by
  generalize hbefore : (s.shared, s.agents i) = before at h
  induction h using Relation.ReflTransGen.head_induction_on generalizing s with
  | refl =>
      refine ⟨0, ?_⟩
      rw [← hbefore, Function.update_eq_self]
      rfl
  | head hact _ ih =>
      subst hbefore
      rename_i next _
      obtain ⟨n, hn⟩ := @ih { shared := next.1, agents := Function.update s.agents i next.2 }
        (by simp)
      have hstep : s.step act i =
          some { shared := next.1, agents := Function.update s.agents i next.2 } := by
        simp only [Crew.step, hact]
      refine ⟨n + 1, run_of_step hstep ?_⟩
      rw [hn, Function.update_idem]

-- Left alone it comes to where it takes no turn.
def Halts (act : σ → α → Option (σ × α)) (before : σ × α) : Prop :=
  ∃ after, Alone act before after ∧ act after.1 after.2 = none

theorem alone_good {good : σ × α → Prop} (hkeeps : ∀ x y, good x → act x.1 x.2 = some y → good y)
    {x y : σ × α} (hx : good x) (h : Alone act x y) : good y := by
  induction h with
  | refl => exact hx
  | tail _ hact ih => exact hkeeps _ _ ih hact

-- Where a good state has a turn it leads to one that is nearer to the end, in some number of turns.
theorem halts_of_nearer {good : σ × α → Prop} (distance : σ × α → Nat)
    (hkeeps : ∀ x y, good x → act x.1 x.2 = some y → good y)
    (hnearer : ∀ x y, good x → act x.1 x.2 = some y →
      ∃ z, Alone act x z ∧ distance z < distance x) {x : σ × α} (hx : good x) : Halts act x := by
  generalize hn : distance x = n
  induction n using Nat.strong_induction_on generalizing x with
  | _ n ih =>
      cases hact : act x.1 x.2 with
      | none => exact ⟨x, .refl, hact⟩
      | some y =>
          obtain ⟨z, hz, hless⟩ := hnearer x y hx hact
          obtain ⟨after, hafter, hnone⟩ := ih (distance z) (hn ▸ hless) (alone_good hkeeps hx hz) rfl
          exact ⟨after, hz.trans hafter, hnone⟩

-- There is one way for it to go on.
theorem alone_linear {x y z : σ × α} (hy : Alone act x y) (hz : Alone act x z) :
    Alone act y z ∨ Alone act z y := by
  refine Relation.ReflTransGen.total_of_right_unique (fun _ _ _ hb hc => ?_) hy hz
  exact Option.some.inj (hb.symm.trans hc)

end

end Interleaving
