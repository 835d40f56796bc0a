namespace Effect

instance decidableEqResult {ε σ α : Type} [DecidableEq ε] [DecidableEq σ] [DecidableEq α] :
    DecidableEq (EStateM.Result ε σ α)
  | .ok a s, .ok a' s' => decidable_of_iff (a = a' ∧ s = s') (by simp)
  | .error e s, .error e' s' => decidable_of_iff (e = e' ∧ s = s') (by simp)
  | .ok _ _, .error _ _ => isFalse (by simp)
  | .error _ _, .ok _ _ => isFalse (by simp)

variable {ε σ α β : Type}

-- A computation that may raise and whose changes to the state survive what it raises:
-- whichever way it ends from `s`, the state it leaves is as said for that way.
def Ends (m : EStateM ε σ α) (s : σ) (ok : α → σ → Prop) (raised : ε → σ → Prop) : Prop :=
  match m s with
  | .ok a s' => ok a s'
  | .error e s' => raised e s'

variable {m : EStateM ε σ α} {s : σ} {ok ok' : α → σ → Prop} {raised raised' : ε → σ → Prop}

theorem Ends.mono (h : Ends m s ok raised) (hok : ∀ a s', ok a s' → ok' a s')
    (hraised : ∀ e s', raised e s' → raised' e s') : Ends m s ok' raised' := by
  simp only [Ends] at h ⊢
  split at h
  · exact hok _ _ h
  · exact hraised _ _ h

theorem Ends.of_ok {a : α} {s' : σ} (h : Ends m s ok raised) (hm : m s = .ok a s') : ok a s' := by
  simpa only [Ends, hm] using h

theorem Ends.of_error {e : ε} {s' : σ} (h : Ends m s ok raised) (hm : m s = .error e s') :
    raised e s' := by
  simpa only [Ends, hm] using h

theorem ends_of_ok {a : α} {s' : σ} (hm : m s = .ok a s') (h : ok a s') : Ends m s ok raised := by
  simpa only [Ends, hm] using h

theorem ends_of_error {e : ε} {s' : σ} (hm : m s = .error e s') (h : raised e s') :
    Ends m s ok raised := by
  simpa only [Ends, hm] using h

@[simp] theorem ends_pure (a : α) : Ends (pure a) s ok raised ↔ ok a s := Iff.rfl

@[simp] theorem ends_throw (e : ε) : Ends (throw e) s ok raised ↔ raised e s := Iff.rfl

@[simp] theorem ends_get {ok : σ → σ → Prop} {raised : ε → σ → Prop} :
    Ends get s ok raised ↔ ok s s := Iff.rfl

@[simp] theorem ends_modify (f : σ → σ) {ok : PUnit → σ → Prop} {raised : ε → σ → Prop} :
    Ends (modify f) s ok raised ↔ ok ⟨⟩ (f s) := Iff.rfl

@[simp] theorem ends_modifyGet (f : σ → α × σ) :
    Ends (modifyGet f) s ok raised ↔ ok (f s).1 (f s).2 := Iff.rfl

-- What comes after starts where the first part has ended.
theorem ends_bind {f : α → EStateM ε σ β} {ok : β → σ → Prop} :
    Ends (m >>= f) s ok raised ↔ Ends m s (fun a s' => Ends (f a) s' ok raised) raised := by
  simp only [Ends, bind, EStateM.bind]
  cases m s <;> rfl

theorem tryCatch_of_ok {handler : ε → EStateM ε σ α} {a : α} {s' : σ} (h : m s = .ok a s') :
    tryCatch m handler s = .ok a s' := by
  change EStateM.tryCatch m handler s = _
  delta EStateM.tryCatch
  rw [h]

theorem tryCatch_of_error {handler : ε → EStateM ε σ α} {e : ε} {s' : σ}
    (h : m s = .error e s') : tryCatch m handler s = handler e s' := by
  change EStateM.tryCatch m handler s = _
  delta EStateM.tryCatch
  rw [h]
  rfl

-- A handler takes over with the state that the exception has left.
theorem ends_tryCatch {handler : ε → EStateM ε σ α} :
    Ends (tryCatch m handler) s ok raised ↔
      Ends m s ok fun e s' => Ends (handler e) s' ok raised := by
  cases h : m s with
  | ok a s' => simp only [Ends, tryCatch_of_ok h, h]
  | error e s' => simp only [Ends, tryCatch_of_error h, h]

theorem Ends.bind {f : α → EStateM ε σ β} {mid : α → σ → Prop} {ok : β → σ → Prop}
    (h : Ends m s mid raised) (hf : ∀ a s', mid a s' → Ends (f a) s' ok raised) :
    Ends (m >>= f) s ok raised :=
  ends_bind.mpr (h.mono hf fun _ _ he => he)

-- Two computations that go on alike from wherever the first part ends.
theorem Ends.bind_congr {f g : α → EStateM ε σ β} (h : Ends m s ok raised)
    (hfg : ∀ a s', ok a s' → f a s' = g a s') : (m >>= f) s = (m >>= g) s := by
  simp only [Bind.bind, EStateM.bind]
  split
  · rename_i a s' hm
    exact hfg a s' (h.of_ok hm)
  · rfl

-- The first part has ended in a value.
theorem bind_of_ok {f : α → EStateM ε σ β} {a : α} {s' : σ} (h : m s = .ok a s') :
    (m >>= f) s = f a s' := by
  simp only [Bind.bind, EStateM.bind, h]

theorem bind_of_error {f : α → EStateM ε σ β} {e : ε} {s' : σ} (h : m s = .error e s') :
    (m >>= f) s = .error e s' := by
  simp only [Bind.bind, EStateM.bind, h]

end Effect
