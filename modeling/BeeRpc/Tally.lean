import BeeRpc.Effect.Stays
import BeeRpc.Traffic

namespace BeeRpc

open Wire Effect

-- How many Buffers here have their signal set.
def signals (requests : List Buffer) : Nat := requests.countP Buffer.isSignal

-- What has been performed of these events: all of them, or those up to a buffer.
def Performed (items : List Event) (w : World) (rest : List Event) (w' : World) : Prop :=
  ∃ taken, items = taken ++ rest ∧ (rest = [] ∨ ∃ front b, taken = front ++ [.buffer b]) ∧
    w'.requests = w.requests.drop (taken.count .pull) ∧
      w'.changes = w.changes + taken.count .change

-- Neither the requests nor the changes are touched.
def Untouched (w w' : World) : Prop := w'.requests = w.requests ∧ w'.changes = w.changes

instance : IsPreorder World Untouched where
  refl _ := ⟨rfl, rfl⟩
  trans _ _ _ h h' := ⟨h'.1.trans h.1, h'.2.trans h.2⟩

section Performed

variable {items rest : List Event} {w w' : World}

theorem Performed.nil : Performed [] w [] w := ⟨[], rfl, Or.inl rfl, rfl, rfl⟩

theorem Performed.buffer (b : Buffer) : Performed (.buffer b :: items) w items w :=
  ⟨[.buffer b], rfl, Or.inr ⟨[], b, rfl⟩, rfl, rfl⟩

theorem Performed.trans {mid : List Event} {w₁ : World} (h : Performed items w mid w₁)
    (h' : Performed mid w₁ rest w') : Performed items w rest w' := by
  obtain ⟨taken, rfl, -, hrequests, hchanges⟩ := h
  obtain ⟨taken', rfl, hend, hrequests', hchanges'⟩ := h'
  refine ⟨taken ++ taken', (List.append_assoc ..).symm, ?_, ?_, ?_⟩
  · rcases hend with hnil | ⟨front, b, rfl⟩
    · exact Or.inl hnil
    · exact Or.inr ⟨taken ++ front, b, (List.append_assoc ..).symm⟩
  · rw [hrequests', hrequests, List.drop_drop, List.count_append]
  · rw [hchanges', hchanges, List.count_append, Nat.add_assoc]

theorem after_counts (control : Bool) (event : Event) (w : World) :
    (w.after control event).requests = w.requests.drop ([event].count .pull) ∧
      (w.after control event).changes = w.changes + [event].count .change := by
  cases event with
  | pull => exact ⟨List.drop_one.symm, rfl⟩
  | change => exact ⟨rfl, rfl⟩
  | buffer b => exact ⟨rfl, rfl⟩
  | ask id =>
      refine ⟨after_ask_requests control w id, ?_⟩
      simp only [World.after, World.signalBlockBufferStream]
      split
      · split <;> rfl
      · rfl

theorem Performed.event {control : Bool} {event : Event}
    (h : Performed items (w.after control event) rest w') : Performed (event :: items) w rest w' := by
  obtain ⟨taken, rfl, hend, hrequests, hchanges⟩ := h
  obtain ⟨hrequests', hchanges'⟩ := after_counts control event w
  refine ⟨event :: taken, rfl, ?_, ?_, ?_⟩
  · rcases hend with hnil | ⟨front, b, rfl⟩
    · exact Or.inl hnil
    · exact Or.inr ⟨event :: front, b, rfl⟩
  · rw [hrequests, hrequests', List.drop_drop, ← List.count_append, List.singleton_append]
  · rw [hchanges, hchanges', Nat.add_assoc, ← List.count_append, List.singleton_append]

end Performed

section Writers

variable {env : Enviroment} (control : Bool) {saveBlock : Buffer → Reading → Save Reading}

end Writers

-- A change behind each Buffer that has its signal set, and no other.
inductive Tallied : List Buffer → List Event → Prop where
  | nil (requests : List Buffer) : Tallied requests []
  | arrival (b : Buffer) {rest : List Buffer} {items : List Event} : Tallied rest items →
      Tallied (b :: rest) (b.arrival ++ items)
  | buffer (b : Buffer) {requests : List Buffer} {items : List Event} : Tallied requests items →
      Tallied requests (.buffer b :: items)
  | ask (id : BlockId) {requests : List Buffer} {items : List Event} : Tallied requests items →
      Tallied requests (.ask id :: items)

section Tallied

variable {requests : List Buffer} {items : List Event}

theorem tallied_passOn (b : Buffer) (h : Tallied requests items) :
    Tallied requests ((passOn b).1 ++ items) := by
  unfold passOn
  split
  · exact .buffer b h
  · split
    · exact h
    · exact h

theorem tallied_leave (frames : Frames) (h : Tallied requests items) :
    Tallied requests ((leave frames).1 ++ items) := by
  unfold leave
  split
  · exact h
  · rename_i outermost
    have hpass := tallied_passOn outermost h
    split
    · rename_i events heq
      rw [heq] at hpass
      exact hpass
    · rename_i events heq
      rw [heq] at hpass
      exact hpass
  · exact h

theorem parserIterator_tallied (env : Enviroment) (frames : Frames) (blocks : List BlockId)
    (requests : List Buffer) : Tallied requests (parserIterator env frames blocks requests).items := by
  induction requests generalizing frames blocks with
  | nil =>
      simp only [parserIterator, Yielded.pure]
      cases frames.getLast? with
      | none => exact .nil []
      | some outermost =>
          have h := tallied_passOn outermost (.nil [])
          rw [List.append_nil] at h
          exact h
  | cons b rest ih =>
      have hstart : (.pull :: if b.isSignal = true then [.change] else []) = b.arrival := rfl
      simp only [parserIterator, hstart]
      have hnone : Tallied (b :: rest) b.arrival := by
        have h := (Tallied.nil rest).arrival b
        rwa [List.append_nil] at h
      split
      · rename_i hash _
        split
        · split
          · have hmark : ∀ {blocks' : List BlockId} {more : List Event}, Tallied rest more →
                Tallied rest ((if blocks' = [] then [] else [.buffer b]) ++ more) := by
              intro blocks' more h
              split
              · exact h
              · exact .buffer b h
            have hleave := @tallied_leave rest
            split
            · rename_i events frames' heq
              have h := hleave frames (ih frames' blocks.tail)
              rw [heq] at h
              simp only [Yielded.pure, Yielded.mk_none_andThen, List.append_assoc]
              exact (hmark h).arrival b
            · rename_i events heq
              have h := hleave frames (.nil rest)
              rw [heq, List.append_nil] at h
              simp only [Yielded.pure, List.append_assoc]
              exact (hmark h).arrival b
          · exact hnone
        · split
          · exact hnone
          · simp only [Yielded.pure, Yielded.mk_none_andThen, List.append_assoc]
            exact (Tallied.ask hash (.buffer b (ih _ _))).arrival b
      · have hpass := @tallied_passOn rest
        split
        · rename_i events heq
          have h := hpass b (ih frames blocks)
          rw [heq] at h
          simp only [Yielded.pure, Yielded.mk_none_andThen, List.append_assoc]
          exact h.arrival b
        · rename_i events heq
          split
          · rename_i more frames' heq'
            have h := hpass b (tallied_leave frames (ih frames' blocks))
            rw [heq, heq'] at h
            simp only [Yielded.pure, Yielded.mk_none_andThen, List.append_assoc]
            exact h.arrival b
          · rename_i more heq'
            have h := hpass b (tallied_leave frames (.nil rest))
            rw [heq, heq', List.append_nil] at h
            simp only [Yielded.pure, List.append_assoc]
            exact h.arrival b

theorem tally_cons {event : Event} (ih : ∀ {taken rest : List Event}, items = taken ++ rest →
      (rest = [] ∨ ∃ front b, taken = front ++ [.buffer b]) →
      taken.count .change = signals (requests.take (taken.count .pull)))
    (hpull : event ≠ .pull) (hchange : event ≠ .change) {taken rest : List Event}
    (heq : event :: items = taken ++ rest)
    (hend : rest = [] ∨ ∃ front b, taken = front ++ [.buffer b]) :
    taken.count .change = signals (requests.take (taken.count .pull)) := by
  cases taken with
  | nil => rfl
  | cons other taken =>
      obtain ⟨rfl, hitems⟩ := List.cons.inj heq
      rw [List.count_cons_of_ne hchange, List.count_cons_of_ne hpull]
      by_cases hnil : taken = []
      · rw [hnil]
        rfl
      · refine ih hitems (hend.imp_right fun ⟨front, b, hlast⟩ => ?_)
        cases front with
        | nil => exact absurd (List.cons.inj hlast).2 hnil
        | cons _ front => exact ⟨front, b, (List.cons.inj hlast).2⟩

-- Up to a buffer as many changes have been made as signals have come.
theorem Tallied.count (h : Tallied requests items) : ∀ {taken rest : List Event},
    items = taken ++ rest → (rest = [] ∨ ∃ front b, taken = front ++ [.buffer b]) →
    taken.count .change = signals (requests.take (taken.count .pull)) := by
  induction h with
  | nil requests =>
      intro taken rest heq _
      obtain rfl := (List.append_eq_nil_iff.mp heq.symm).1
      rfl
  | @arrival b rest items _ ih =>
      intro taken left heq hend
      have hcount : ∀ more : List Event, more.count .change = signals (rest.take (more.count .pull)) →
          (b.arrival ++ more).count .change =
            signals ((b :: rest).take ((b.arrival ++ more).count .pull)) := by
        intro more hmore
        rw [List.count_append, List.count_append, count_arrival, Nat.add_comm 1, List.take_succ_cons,
          signals, List.countP_cons, ← signals, ← hmore, Nat.add_comm]
        congr 1
        unfold Buffer.arrival
        by_cases hsignal : b.isSignal = true
        · rw [if_pos hsignal, if_pos hsignal]
          rfl
        · rw [if_neg hsignal, if_neg hsignal]
          rfl
      rcases List.append_eq_append_iff.mp heq with ⟨more, rfl, hitems⟩ | ⟨more, harrival, hleft⟩
      · refine hcount more ?_
        by_cases hnil : more = []
        · rw [hnil]
          rfl
        · refine ih hitems (hend.imp_right fun ⟨front, last, hlast⟩ => ?_)
          obtain ⟨front', last', rfl⟩ := (List.eq_nil_or_concat' more).resolve_left hnil
          rw [← List.append_assoc] at hlast
          exact ⟨front', last, by rw [(List.append_inj' hlast rfl).2]⟩
      · -- no buffer is among these
        have hmem : ∀ last, Event.buffer last ∉ taken := by
          intro last hlast
          have hmem : Event.buffer last ∈ b.arrival := harrival ▸ List.mem_append_left more hlast
          unfold Buffer.arrival at hmem
          split at hmem <;> simp at hmem
        rcases hend with rfl | ⟨front, last, rfl⟩
        · obtain rfl := (List.append_eq_nil_iff.mp hleft.symm).1
          rw [List.append_nil] at harrival
          have h := hcount [] rfl
          rwa [List.append_nil, harrival] at h
        · exact absurd (List.mem_append_right front (List.mem_singleton_self _)) (hmem last)
  | @buffer b requests items _ ih =>
      intro taken rest heq hend
      exact @tally_cons requests items (.buffer b) ih (by simp) (by simp) _ _ heq hend
  | @ask id requests items _ ih =>
      intro taken rest heq hend
      exact @tally_cons requests items (.ask id) ih (by simp) (by simp) _ _ heq hend

end Tallied

-- The changes made so far, with those that the requests still call for.
def World.tally (w : World) : Nat := w.changes + signals w.requests

section Receiver

variable {receiver : Receiver}

theorem Untouched.tally {w w' : World} (h : Untouched w w') : w'.tally = w.tally := by
  rw [World.tally, World.tally, h.1, h.2]

-- Whoever reads a parser_iterator makes a change for every signal that it takes.
theorem Performed.tally {env : Enviroment} {w w' : World} {rest : List Event}
    (h : Performed (parserIterator env [] [] w.requests).items w rest w') : w'.tally = w.tally := by
  obtain ⟨taken, heq, hend, hrequests, hchanges⟩ := h
  have hcount := (parserIterator_tallied env [] [] w.requests).count heq hend
  have hsplit : signals w.requests = signals (w.requests.take (taken.count .pull)) +
      signals (w.requests.drop (taken.count .pull)) := by
    rw [signals, signals, signals, ← List.countP_append, List.take_append_drop]
  rw [World.tally, World.tally, hrequests, hchanges, hcount]
  omega

-- What ends without an exception keeps the tally.
def Tallies {α : Type} (m : Save α) : Prop :=
  ∀ w, Ends m w (fun _ w' => w'.tally = w.tally) fun _ _ => True

theorem Tallies.bind {α β : Type} {m : Save α} {f : α → Save β} (hm : Tallies m)
    (hf : ∀ a, Tallies (f a)) : Tallies (m >>= f) := by
  intro w
  refine (hm w).bind fun a w' h => ?_
  exact (hf a w').mono (fun _ _ h' => h'.trans h) fun _ _ _ => trivial

theorem Tallies.pure {α : Type} (a : α) : Tallies (Pure.pure a : Save α) := fun _ => rfl

theorem Tallies.throw {α : Type} (e : Err) : Tallies (throw e : Save α) := fun _ => trivial

end Receiver

end BeeRpc
