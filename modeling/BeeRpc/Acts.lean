import BeeRpc.Effect.Stays
import BeeRpc.Receive
import Mathlib.Logic.Relation

namespace BeeRpc

open Wire Effect

-- One thing that a receiver does to what it shares with others: it asks for a block that it
-- holds, or stores one that it does not hold. The rest leaves the registry and what it has
-- asked for as they are.
inductive Act (control : Bool) (w w' : World) : Prop where
  | quiet : w'.registry = w.registry → w'.asked = w.asked → Act control w w'
  | ask (id : BlockId) : control = true → w.registry.blockExists id = true → id ∉ w.asked →
      w' = { w with asked := w.asked ++ [id] } → Act control w w'
  | store (id : BlockId) (stored : Stored) : w.registry.lookup id = none →
      w' = { w with registry := w.registry.store id stored } → Act control w w'

abbrev Acts (control : Bool) : World → World → Prop := Relation.ReflTransGen (Act control)

instance (control : Bool) : IsPreorder World (Acts control) where
  refl _ := .refl
  trans _ _ _ h h' := h.trans h'

section Writers

variable {env : Enviroment} (control : Bool)

theorem acts_quiet {α : Type} {f : World → α × World}
    (hregistry : ∀ w, (f w).2.registry = w.registry) (hasked : ∀ w, (f w).2.asked = w.asked) :
    Stays (Acts control) (modifyGet f : Save α) :=
  .modifyGet fun w => .single (.quiet (hregistry w) (hasked w))

theorem after_acts (event : Event) (w : World) : Acts control w (w.after control event) := by
  cases event with
  | pull => exact .single (.quiet rfl rfl)
  | change => exact .single (.quiet rfl rfl)
  | buffer b => exact .refl
  | ask id =>
      unfold World.after World.signalBlockBufferStream
      by_cases hask : (control && w.registry.blockExists id) = true
      · obtain ⟨hcontrol, hexists⟩ := Bool.and_eq_true_iff.mp hask
        simp only [if_pos hask]
        by_cases hasked : id ∈ w.asked
        · rw [if_pos hasked]
        · rw [if_neg hasked]
          exact .single (.ask id hcontrol hexists hasked rfl)
      · simp only [if_neg hask]
        exact .refl

theorem perform_acts (event : Event) : Stays (Acts control) (event.perform control) :=
  .modifyGet (after_acts control event)

theorem drain_acts (id : BlockId) (raised : Option Err) (items : List Event) :
    Stays (Acts control) (drain env control id raised items) := by
  induction items with
  | nil =>
      cases raised with
      | some e => exact .throw e
      | none => exact .pure _
  | cons event rest ih =>
      cases event with
      | buffer b =>
          unfold drain
          split
          · exact .pure _
          · exact ih
      | pull => exact (perform_acts control _).bind fun _ => ih
      | change => exact (perform_acts control _).bind fun _ => ih
      | ask other => exact (perform_acts control _).bind fun _ => ih

variable {saveBlock : Buffer → Reading → Save Reading}

theorem saveChunks_acts (hblock : ∀ b reading, Stays (Acts control) (saveBlock b reading))
    (json : List JsonEntry) (raised : Option Err) (items : List Event) (content : Bytes)
    (hashers : List Bytes) :
    Stays (Acts control) (saveChunks control saveBlock json raised content hashers items) := by
  induction items generalizing content hashers with
  | nil =>
      cases raised with
      | some e => exact .throw e
      | none => exact .pure _
  | cons event rest ih =>
      cases event with
      | buffer b =>
          unfold saveChunks
          split
          · exact (hblock b _).bind fun _ => .pure _
          · exact ih _ _
      | pull => exact (perform_acts control _).bind fun _ => ih _ _
      | change => exact (perform_acts control _).bind fun _ => ih _ _
      | ask other => exact (perform_acts control _).bind fun _ => ih _ _

theorem savePartsLoop_acts (hblock : ∀ b reading, Stays (Acts control) (saveBlock b reading))
    (fuel : Nat) (prev : Option Bytes) (index : Nat) (parts : List (Nat × Bytes))
    (reading : Reading) :
    Stays (Acts control) (savePartsLoop control saveBlock fuel prev index parts reading) := by
  induction fuel generalizing prev index parts reading with
  | zero => exact .throw _
  | succ fuel ih =>
      refine .bind (saveChunks_acts control hblock _ _ _ _ _) fun file => ?_
      split
      · exact .pure _
      · exact ih _ _ _ _

theorem scratch_acts (path : Nat × Bool) :
    Stays (Acts control) (addScratch path) ∧ Stays (Acts control) (removeScratch path) :=
  ⟨acts_quiet control (fun _ => rfl) fun _ => rfl, acts_quiet control (fun _ => rfl) fun _ => rfl⟩

theorem makedirs_acts (tmp : Nat) : Stays (Acts control) (makedirs tmp) :=
  acts_quiet control (fun _ => rfl) fun _ => rfl

theorem fresh_acts : Stays (Acts control) fresh := acts_quiet control (fun _ => rfl) fun _ => rfl

theorem makeReady_acts (marker : Buffer) (tmp : Nat) (parts : List (Nat × Bytes))
    (json : List JsonEntry) : Stays (Acts control) (makeReady env marker tmp parts json) := by
  unfold makeReady
  split
  · exact (scratch_acts control _).1.bind fun _ => (scratch_acts control _).2.bind fun _ => .pure _
  · split
    · exact .pure _
    · refine .bind .get fun w => ?_
      split
      · exact .pure _
      · exact .throw _

-- It stores a block only where it has found none.
theorem publish_acts (id : BlockId) (ready : Nat × Bool) (stored : Stored) :
    Stays (Acts control) (publish id ready stored) := by
  intro w
  simp only [publish, ends_bind, ends_get]
  split
  · exact (scratch_acts control ready).2 w
  · rename_i hnew
    have hlookup : w.registry.lookup id = none :=
      Option.not_isSome_iff_eq_none.mp hnew
    let removed := { w with scratch := w.scratch.filter (· ≠ ready) }
    have hremoved : Acts control w removed := .single (.quiet rfl rfl)
    exact hremoved.tail (.store id stored hlookup rfl)

theorem saveBlockContent_acts (hblock : ∀ b reading, Stays (Acts control) (saveBlock b reading))
    (marker : Buffer) (id : BlockId) (stream : Yielded Event) (hashers : List Bytes) :
    Stays (Acts control) (saveBlockContent env control saveBlock marker id stream hashers) := by
  refine (fresh_acts control).bind fun tmp => (makedirs_acts control _).bind fun _ =>
    .tryCatch ?_ fun e => ?_
  · refine (savePartsLoop_acts control hblock _ _ _ _ _).bind fun result => ?_
    obtain ⟨parts, reading⟩ := result
    simp only [finishBlock]
    split
    · exact .throw _
    · exact (makeReady_acts control _ _ _ _).bind fun _ =>
        (publish_acts control _ _ _).bind fun _ => .pure _
  · exact (scratch_acts control _).2.bind fun _ => (scratch_acts control _).2.bind fun _ => .throw e

theorem saveChunksToBlock_acts (fuel : Nat) : ∀ marker reading,
    Stays (Acts control) (saveChunksToBlock env control fuel marker reading) := by
  induction fuel with
  | zero => exact fun _ _ => .throw _
  | succ fuel ih =>
      intro marker reading
      simp only [saveChunksToBlock]
      split
      · exact .throw _
      · refine .bind .get fun w => ?_
        split
        · refine (drain_acts control _ _ _).bind fun stream => ?_
          split
          · exact .pure _
          · refine .bind .get fun w => ?_
            split
            · exact .throw _
            · exact .pure _
        · exact (saveBlockContent_acts control ih _ _ _ _).bind fun _ => .pure _

end Writers

section Receive

variable {receiver : Receiver}

theorem messageLoop_acts (raised : Option Err) (items : List Event) (inBlock : Option BlockId)
    (allBuffer : Bytes) :
    Stays (Acts receiver.control) (receiver.messageLoop raised items inBlock allBuffer) := by
  induction items generalizing inBlock allBuffer with
  | nil =>
      cases raised with
      | some e => exact .throw e
      | none => exact .pure _
  | cons event rest ih =>
      cases event with
      | buffer b =>
          simp only [Receiver.messageLoop]
          repeat' split
          · exact ih _ _
          · exact ih _ _
          · exact ih _ _
          · exact ih _ _
          · exact .throw _
          · refine .bind .get fun w => ?_
            split
            · split
              · exact .throw _
              · exact ih _ _
            · exact ih _ _
      | pull => exact (perform_acts _ _).bind fun _ => ih _ _
      | change => exact (perform_acts _ _).bind fun _ => ih _ _
      | ask id => exact (perform_acts _ _).bind fun _ => ih _ _

theorem parseMessage_acts (field : Field) :
    Stays (Acts receiver.control) (receiver.parseMessage field) := by
  refine .bind .get fun w => (messageLoop_acts _ _ _ _).bind fun allBuffer => ?_
  split
  · exact .pure _
  · split
    · exact .pure _
    · exact .throw _

theorem saveDirParts_acts (fuel index : Nat) (parts : List (Nat × Bytes)) (json : List JsonEntry) :
    Stays (Acts receiver.control) (receiver.saveDirParts fuel index parts json) := by
  induction fuel generalizing index parts json with
  | zero => exact .throw _
  | succ fuel ih =>
      refine .bind .get fun w =>
        .bind (saveChunks_acts _ (saveChunksToBlock_acts _ _) _ _ _ _ _) fun file => ?_
      split
      · exact .pure _
      · exact ih _ _ _

theorem saveToDir_acts : Stays (Acts receiver.control) receiver.saveToDir := by
  have hcache : ∀ path, Stays (Acts receiver.control) (Receiver.addCache path) ∧
      Stays (Acts receiver.control) (Receiver.removeCache path) := fun path =>
    ⟨acts_quiet _ (fun _ => rfl) fun _ => rfl, acts_quiet _ (fun _ => rfl) fun _ => rfl⟩
  refine (fresh_acts _).bind fun dirname => (hcache dirname).1.bind fun _ => .bind .get fun w => ?_
  refine .bind (.tryCatch (saveDirParts_acts _ _ _ _)
    fun e => (hcache dirname).2.bind fun _ => .throw e) fun result => ?_
  split
  split
  · exact (fresh_acts _).bind fun filename => (hcache filename).1.bind fun _ => .pure _
  · split
    · exact .pure _
    · refine .bind .get fun w => ?_
      split
      · exact .pure _
      · exact .throw _

theorem receive_acts (b : Buffer) : Stays (Acts receiver.control) (receiver.receive b) := by
  have hiterate : ∀ field mode,
      Stays (Acts receiver.control) (receiver.iterateMessage field mode) := by
    intro field mode
    unfold Receiver.iterateMessage
    split
    · exact (parseMessage_acts field).bind fun _ => .pure _
    · exact saveToDir_acts.bind fun _ => .pure _
  simp only [Receiver.receive]
  split
  · split
    · exact .throw _
    · refine (hiterate _ _).bind fun result => ?_
      split
      · exact .pure _
      · split
        · exact .throw _
        · exact .pure _
  · refine (hiterate _ _).bind fun result => ?_
    split
    · exact .pure _
    · exact .pure _

theorem mainLoop_acts (fuel : Nat) (w : World) :
    Acts receiver.control w (receiver.mainLoop fuel w).2 := by
  induction fuel generalizing w with
  | zero => exact .refl
  | succ fuel ih =>
      simp only [Receiver.mainLoop]
      split
      · exact .refl
      · rename_i b rest hrequests
        have hone := @receive_acts receiver b w
        split
        · rename_i e w' heq
          exact hone.of_error heq
        · rename_i result w' heq
          exact (hone.of_ok heq).trans (ih w')

theorem parseFromBuffer_acts (w : World) :
    Acts receiver.control w (parseFromBuffer receiver w).2 := by
  simp only [parseFromBuffer]
  split
  · generalize (if receiver.control = true then controlReader receiver.env w.requests
      else w.requests) = requests
    have hpulled : Act receiver.control w { w with requests } := .quiet rfl rfl
    exact .head hpulled (mainLoop_acts _ { w with requests })
  · exact .refl

end Receive

section Invariants

variable {control : Bool} {w w' : World}

-- The registry keeps every entry, and the new ones are in front of them.
theorem Acts.suffix (h : Acts control w w') : w.registry <:+ w'.registry := by
  induction h with
  | refl => exact List.suffix_refl _
  | tail _ hact ih =>
      cases hact with
      | quiet hregistry _ => exact hregistry ▸ ih
      | ask id _ _ _ heq => exact heq ▸ ih
      | store id stored _ heq => exact heq ▸ ih.trans (List.suffix_cons _ _)

theorem Act.grows (h : Act control w w') : w.registry.Grows w'.registry := by
  cases h with
  | quiet hregistry _ => exact hregistry ▸ .refl _
  | ask id _ _ _ heq => exact heq ▸ .refl _
  | store id stored hnew heq =>
      intro other entry hlookup
      have hne : other ≠ id := by
        rintro rfl
        rw [hnew] at hlookup
        cases hlookup
      rw [heq]
      exact (Registry.lookup_store_ne _ _ hne).trans hlookup

theorem Acts.grows (h : Acts control w w') : w.registry.Grows w'.registry := by
  induction h with
  | refl => exact .refl _
  | tail _ hact ih => exact ih.trans hact.grows

theorem Acts.asked_prefix (h : Acts control w w') : w.asked <+: w'.asked := by
  induction h with
  | refl => exact List.prefix_refl _
  | tail _ hact ih =>
      cases hact with
      | quiet _ hasked => exact hasked ▸ ih
      | ask id _ _ _ heq => exact heq ▸ ih.trans (List.prefix_append _ _)
      | store id stored _ heq => exact heq ▸ ih

theorem Acts.asked_nodup (h : Acts control w w') (hnodup : w.asked.Nodup) : w'.asked.Nodup := by
  induction h with
  | refl => exact hnodup
  | tail _ hact ih =>
      cases hact with
      | quiet _ hasked => exact hasked ▸ ih
      | ask id _ _ hnew heq =>
          rw [heq, List.nodup_append]
          refine ⟨ih, List.nodup_singleton _, fun a ha b hb => ?_⟩
          rintro rfl
          exact hnew (List.mem_singleton.mp hb ▸ ha)
      | store id stored _ heq => exact heq ▸ ih

-- What is asked for is held when it is asked for, and from then on.
theorem Acts.asked_held (h : Acts control w w') :
    ∀ id ∈ w'.asked, id ∈ w.asked ∨ control = true ∧ w'.registry.blockExists id = true := by
  induction h with
  | refl => exact fun id hid => Or.inl hid
  | @tail before after _ hact ih =>
      intro id hid
      have hkept : before.registry.blockExists id = true → after.registry.blockExists id = true := by
        intro hexists
        obtain ⟨stored, hstored⟩ := Registry.blockExists_eq_true.mp hexists
        exact Registry.blockExists_eq_true.mpr ⟨stored, hact.grows id stored hstored⟩
      have hold : id ∈ before.asked →
          id ∈ w.asked ∨ control = true ∧ after.registry.blockExists id = true :=
        fun hbefore => (ih id hbefore).imp_right fun h => ⟨h.1, hkept h.2⟩
      cases hact with
      | quiet _ hasked => exact hold (hasked ▸ hid)
      | ask other hcontrol hexists _ heq =>
          rw [heq] at hid
          rcases List.mem_append.mp hid with hid | hid
          · exact hold hid
          · rw [List.mem_singleton.mp hid]
            refine Or.inr ⟨hcontrol, ?_⟩
            rw [heq]
            exact hexists
      | store other stored _ heq =>
          rw [heq] at hid
          exact hold hid

end Invariants

-- Skip requests are truthful: whatever a peer sends, in either mode, and whether the parse ends
-- or raises, what is newly asked for is in the registry and stays there, is asked for once,
-- behind everything that was asked for before, and nothing is without a StreamControl.
theorem parseFromBuffer_asks (receiver : Receiver) (w : World) :
    let after := (parseFromBuffer receiver w).2
    w.asked <+: after.asked ∧ (w.asked.Nodup → after.asked.Nodup) ∧
      (∀ id ∈ after.asked, id ∈ w.asked ∨
        receiver.control = true ∧ after.registry.blockExists id = true) ∧
      w.registry.Grows after.registry ∧ w.registry <:+ after.registry := by
  intro after
  have h : Acts receiver.control w after := parseFromBuffer_acts w
  exact ⟨h.asked_prefix, h.asked_nodup, h.asked_held, h.grows, h.suffix⟩

end BeeRpc
