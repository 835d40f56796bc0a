import BeeRpc.StoreInvariant

namespace BeeRpc

open Wire Effect

-- Each recursion of the receiver has fuel, and enough of it: with more, it does the same.

section

variable {env : Enviroment} (control : Bool)

-- What is read does not grow.
def Shrinks (saveBlock : Buffer → Reading → Save Reading) : Prop :=
  ∀ marker reading w, Ends (saveBlock marker reading) w
    (fun reading' _ => reading'.stream.items.length ≤ reading.stream.items.length) fun _ _ => True

def AgreeBelow (n : Nat) (saveBlock saveBlock' : Buffer → Reading → Save Reading) : Prop :=
  ∀ marker reading, reading.stream.items.length < n →
    saveBlock marker reading = saveBlock' marker reading

theorem perform_ends (event : Event) (w : World) {ok : Unit → World → Prop}
    {raised : Err → World → Prop} (h : ∀ w', ok () w') :
    Ends (event.perform control) w ok raised := h _

theorem drain_shrinks (id : BlockId) (raised : Option Err) (items : List Event) (w : World) :
    Ends (drain env control id raised items) w
      (fun stream _ => stream.items.length ≤ items.length) fun _ _ => True := by
  induction items generalizing w with
  | nil =>
      cases raised with
      | some e => exact trivial
      | none => exact Nat.le_refl _
  | cons event rest ih =>
      have hrest : ∀ w', Ends (drain env control id raised rest) w'
          (fun stream _ => stream.items.length ≤ (event :: rest).length) fun _ _ => True :=
        fun w' => (ih w').mono (fun _ _ h => Nat.le_succ_of_le h) fun _ _ _ => trivial
      have hstep : Ends (event.perform control >>= fun _ => drain env control id raised rest) w
          (fun stream _ => stream.items.length ≤ (event :: rest).length) fun _ _ => True :=
        ends_bind.mpr (perform_ends control event w hrest)
      cases event with
      | buffer b =>
          simp only [drain]
          split
          · exact Nat.le_succ _
          · exact hrest w
      | pull => exact hstep
      | change => exact hstep
      | ask other => exact hstep

theorem stopGenerator_length (stream : Yielded Event) (id : BlockId) :
    (stopGenerator env stream id).1.items.length ≤ stream.items.length ∧
      (stopGenerator env stream id).2.items.length ≤ stream.items.length := by
  have hitems : ∀ items, (stopItems env id items).1.length ≤ items.length := by
    intro items
    induction items with
    | nil => exact Nat.le_refl _
    | cons event rest ih =>
        cases event with
        | buffer b =>
            simp only [stopItems]
            split
            · simp
            · simpa using ih
        | pull => simpa [stopItems] using ih
        | change => simpa [stopItems] using ih
        | ask other => simpa [stopItems] using ih
  have h := hitems stream.items
  have hafter := (@stopItems_sub env id stream.items).2
  simp only [stopGenerator]
  split
  · rename_i items after heq
    rw [heq] at h hafter
    exact ⟨h, (hafter after rfl).length_le⟩
  · rename_i items heq
    rw [heq] at h
    exact ⟨h, Nat.zero_le _⟩

theorem saveChunksToBlock_shrinks (fuel : Nat) : Shrinks (saveChunksToBlock env control fuel) := by
  intro marker reading w
  cases fuel with
  | zero => exact trivial
  | succ fuel =>
      simp only [saveChunksToBlock]
      split
      · exact trivial
      · simp only [ends_bind, ends_get]
        split
        · refine Ends.bind (drain_shrinks control _ _ _ w) fun stream w' h => ?_
          split
          · exact h
          · simp only [ends_bind, ends_get]
            split
            · exact trivial
            · exact h
        · rename_i id positions hmarker hexists
          refine Ends.bind (?_ : Ends _ w (fun _ _ => True) fun _ _ => True) fun _ _ _ => ?_
          · simp only [Ends]
            split <;> exact trivial
          · exact (stopGenerator_length reading.stream id).2

variable {saveBlock saveBlock' : Buffer → Reading → Save Reading}

theorem saveChunks_shrinks (h : Shrinks saveBlock) (json : List JsonEntry) (raised : Option Err)
    (content : Bytes) (hashers : List Bytes) (items : List Event) (w : World) :
    Ends (saveChunks control saveBlock json raised content hashers items) w
      (fun file _ => file.ended = false → file.reading.stream.items.length < items.length)
      fun _ _ => True := by
  induction items generalizing content hashers w with
  | nil =>
      cases raised with
      | some e => exact trivial
      | none => exact fun h => absurd h (by simp)
  | cons event rest ih =>
      have hrest : ∀ content hashers w', Ends
          (saveChunks control saveBlock json raised content hashers rest) w'
          (fun file _ => file.ended = false →
            file.reading.stream.items.length < (event :: rest).length) fun _ _ => True :=
        fun content hashers w' => (ih content hashers w').mono
          (fun _ _ h he => Nat.lt_succ_of_lt (h he)) fun _ _ _ => trivial
      have hstep : Ends (event.perform control >>= fun _ =>
          saveChunks control saveBlock json raised content hashers rest) w
          (fun file _ => file.ended = false →
            file.reading.stream.items.length < (event :: rest).length) fun _ _ => True :=
        ends_bind.mpr (perform_ends control event w (hrest _ _))
      cases event with
      | buffer b =>
          simp only [saveChunks]
          split
          · exact Ends.bind (h b _ w) fun reading w' h' _ => Nat.lt_succ_of_le h'
          · exact hrest _ _ w
      | pull => exact hstep
      | change => exact hstep
      | ask other => exact hstep

theorem saveChunks_congr {n : Nat} (h : AgreeBelow n saveBlock saveBlock') (json : List JsonEntry)
    (raised : Option Err) (content : Bytes) (hashers : List Bytes) (items : List Event)
    (hn : items.length ≤ n) :
    saveChunks control saveBlock json raised content hashers items =
      saveChunks control saveBlock' json raised content hashers items := by
  induction items generalizing content hashers with
  | nil => rfl
  | cons event rest ih =>
      rw [List.length_cons] at hn
      cases event with
      | buffer b =>
          simp only [saveChunks]
          rw [h b ⟨⟨rest, raised⟩, json, hashers⟩ (Nat.lt_of_succ_le hn), ih _ _ (by omega)]
      | pull => simp only [saveChunks, ih content hashers (by omega)]
      | change => simp only [saveChunks, ih content hashers (by omega)]
      | ask other => simp only [saveChunks, ih content hashers (by omega)]

-- The parts of a block come to their end before the fuel does, whatever reads the blocks
-- in it.
theorem savePartsLoop_fuel {n : Nat} (h : AgreeBelow n saveBlock saveBlock')
    (hshrinks : Shrinks saveBlock) (fuel fuel' : Nat) (prev : Option Bytes) (index : Nat)
    (parts : List (Nat × Bytes)) (reading : Reading) (hn : reading.stream.items.length ≤ n)
    (hfuel : reading.stream.items.length < fuel) (hfuel' : reading.stream.items.length < fuel') :
    savePartsLoop control saveBlock fuel prev index parts reading =
      savePartsLoop control saveBlock' fuel' prev index parts reading := by
  induction fuel generalizing fuel' prev index parts reading with
  | zero => exact absurd hfuel (Nat.not_lt_zero _)
  | succ fuel ih =>
      obtain ⟨fuel', rfl⟩ : ∃ m, fuel' = m + 1 := ⟨fuel' - 1, by omega⟩
      funext w
      simp only [savePartsLoop]
      have hfile : saveChunksToFile control saveBlock prev
          { reading with json := reading.json ++ [.part index] } =
          saveChunksToFile control saveBlock' prev
            { reading with json := reading.json ++ [.part index] } :=
        saveChunks_congr control h _ _ _ _ _ hn
      rw [← hfile]
      refine Ends.bind_congr (saveChunks_shrinks control hshrinks _ _ _ _ _ w)
        fun file w' hshort => ?_
      split
      · rfl
      · rename_i hended
        have hlt : file.reading.stream.items.length < reading.stream.items.length :=
          hshort (Bool.eq_false_of_not_eq_true hended)
        exact congrFun (ih fuel' none (index + 1) _ file.reading (by omega) (by omega) (by omega)) w'

-- So does the recursion into the blocks of a block.
theorem saveChunksToBlock_fuel (fuel fuel' : Nat) (marker : Buffer) (reading : Reading)
    (hfuel : reading.stream.items.length < fuel) (hfuel' : reading.stream.items.length < fuel') :
    saveChunksToBlock env control fuel marker reading =
      saveChunksToBlock env control fuel' marker reading := by
  induction fuel generalizing fuel' marker reading with
  | zero => exact absurd hfuel (Nat.not_lt_zero _)
  | succ fuel ih =>
      obtain ⟨fuel', rfl⟩ : ∃ m, fuel' = m + 1 := ⟨fuel' - 1, by omega⟩
      simp only [saveChunksToBlock]
      split
      · rfl
      · rename_i id positions hmarker
        have hinside := (@stopGenerator_length env reading.stream id).1
        have hagree : AgreeBelow (stopGenerator env reading.stream id).1.items.length
            (saveChunksToBlock env control fuel) (saveChunksToBlock env control fuel') :=
          fun marker inner hlt => ih fuel' marker inner (by omega) (by omega)
        have hcontent : ∀ hashers, saveBlockContent env control
            (saveChunksToBlock env control fuel) marker id (stopGenerator env reading.stream id).1
              hashers = saveBlockContent env control (saveChunksToBlock env control fuel') marker id
                (stopGenerator env reading.stream id).1 hashers := by
          intro hashers
          simp only [saveBlockContent, writeBlock]
          rw [savePartsLoop_fuel control hagree (saveChunksToBlock_shrinks control fuel) _ _
            marker.chunk 1 [] ⟨(stopGenerator env reading.stream id).1, [], hashers ++ [[]]⟩
            (Nat.le_refl _) (Nat.lt_succ_self _) (Nat.lt_succ_self _)]
        rw [hcontent]

end

section Requests

variable {receiver : Receiver}

-- The first thing a parser_iterator does is to take a buffer.
theorem parserIterator_pull (env : Enviroment) (frames : Frames) (blocks : List BlockId)
    (b : Buffer) (rest : List Buffer) :
    ∃ items raised, parserIterator env frames blocks (b :: rest) = ⟨.pull :: items, raised⟩ := by
  have hand : ∀ (items : List Event) (y : Yielded Event), ∃ items' raised,
      (Yielded.pure (Event.pull :: items)).andThen y = ⟨.pull :: items', raised⟩ :=
    fun items y => ⟨_, _, rfl⟩
  simp only [parserIterator]
  repeat' split
  all_goals first
    | exact hand _ _
    | exact ⟨_, _, rfl⟩

theorem parserIterator_nil (env : Enviroment) : parserIterator env [] [] [] = .pure [] := rfl

-- A part that is not the last one has taken a buffer of the requests.
theorem saveFirstPart_requests (w : World) (hw : w.Sound receiver.env) (fuel : Nat)
    (prev : Option Bytes) (json : List JsonEntry) :
    Ends (saveChunksToFile receiver.control
        (saveChunksToBlock receiver.env receiver.control fuel) prev
        ⟨parserIterator receiver.env [] [] w.requests, json, []⟩) w
      (fun file w' => Keeps receiver.env w w' ∧
        (w.requests = [] → file.ended = true) ∧
        (w.requests ≠ [] → w'.requests.length < w.requests.length))
      fun _ w' => Keeps receiver.env w w' ∧
        (w.requests ≠ [] → w'.requests.length < w.requests.length) := by
  cases hr : w.requests with
  | nil =>
      rw [parserIterator_nil]
      exact ⟨.refl hw.addressed, fun _ => rfl, fun h => absurd rfl h⟩
  | cons b rest =>
      obtain ⟨items, raised, hstream⟩ := parserIterator_pull receiver.env [] [] b rest
      rw [hstream]
      have hsound : World.Sound receiver.env { w with requests := w.requests.tail } :=
        ⟨hw.addressed, hw.fresh⟩
      have hkeeps : Keeps receiver.env w { w with requests := w.requests.tail } :=
        ⟨.refl _, hw.addressed, rfl, Nat.le_refl _, List.tail_suffix _⟩
      have hlen : ∀ w', Keeps receiver.env { w with requests := w.requests.tail } w' →
          w'.requests.length < (b :: rest).length := by
        intro w' h
        have := h.requests.length_le
        simp only [hr, List.tail_cons] at this
        simp only [List.length_cons]
        omega
      refine (saveChunks_spec receiver.control (saveChunksToBlock_spec receiver.control _) _ _ []
        (prev.getD []) items _ hsound).mono (fun file w' h => ?_) fun e w' h => ?_
      · exact ⟨hkeeps.trans h.keeps, fun h => absurd h (by simp), fun _ => hlen w' h.keeps⟩
      · exact ⟨hkeeps.trans h, fun _ => hlen w' h⟩

theorem saveDirParts_fuel (fuel fuel' index : Nat) (parts : List (Nat × Bytes))
    (json : List JsonEntry) (w : World) (hw : w.Sound receiver.env)
    (hfuel : w.requests.length < fuel) (hfuel' : w.requests.length < fuel') :
    receiver.saveDirParts fuel index parts json w =
      receiver.saveDirParts fuel' index parts json w := by
  induction fuel generalizing fuel' index parts json w with
  | zero => exact absurd hfuel (Nat.not_lt_zero _)
  | succ fuel ih =>
      obtain ⟨fuel', rfl⟩ : ∃ m, fuel' = m + 1 := ⟨fuel' - 1, by omega⟩
      simp only [Receiver.saveDirParts]
      rw [bind_of_ok (m := get) rfl, bind_of_ok (m := get) rfl]
      refine Ends.bind_congr (saveFirstPart_requests w hw _ none (json ++ [.part index]))
        fun file w' h => ?_
      obtain ⟨hkeeps, hlast, hless⟩ := h
      split
      · rfl
      · rename_i hended
        have hne : w.requests ≠ [] := fun h => hended (hlast h)
        have := hless hne
        exact ih fuel' (index + 1) _ _ w' (hw.keeps hkeeps) (by omega) (by omega)

-- A part has been read, be it the last, or something was raised behind its first buffer.
theorem saveDirParts_requests (fuel index : Nat) (parts : List (Nat × Bytes))
    (json : List JsonEntry) (w : World) (hw : w.Sound receiver.env) (hne : w.requests ≠ []) :
    Ends (receiver.saveDirParts (fuel + 1) index parts json) w
      (fun _ w' => w'.requests.length < w.requests.length)
      fun _ w' => w'.requests.length < w.requests.length := by
  simp only [Receiver.saveDirParts, ends_bind, ends_get]
  refine Ends.mono (saveFirstPart_requests w hw _ none (json ++ [.part index])) (fun file w' h => ?_)
    fun _ w' h => h.2 hne
  obtain ⟨hkeeps, -, hless⟩ := h
  split
  · exact hless hne
  · have hless := hless hne
    refine (saveDirParts_maintains fuel (index + 1) _ file.reading.json w'
      (hw.keeps hkeeps)).mono (fun _ w'' h => ?_) fun _ w'' h => ?_
    · exact h.requests.length_le.trans_lt hless
    · exact h.requests.length_le.trans_lt hless

theorem saveToDir_requests (w : World) (hw : w.Sound receiver.env) (hne : w.requests ≠ []) :
    Ends receiver.saveToDir w (fun _ w' => w'.requests.length < w.requests.length)
      fun _ w' => w'.requests.length < w.requests.length := by
  have hsound : World.Sound receiver.env
      { w with next := w.next + 1, cache := w.next :: w.cache } :=
    ⟨hw.addressed, fun path hp => (hw.fresh path hp).trans (Nat.lt_succ_self _)⟩
  simp only [Receiver.saveToDir, fresh, Receiver.addCache, Receiver.removeCache, ends_bind,
    ends_modifyGet, ends_modify, ends_get, ends_tryCatch, ends_throw]
  refine (saveDirParts_requests w.requests.length 1 [] [] _ hsound hne).mono
    (fun result w' h => ?_) fun _ w' h => h
  split
  · exact h
  · split
    · exact h
    · simp only [ends_bind, ends_get]
      split
      · exact h
      · exact h

theorem parseMessage_requests (field : Field) (w : World) (hw : w.Sound receiver.env)
    (hne : w.requests ≠ []) :
    Ends (receiver.parseMessage field) w (fun _ w' => w'.requests.length < w.requests.length)
      fun _ w' => w'.requests.length < w.requests.length := by
  obtain ⟨b, rest, hr⟩ := List.exists_cons_of_ne_nil hne
  obtain ⟨items, raised, hstream⟩ := parserIterator_pull receiver.env [] [] b rest
  have hsound : World.Sound receiver.env { w with requests := rest } := ⟨hw.addressed, hw.fresh⟩
  have hpull : (w.requests.tail) = rest := by rw [hr, List.tail_cons]
  simp only [Receiver.parseMessage, ends_bind, ends_get, hr, hstream, Receiver.messageLoop,
    Event.perform, ends_modify, World.after, List.tail_cons]
  have hlen : ∀ w' : World, w'.requests <:+ rest → w'.requests.length < (b :: rest).length :=
    fun w' h => Nat.lt_succ_of_le h.length_le
  refine (@messageLoop_maintains receiver raised items none [] _ hsound).mono
    (fun allBuffer w' h => ?_) fun _ w' h => hlen w' h.requests
  split
  · exact hlen w' h.requests
  · split
    · exact hlen w' h.requests
    · exact hlen w' h.requests

theorem receive_requests (b : Buffer) (w : World) (hw : w.Sound receiver.env)
    (hne : w.requests ≠ []) :
    Ends (receiver.receive b) w (fun _ w' => w'.requests.length < w.requests.length)
      fun _ _ => True := by
  have hone : ∀ field mode, Ends (receiver.iterateMessage field mode) w
      (fun _ w' => w'.requests.length < w.requests.length) fun _ _ => True := by
    intro field mode
    rw [Receiver.iterateMessage]
    split
    · simp only [ends_bind]
      exact (parseMessage_requests field w hw hne).mono (fun _ _ h => h) fun _ _ _ => trivial
    · simp only [ends_bind]
      exact (saveToDir_requests w hw hne).mono (fun _ _ h => h) fun _ _ _ => trivial
  simp only [Receiver.receive]
  split
  · split
    · exact trivial
    · refine (hone _ _).bind fun result w' h => ?_
      split
      · exact h
      · split
        · exact trivial
        · exact h
  · refine (hone _ _).bind fun result w' h => ?_
    split
    · exact h
    · exact h

-- The loop comes to the end of its requests before its fuel.
theorem mainLoop_fuel (fuel fuel' : Nat) (w : World) (hw : w.Sound receiver.env)
    (hfuel : w.requests.length < fuel) (hfuel' : w.requests.length < fuel') :
    receiver.mainLoop fuel w = receiver.mainLoop fuel' w := by
  induction fuel generalizing fuel' w with
  | zero => exact absurd hfuel (Nat.not_lt_zero _)
  | succ fuel ih =>
      obtain ⟨fuel', rfl⟩ : ∃ m, fuel' = m + 1 := ⟨fuel' - 1, by omega⟩
      simp only [Receiver.mainLoop]
      split
      · rfl
      · rename_i b rest hr
        have hne : w.requests ≠ [] := by simp [hr]
        split
        · rfl
        · rename_i result w' heq
          have hless : w'.requests.length < w.requests.length :=
            (receive_requests b w hw hne).of_ok heq
          have hkeeps := (@receive_maintains receiver b w hw).of_ok heq
          rw [ih fuel' w' (hw.keeps hkeeps) (by omega) (by omega)]

end Requests

end BeeRpc
