import BeeRpc.Receive

namespace BeeRpc

open Wire Effect

-- No scratch path has a number that is still to be given out.
def World.Fresh (w : World) : Prop := ∀ path ∈ w.scratch, path.1 < w.next

-- What a writer may do to the registry and beside it, whichever way it ends.
structure Keeps (env : Enviroment) (w w' : World) : Prop where
  grows : w.registry.Grows w'.registry
  addressed : w'.registry.ContentAddressed env
  scratch : w'.scratch = w.scratch
  next : w.next ≤ w'.next
  requests : w'.requests <:+ w.requests

-- No buffer here has a marker of the block.
def Avoids (env : Enviroment) (id : BlockId) (items : List Event) : Prop :=
  ∀ b, Event.buffer b ∈ items → b.blockHash env ≠ some id

section

variable {env : Enviroment}

theorem Keeps.refl {w : World} (h : w.registry.ContentAddressed env) : Keeps env w w :=
  ⟨.refl _, h, rfl, Nat.le_refl _, List.suffix_refl _⟩

theorem Keeps.trans {a b c : World} (h : Keeps env a b) (h' : Keeps env b c) : Keeps env a c :=
  ⟨h.grows.trans h'.grows, h'.addressed, h'.scratch.trans h.scratch, h.next.trans h'.next,
    h'.requests.trans h.requests⟩

theorem Keeps.fresh {w w' : World} (h : Keeps env w w') (hw : w.Fresh) : w'.Fresh := by
  intro path hp
  rw [h.scratch] at hp
  exact (hw path hp).trans_le h.next

theorem Avoids.tail {id : BlockId} {event : Event} {items : List Event}
    (h : Avoids env id (event :: items)) : Avoids env id items :=
  fun b hb => h b (List.mem_cons_of_mem _ hb)

theorem avoids_nil (id : BlockId) : Avoids env id [] := fun _ hb => absurd hb List.not_mem_nil

theorem clearBlock_blockHash (b : Buffer) : b.clearBlock.blockHash env = none := rfl

-- stop_generator lets no marker of its block through, and adds none of any other.
theorem stopItems_avoids (id : BlockId) (items : List Event) :
    Avoids env id (stopItems env id items).1 := by
  induction items with
  | nil => exact avoids_nil id
  | cons event rest ih =>
      cases event with
      | buffer b =>
          simp only [stopItems]
          split
          · intro c hc
            obtain rfl := Event.buffer.inj (List.mem_singleton.mp hc)
            simp [clearBlock_blockHash]
          · rename_i hb
            intro c hc
            rcases List.mem_cons.mp hc with hc | hc
            · obtain rfl := Event.buffer.inj hc
              exact hb
            · exact ih c hc
      | pull =>
          intro c hc
          exact ih c ((List.mem_cons.mp hc).resolve_left (by simp))
      | change =>
          intro c hc
          exact ih c ((List.mem_cons.mp hc).resolve_left (by simp))
      | ask other =>
          intro c hc
          exact ih c ((List.mem_cons.mp hc).resolve_left (by simp))

theorem stopItems_sub (id : BlockId) (items : List Event) :
    (∀ b, Event.buffer b ∈ (stopItems env id items).1 →
        Event.buffer b ∈ items ∨ b.blockHash env = none) ∧
      ∀ after ∈ (stopItems env id items).2, after.Sublist items := by
  induction items with
  | nil => simp [stopItems]
  | cons event rest ih =>
      have hother : (∀ b, Event.buffer b ∈ (event :: (stopItems env id rest).1) →
          Event.buffer b ∈ event :: rest ∨ b.blockHash env = none) ∧
          ∀ after ∈ (stopItems env id rest).2, after.Sublist (event :: rest) := by
        refine ⟨fun b hb => ?_, fun after ha => (ih.2 after ha).cons _⟩
        rcases List.mem_cons.mp hb with hb | hb
        · exact Or.inl (hb ▸ List.mem_cons_self ..)
        · exact (ih.1 b hb).imp_left (List.mem_cons_of_mem _)
      cases event with
      | buffer b =>
          simp only [stopItems]
          split
          · refine ⟨fun c hc => ?_, fun after ha => ?_⟩
            · obtain rfl := Event.buffer.inj (List.mem_singleton.mp hc)
              exact Or.inr (clearBlock_blockHash b)
            · rw [Option.mem_some_iff] at ha
              exact ha ▸ List.sublist_cons_self ..
          · exact hother
      | pull => exact hother
      | change => exact hother
      | ask other => exact hother

theorem Avoids.stopGenerator {id other : BlockId} {stream : Yielded Event}
    (h : Avoids env other stream.items) :
    Avoids env other (stopGenerator env stream id).1.items ∧
      Avoids env other (stopGenerator env stream id).2.items := by
  obtain ⟨hin, hafter⟩ := @stopItems_sub env id stream.items
  have hinside : Avoids env other (stopItems env id stream.items).1 := by
    intro b hb
    rcases hin b hb with hb | hb
    · exact h b hb
    · simp [hb]
  simp only [BeeRpc.stopGenerator]
  split
  · rename_i items after heq
    rw [heq] at hinside hafter
    exact ⟨hinside, fun b hb => h b ((hafter after rfl).subset hb)⟩
  · rename_i items heq
    rw [heq] at hinside
    exact ⟨hinside, avoids_nil other⟩

theorem stopGenerator_avoids (id : BlockId) (stream : Yielded Event) :
    Avoids env id (stopGenerator env stream id).1.items := by
  have h := @stopItems_avoids env id stream.items
  simp only [stopGenerator]
  split
  · rename_i heq; rw [heq] at h; exact h
  · rename_i heq; rw [heq] at h; exact h

-- A marker that save_chunks_to_block takes for a block is one that the stream would end
-- that block at.
theorem blockHash_of_pointer {marker : Buffer} {id : BlockId} {positions : List Nat}
    (h : (marker.block.bind fun block => (truthy (blockIdFromPointer env block)).map fun id =>
      (id, block.previousLengthsPosition)) = some (id, positions)) :
    marker.blockHash env = some id := by
  obtain ⟨block, hb, h⟩ := Option.bind_eq_some_iff.mp h
  obtain ⟨found, hf, heq⟩ := Option.map_eq_some_iff.mp h
  obtain rfl := (Prod.mk.inj heq).1
  rw [Buffer.blockHash, hb, Option.bind_some]
  exact getHashFromBlock_of_pointer env block found (truthy_eq_some.mp hf).1

theorem feed_feed (left right : Bytes) (hashers : List Bytes) :
    feed right (feed left hashers) = feed (left ++ right) hashers := by
  simp [feed]

theorem feed_nil (hashers : List Bytes) : feed [] hashers = hashers := by
  simp [feed]

theorem feed_append (piece : Bytes) (left right : List Bytes) :
    feed piece (left ++ right) = feed piece left ++ feed piece right := List.map_append

end

-- What a writer may count on.
structure World.Sound (env : Enviroment) (w : World) : Prop where
  addressed : w.registry.ContentAddressed env
  fresh : w.Fresh

-- What is not named by the events that were read is as it was, and not named by those
-- that are left.
def Frame (env : Enviroment) (items items' : List Event) (w w' : World) : Prop :=
  ∀ id, Avoids env id items →
    w'.registry.lookup id = w.registry.lookup id ∧ Avoids env id items'

-- A block is in the registry: its entry in the `_.json` of the one around it, and its
-- expansion with the hashers of the ones around it.
structure BlockSaved (env : Enviroment) (marker : Buffer) (reading reading' : Reading)
    (w w' : World) : Prop where
  keeps : Keeps env w w'
  frame : Frame env (.buffer marker :: reading.stream.items) reading'.stream.items w w'
  entry : reading.json ≠ [] → ∃ id positions content,
    reading'.json = reading.json ++ [.block id positions] ∧
      w'.registry.expansion id = some content ∧ reading'.hashers = feed content reading.hashers

def SavesBlocks (env : Enviroment) (saveBlock : Buffer → Reading → Save Reading) : Prop :=
  ∀ marker reading w, w.Sound env → Ends (saveBlock marker reading) w
    (fun reading' w' => BlockSaved env marker reading reading' w w') fun _ w' => Keeps env w w'

-- A part, and the block behind it if there is one.
structure FileSaved (env : Enviroment) (json : List JsonEntry) (hashers : List Bytes)
    (items : List Event) (w w' : World) (file : SavedFile) : Prop where
  keeps : Keeps env w w'
  frame : Frame env items file.reading.stream.items w w'
  entries : json ≠ [] →
    (file.ended = true ∧ file.reading.json = json ∧
        file.reading.hashers = feed file.content hashers) ∨
      file.ended = false ∧ ∃ id positions inner,
        file.reading.json = json ++ [.block id positions] ∧
          w'.registry.expansion id = some inner ∧
          file.reading.hashers = feed (file.content ++ inner) hashers

section Specs

variable {env : Enviroment} (control : Bool)

theorem World.Sound.keeps {w w' : World} (hw : w.Sound env) (h : Keeps env w w') :
    w'.Sound env :=
  ⟨h.addressed, h.fresh hw.fresh⟩

theorem Frame.trans {a b c : List Event} {w w' w'' : World} (h : Frame env a b w w')
    (h' : Frame env b c w' w'') : Frame env a c w w'' := by
  intro id hid
  obtain ⟨hl, hb⟩ := h id hid
  obtain ⟨hl', hc⟩ := h' id hb
  exact ⟨hl'.trans hl, hc⟩

theorem Frame.cons {event : Event} {items items' : List Event} {w w' : World}
    (h : Frame env items items' w w') : Frame env (event :: items) items' w w' :=
  fun id hid => h id hid.tail

@[simp] theorem after_registry (w : World) (event : Event) :
    (w.after control event).registry = w.registry := by
  cases event with
  | ask id =>
      simp only [World.after, World.signalBlockBufferStream]
      repeat' split
      all_goals rfl
  | pull => rfl
  | change => rfl
  | buffer b => rfl

-- Waiting for a buffer does nothing to the registry.
theorem after_keeps (event : Event) (w : World) (hw : w.Sound env) :
    Keeps env w (w.after control event) := by
  have hrest : (w.after control event).scratch = w.scratch ∧
      w.next ≤ (w.after control event).next ∧ (w.after control event).requests <:+ w.requests := by
    cases event with
    | ask id =>
        simp only [World.after, World.signalBlockBufferStream]
        repeat' split
        all_goals exact ⟨rfl, Nat.le_refl _, List.suffix_refl _⟩
    | pull => exact ⟨rfl, Nat.le_refl _, List.tail_suffix _⟩
    | change => exact ⟨rfl, Nat.le_refl _, List.suffix_refl _⟩
    | buffer b => exact ⟨rfl, Nat.le_refl _, List.suffix_refl _⟩
  exact ⟨by rw [after_registry]; exact .refl _, by rw [after_registry]; exact hw.addressed,
    hrest.1, hrest.2.1, hrest.2.2⟩

theorem perform_keeps (event : Event) (w : World) (hw : w.Sound env) :
    Ends (event.perform control) w
      (fun _ w' => Keeps env w w' ∧ w'.registry = w.registry) fun _ _ => False :=
  ⟨after_keeps control event w hw, after_registry control w event⟩

theorem drain_keeps (id : BlockId) (raised : Option Err) (items : List Event) (w : World)
    (hw : w.Sound env) :
    Ends (drain env control id raised items) w
      (fun stream w' => Keeps env w w' ∧ w'.registry = w.registry ∧ stream.items.Sublist items)
      fun _ w' => Keeps env w w' := by
  induction items generalizing w with
  | nil =>
      cases raised with
      | some e => exact .refl hw.addressed
      | none => exact ⟨.refl hw.addressed, rfl, .refl _⟩
  | cons event rest ih =>
      have hstep : Ends (event.perform control >>= fun _ => drain env control id raised rest) w
          (fun stream w' => Keeps env w w' ∧ w'.registry = w.registry ∧
            stream.items.Sublist (event :: rest)) fun _ w' => Keeps env w w' := by
        refine Ends.bind ((perform_keeps control event w hw).mono (fun _ _ h => h)
          fun _ _ h => h.elim) fun _ w' h => ?_
        refine (ih w' (hw.keeps h.1)).mono (fun stream w'' h' => ?_) fun _ w'' h' => h.1.trans h'
        exact ⟨h.1.trans h'.1, h'.2.1.trans h.2, h'.2.2.cons _⟩
      cases event with
      | buffer b =>
          simp only [drain]
          split
          · exact ⟨.refl hw.addressed, rfl, List.sublist_cons_self ..⟩
          · refine (ih w hw).mono (fun stream w' h => ?_) fun _ _ h => h
            exact ⟨h.1, h.2.1, h.2.2.cons _⟩
      | pull => exact hstep
      | change => exact hstep
      | ask other => exact hstep

variable {saveBlock : Buffer → Reading → Save Reading}

theorem saveChunks_spec (hblock : SavesBlocks env saveBlock) (json : List JsonEntry)
    (raised : Option Err) (hashers : List Bytes) (content : Bytes) (items : List Event)
    (w : World) (hw : w.Sound env) :
    Ends (saveChunks control saveBlock json raised content (feed content hashers) items) w
      (fun file w' => FileSaved env json hashers items w w' file) fun _ w' => Keeps env w w' := by
  induction items generalizing w content with
  | nil =>
      cases raised with
      | some e => exact .refl hw.addressed
      | none => exact ⟨.refl hw.addressed, fun _ h => ⟨rfl, h⟩, fun _ => Or.inl ⟨rfl, rfl, rfl⟩⟩
  | cons event rest ih =>
      have hstep : Ends (event.perform control >>= fun _ =>
          saveChunks control saveBlock json raised content (feed content hashers) rest) w
          (fun file w' => FileSaved env json hashers (event :: rest) w w' file)
          fun _ w' => Keeps env w w' := by
        refine Ends.bind ((perform_keeps control event w hw).mono (fun _ _ h => h)
          fun _ _ h => h.elim) fun _ w' h => ?_
        refine (ih content w' (hw.keeps h.1)).mono (fun file w'' h' => ?_)
          fun _ w'' h' => h.1.trans h'
        have hframe : Frame env rest file.reading.stream.items w w'' := fun id hid =>
          ⟨(h'.frame id hid).1.trans (by rw [h.2]), (h'.frame id hid).2⟩
        exact ⟨h.1.trans h'.keeps, hframe.cons, h'.entries⟩
      cases event with
      | buffer b =>
          simp only [saveChunks]
          split
          · refine Ends.bind (hblock b _ w hw) fun reading w' h => ?_
            refine ⟨h.keeps, h.frame, fun hjson => Or.inr ⟨rfl, ?_⟩⟩
            obtain ⟨id, positions, inner, hj, he, hh⟩ := h.entry hjson
            exact ⟨id, positions, inner, hj, he, hh.trans (feed_feed _ _ _)⟩
          · rw [feed_feed]
            refine (ih (content ++ b.content) w hw).mono (fun file w' h => ?_) fun _ _ h => h
            exact ⟨h.keeps, h.frame.cons, h.entries⟩
      | pull => exact hstep
      | change => exact hstep
      | ask other => exact hstep

theorem saveChunksToFile_spec (hblock : SavesBlocks env saveBlock) (prev : Option Bytes)
    (reading : Reading) (w : World) (hw : w.Sound env) :
    Ends (saveChunksToFile control saveBlock prev reading) w
      (fun file w' => FileSaved env reading.json reading.hashers reading.stream.items w w' file)
      fun _ w' => Keeps env w w' :=
  saveChunks_spec control hblock _ _ _ _ _ w hw

-- A directory's parts and blocks as they were read, in the order of its `_.json`: what
-- they expand to is what the hashers were fed.
structure PartsSaved (env : Enviroment) (index : Nat) (reading reading' : Reading)
    (more : List (Nat × Bytes)) (w w' : World) : Prop where
  keeps : Keeps env w w'
  frame : Frame env reading.stream.items reading'.stream.items w w'
  numbers : more.map Prod.fst = List.range' index more.length
  entries : ∃ entries content, reading'.json = reading.json ++ entries ∧
    reading'.hashers = feed content reading.hashers ∧
    (∀ directory : Directory, (∀ part ∈ more, directory.part part.1 = some part.2) →
      directory.expandEntries w'.registry.expansion entries = some content) ∧
    (entries.length < 2 → more = [(index, content)])

theorem savePartsLoop_spec (hblock : SavesBlocks env saveBlock) (fuel : Nat) :
    ∀ (prev : Option Bytes) (index : Nat) (parts : List (Nat × Bytes)) (reading : Reading)
      (w : World), w.Sound env →
    Ends (savePartsLoop control saveBlock fuel prev index parts reading) w
      (fun result w' => ∃ more, result.1 = parts ++ more ∧
        PartsSaved env index reading result.2 more w w') fun _ w' => Keeps env w w' := by
  induction fuel with
  | zero => intro prev index parts reading w hw; exact .refl hw.addressed
  | succ fuel ih =>
      intro prev index parts reading w hw
      simp only [savePartsLoop]
      refine Ends.bind (saveChunksToFile_spec control hblock prev _ w hw) fun file w' h => ?_
      have hjson : reading.json ++ [JsonEntry.part index] ≠ [] := by simp
      rcases h.entries hjson with ⟨hended, hj, hh⟩ | ⟨hended, id, positions, inner, hj, he, hh⟩
      · simp only [hended, if_true, ends_pure]
        refine ⟨[(index, file.content)], rfl, h.keeps, h.frame, rfl, [.part index], file.content,
          hj, hh, fun directory hd => ?_, fun _ => rfl⟩
        have := hd (index, file.content) (List.mem_cons_self ..)
        simp [Directory.expandEntries, this]
      · simp only [hended, Bool.false_eq_true, if_false]
        refine (ih none (index + 1) _ file.reading w' (hw.keeps h.keeps)).mono
          (fun result w'' h' => ?_) fun _ w'' h' => h.keeps.trans h'
        obtain ⟨more, hparts, hsaved⟩ := h'
        obtain ⟨entries, content, hj', hh', hexpand, -⟩ := hsaved.entries
        refine ⟨(index, file.content) :: more, by rw [hparts, List.append_assoc]; rfl,
          h.keeps.trans hsaved.keeps, h.frame.trans hsaved.frame, ?_,
          .part index :: .block id positions :: entries, file.content ++ inner ++ content, ?_, ?_,
          fun directory hd => ?_, fun hlen => by
            simp only [List.length_cons] at hlen
            omega⟩
        · simp [hsaved.numbers, List.range'_succ]
        · simp only [hj', hj, List.append_assoc, List.cons_append, List.nil_append]
        · rw [hh', hh, feed_feed]
        · have hpart := hd (index, file.content) (List.mem_cons_self ..)
          have hrest := hexpand directory fun part hp => hd part (List.mem_cons_of_mem _ hp)
          refine Directory.expandEntries_part_eq_some.mpr ⟨_, _, hpart, ?_, List.append_assoc ..⟩
          exact Directory.expandEntries_block_eq_some.mpr
            ⟨inner, content, hsaved.keeps.grows.expansion he, hrest, rfl⟩

theorem filter_scratch {rest : List (Nat × Bool)} {tmp : Nat} (h : ∀ path ∈ rest, path.1 < tmp)
    (beside : Bool) : rest.filter (· ≠ (tmp, beside)) = rest := by
  refine List.filter_eq_self.mpr fun path hp => ?_
  have : path ≠ (tmp, beside) := by
    rintro rfl
    exact Nat.lt_irrefl _ (h _ hp)
  simpa using this

-- The one scratch path of a block is then what is to be renamed.
theorem makeReady_spec (marker : Buffer) (tmp : Nat) (parts : List (Nat × Bytes))
    (json : List JsonEntry) (w : World) (rest : List (Nat × Bool))
    (hscratch : w.scratch = (tmp, false) :: rest) (hrest : ∀ path ∈ rest, path.1 < tmp) :
    Ends (makeReady env marker tmp parts json) w
      (fun made w' => w' = { w with scratch := made.1 :: rest } ∧ made.1.1 = tmp ∧
        if json.length < 2 then made.2 = .file ((parts.lookup 1).getD [])
        else ∃ wbp, made.2 = .dir { parts, json, wbp }) fun _ w' => w' = w := by
  simp only [makeReady]
  split
  · have hfilter : ((tmp, true) :: (tmp, false) :: rest).filter (· ≠ (tmp, false)) =
        (tmp, true) :: rest := by
      rw [List.filter_cons_of_pos (by simp), List.filter_cons_of_neg (by simp),
        filter_scratch hrest]
    simp only [ends_bind, addScratch, removeScratch, ends_modify, ends_pure, hscratch, hfilter,
      and_self]
  · split
    · exact ⟨by rw [← hscratch], rfl, none, rfl⟩
    · simp only [ends_bind, ends_get]
      split
      · rename_i directory hgen
        obtain ⟨wbp, -, heq⟩ := bind_eq_ok.mp hgen
        refine ⟨by rw [← hscratch], rfl, some wbp, ?_⟩
        rw [← Except.ok.inj heq]
      · exact rfl

theorem publish_spec (id : BlockId) (ready : Nat × Bool) (stored : Stored) (w : World)
    (rest : List (Nat × Bool)) (hscratch : w.scratch = ready :: rest)
    (hrest : ∀ path ∈ rest, path.1 < ready.1) (hnew : w.registry.lookup id = none) :
    Ends (publish id ready stored) w
      (fun _ w' => w' = { w with scratch := rest, registry := w.registry.store id stored })
      fun _ _ => False := by
  have hf : w.registry.blockExists id = false := Registry.blockExists_eq_false.mpr hnew
  simp only [publish, ends_bind, ends_get, hf, Bool.false_eq_true, if_false, removeScratch,
    ends_modify, hscratch]
  rw [List.filter_cons_of_neg (by simp), filter_scratch hrest]

-- A block whose content hashes to its name is stored under it.
theorem writeBlock_spec (hblock : SavesBlocks env saveBlock) (marker : Buffer)
    (id : BlockId) (tmp : Nat) (stream : Yielded Event) (hashers : List Bytes) (w : World)
    (hw : w.Sound env) (hnew : w.registry.lookup id = none) (havoid : Avoids env id stream.items)
    (rest : List (Nat × Bool)) (hscratch : w.scratch = (tmp, false) :: rest)
    (hrest : ∀ path ∈ rest, path.1 < tmp) :
    Ends (writeBlock env control saveBlock marker id tmp stream hashers) w
      (fun hashers' w' => w'.scratch = rest ∧ w.next ≤ w'.next ∧ w'.requests <:+ w.requests ∧
        w.registry.Grows w'.registry ∧ w'.registry.ContentAddressed env ∧
        (∀ other, other ≠ id → Avoids env other stream.items →
          w'.registry.lookup other = w.registry.lookup other) ∧
        ∃ content, w'.registry.expansion id = some content ∧ hashers' = feed content hashers)
      fun _ w' => Keeps env w w' := by
  refine Ends.bind (savePartsLoop_spec control hblock _ marker.chunk 1 []
    ⟨stream, [], hashers ++ [[]]⟩ w hw) fun result w' h => ?_
  obtain ⟨more, hparts, hsaved⟩ := h
  obtain ⟨parts, reading⟩ := result
  obtain rfl : parts = more := hparts
  obtain ⟨entries, content, hjson, hfed, hexpand, hsingle⟩ := hsaved.entries
  obtain rfl : reading.json = entries := hjson
  replace hfed : reading.hashers = feed content hashers ++ [content] :=
    hfed.trans (feed_append _ _ _)
  have hlast : reading.hashers.getLast? = some content := by simp [hfed, feed]
  have houter : reading.hashers.dropLast = feed content hashers := by simp [hfed, feed]
  have hnodup : (parts.map Prod.fst).Nodup := by
    rw [hsaved.numbers]
    exact List.nodup_range' ..
  have habsent : w'.registry.lookup id = none := by rw [(hsaved.frame id havoid).1, hnew]
  simp only [finishBlock, hlast, Option.getD_some]
  split
  · exact hsaved.keeps
  · rename_i hdigest
    rw [ne_eq, not_not] at hdigest
    refine Ends.bind ((makeReady_spec marker tmp parts reading.json w' rest
      (hsaved.keeps.scratch.trans hscratch) hrest).mono (fun _ _ h => h)
      fun _ w'' h => h ▸ hsaved.keeps) fun made w'' hmade => ?_
    obtain ⟨rfl, htmp, hstored⟩ := hmade
    refine Ends.bind ((publish_spec id made.1 made.2 { w' with scratch := made.1 :: rest } rest rfl
      (by rw [htmp]; exact hrest) habsent).mono (fun _ _ h => h) fun _ _ h => h.elim)
      fun _ w'' hw'' => ?_
    subst hw''
    have hgrows : w'.registry.Grows (w'.registry.store id made.2) := .store made.2 habsent
    have hcontent : (w'.registry.store id made.2).expansion id = some content := by
      split at hstored
      · rename_i hlen
        refine Registry.expansion_file ?_
        rw [Registry.lookup_store_self, hstored, hsingle hlen]
        rfl
      · obtain ⟨wbp, hdir⟩ := hstored
        rw [@Registry.expansion_dir _ _ ⟨parts, reading.json, wbp⟩
          (by rw [Registry.lookup_store_self, hdir])]
        exact Directory.expandEntries_mono _ (fun _ _ hc => hgrows.expansion hc) _ content
          (hexpand ⟨parts, reading.json, wbp⟩ fun part hp =>
            Naming.Dict.lookup_of_nodup parts hnodup _ _ hp)
    refine ⟨rfl, hsaved.keeps.next, hsaved.keeps.requests, hsaved.keeps.grows.trans hgrows,
      hsaved.keeps.addressed.store habsent hcontent hdigest, fun other hne ho => ?_, content,
      hcontent, houter⟩
    exact (Registry.lookup_store_ne _ made.2 hne).trans (hsaved.frame other ho).1

-- Of a block that does not come to its end nothing is left.
theorem saveBlockContent_spec (hblock : SavesBlocks env saveBlock) (marker : Buffer)
    (id : BlockId) (stream : Yielded Event) (hashers : List Bytes) (w : World)
    (hw : w.Sound env) (hnew : w.registry.lookup id = none) (havoid : Avoids env id stream.items) :
    Ends (saveBlockContent env control saveBlock marker id stream hashers) w
      (fun hashers' w' => Keeps env w w' ∧
        (∀ other, other ≠ id → Avoids env other stream.items →
          w'.registry.lookup other = w.registry.lookup other) ∧
        ∃ content, w'.registry.expansion id = some content ∧ hashers' = feed content hashers)
      fun _ w' => Keeps env w w' := by
  simp only [saveBlockContent, fresh, makedirs, ends_bind, ends_modifyGet, ends_modify,
    ends_tryCatch]
  have hsound : World.Sound env
      { w with next := w.next + 1, scratch := (w.next, false) :: w.scratch, blockDir := true } := by
    refine ⟨hw.addressed, fun path hp => ?_⟩
    rcases List.mem_cons.mp hp with rfl | hp
    · exact Nat.lt_succ_self _
    · exact (hw.fresh path hp).trans (Nat.lt_succ_self _)
  refine (writeBlock_spec control hblock marker id w.next stream hashers _ hsound hnew havoid
    w.scratch rfl hw.fresh).mono (fun hashers' w' h => ?_) fun e w' h => ?_
  · obtain ⟨hscratch, hnext, hrequests, hgrows, hca, hframe, hcontent⟩ := h
    exact ⟨⟨hgrows, hca, hscratch, (Nat.le_succ _).trans hnext, hrequests⟩, hframe, hcontent⟩
  · simp only [abandon, ends_bind, removeScratch, ends_modify, ends_throw]
    refine ⟨h.grows, h.addressed, ?_, (Nat.le_succ _).trans h.next, h.requests⟩
    rw [h.scratch, List.filter_cons_of_pos (by simp), List.filter_cons_of_neg (by simp),
      filter_scratch hw.fresh, filter_scratch hw.fresh]

theorem saveChunksToBlock_spec (fuel : Nat) :
    SavesBlocks env (saveChunksToBlock env control fuel) := by
  induction fuel with
  | zero => intro marker reading w hw; exact .refl hw.addressed
  | succ fuel ih =>
      intro marker reading w hw
      simp only [saveChunksToBlock]
      split
      · exact .refl hw.addressed
      · rename_i id positions hmarker
        have hhash := blockHash_of_pointer hmarker
        have hjson : reading.json ≠ [] → (if reading.json = [] then []
            else reading.json ++ [JsonEntry.block id positions]) =
              reading.json ++ [.block id positions] := fun h => if_neg h
        simp only [ends_bind, ends_get]
        split
        · rename_i hexists
          obtain ⟨stored, hl⟩ := Registry.blockExists_eq_true.mp hexists
          obtain ⟨content, hcontent, -⟩ := hw.addressed id stored hl
          refine Ends.bind (drain_keeps control id _ _ w hw) fun stream w' h => ?_
          obtain ⟨hkeeps, hreg, hsub⟩ := h
          have hframe : Frame env (.buffer marker :: reading.stream.items) stream.items w w' :=
            fun other ho => ⟨by rw [hreg], fun b hb => ho.tail b (hsub.subset hb)⟩
          have hheld : w'.registry.expansion id = some content := hreg ▸ hcontent
          split
          · rename_i hnil
            exact ⟨hkeeps, hframe, fun h => ⟨id, positions, content, hjson h, hheld,
              by simp [hnil, feed]⟩⟩
          · obtain ⟨pieces, hpieces, hbytes⟩ := readBlock_flat hkeeps.addressed.filesNamed 1 hheld
            simp only [ends_get, ends_bind, hpieces, Yielded.pure, contentOf_pieces, hbytes]
            exact ⟨hkeeps, hframe, fun h => ⟨id, positions, content, hjson h, hheld, rfl⟩⟩
        · rename_i hexists
          have hnew := Registry.blockExists_eq_false.mp (Bool.eq_false_of_not_eq_true hexists)
          refine Ends.bind (saveBlockContent_spec control ih marker id _ _ w hw hnew
            (stopGenerator_avoids id _)) fun hashers w' h => ?_
          obtain ⟨hkeeps, hframe, content, hcontent, hfed⟩ := h
          refine ⟨hkeeps, fun other ho => ?_, fun h =>
            ⟨id, positions, content, hjson h, hcontent, hfed⟩⟩
          have hne : other ≠ id := by
            rintro rfl
            exact ho marker (List.mem_cons_self ..) hhash
          exact ⟨hframe other hne ho.tail.stopGenerator.1, ho.tail.stopGenerator.2⟩

end Specs

-- What keeps the registry whichever way it ends.
def Maintains {α : Type} (env : Enviroment) (m : Save α) : Prop :=
  ∀ w, w.Sound env → Ends m w (fun _ w' => Keeps env w w') fun _ w' => Keeps env w w'

section Receive

variable {α β : Type} {receiver : Receiver}

theorem Maintains.pure {env : Enviroment} (a : α) : Maintains env (Pure.pure a) :=
  fun _ hw => .refl hw.addressed

theorem Maintains.throw {env : Enviroment} (e : Err) : Maintains env (throw e : Save α) :=
  fun _ hw => .refl hw.addressed

theorem Maintains.get {env : Enviroment} : Maintains env get := fun _ hw => .refl hw.addressed

theorem Maintains.bind {env : Enviroment} {m : Save α} {f : α → Save β} (hm : Maintains env m)
    (hf : ∀ a, Maintains env (f a)) : Maintains env (m >>= f) := by
  intro w hw
  refine Ends.bind (hm w hw) fun a w' h => ?_
  exact (hf a w' (hw.keeps h)).mono (fun _ _ h' => h.trans h') fun _ _ h' => h.trans h'

theorem Maintains.tryCatch {env : Enviroment} {m : Save α} {handler : Err → Save α}
    (hm : Maintains env m) (hh : ∀ e, Maintains env (handler e)) :
    Maintains env (tryCatch m handler) := by
  intro w hw
  refine ends_tryCatch.mpr ((hm w hw).mono (fun _ _ h => h) fun e w' h => ?_)
  exact (hh e w' (hw.keeps h)).mono (fun _ _ h' => h.trans h') fun _ _ h' => h.trans h'

-- A change to the world outside the registry and what is beside it.
theorem Maintains.modifyGet {env : Enviroment} {f : World → α × World}
    (hregistry : ∀ w, (f w).2.registry = w.registry) (hscratch : ∀ w, (f w).2.scratch = w.scratch)
    (hnext : ∀ w, w.next ≤ (f w).2.next) (hrequests : ∀ w, (f w).2.requests = w.requests) :
    Maintains env (modifyGet f) := by
  intro w hw
  exact ⟨by rw [hregistry]; exact .refl _, by rw [hregistry]; exact hw.addressed, hscratch w,
    hnext w, hrequests w ▸ List.suffix_refl _⟩

theorem perform_maintains (env : Enviroment) (control : Bool) (event : Event) :
    Maintains env (event.perform control) := fun w hw =>
  (perform_keeps control event w hw).mono (fun _ _ h => h.1) fun _ _ h => h.elim

theorem messageLoop_maintains (raised : Option Err) (items : List Event)
    (inBlock : Option BlockId) (allBuffer : Bytes) :
    Maintains receiver.env (receiver.messageLoop raised items inBlock allBuffer) := by
  induction items generalizing inBlock allBuffer with
  | nil =>
      simp only [Receiver.messageLoop]
      split
      · exact .throw _
      · exact .pure _
  | cons event rest ih =>
      cases event with
      | buffer b =>
          simp only [Receiver.messageLoop]
          repeat' split
          · exact ih _ _
          · exact ih _ _
          · exact ih _ _
          · exact ih _ _
          · exact .throw _
          · refine .bind .get fun w => ?_
            split
            · split
              · exact .throw _
              · exact ih _ _
            · exact ih _ _
      | pull => exact (perform_maintains _ _ _).bind fun _ => ih _ _
      | change => exact (perform_maintains _ _ _).bind fun _ => ih _ _
      | ask id => exact (perform_maintains _ _ _).bind fun _ => ih _ _

theorem parseMessage_maintains (field : Field) :
    Maintains receiver.env (receiver.parseMessage field) := by
  refine .bind .get fun w => (messageLoop_maintains _ _ _ _).bind fun allBuffer => ?_
  split
  · exact .pure _
  · split
    · exact .pure _
    · exact .throw _

theorem saveDirParts_maintains (fuel index : Nat) (parts : List (Nat × Bytes))
    (json : List JsonEntry) :
    Maintains receiver.env (receiver.saveDirParts fuel index parts json) := by
  induction fuel generalizing index parts json with
  | zero => exact .throw _
  | succ fuel ih =>
      refine .bind .get fun w => .bind (fun w hw => ?_) fun file => ?_
      · exact (saveChunksToFile_spec receiver.control (saveChunksToBlock_spec receiver.control _)
          none _ w hw).mono (fun _ _ h => h.keeps) fun _ _ h => h
      · split
        · exact .pure _
        · exact ih _ _ _

theorem saveToDir_maintains : Maintains receiver.env receiver.saveToDir := by
  have hfresh : Maintains receiver.env fresh :=
    .modifyGet (fun _ => rfl) (fun _ => rfl) (fun _ => Nat.le_succ _) fun _ => rfl
  have hadd : ∀ path, Maintains receiver.env (Receiver.addCache path) := fun path =>
    .modifyGet (fun _ => rfl) (fun _ => rfl) (fun _ => Nat.le_refl _) fun _ => rfl
  have hremove : ∀ path, Maintains receiver.env (Receiver.removeCache path) := fun path =>
    .modifyGet (fun _ => rfl) (fun _ => rfl) (fun _ => Nat.le_refl _) fun _ => rfl
  refine hfresh.bind fun dirname => (hadd dirname).bind fun _ => .bind .get fun w => ?_
  refine .bind (.tryCatch (saveDirParts_maintains _ _ _ _)
    fun e => (hremove dirname).bind fun _ => .throw e) fun result => ?_
  split
  split
  · exact hfresh.bind fun filename => (hadd filename).bind fun _ => .pure _
  · split
    · exact .pure _
    · refine .bind .get fun w => ?_
      split
      · exact .pure _
      · exact .throw _

theorem iterateMessage_maintains (field : Field) (mode : Bool) :
    Maintains receiver.env (receiver.iterateMessage field mode) := by
  rw [Receiver.iterateMessage]
  split
  · exact (parseMessage_maintains field).bind fun _ => .pure _
  · exact saveToDir_maintains.bind fun _ => .pure _

theorem receive_maintains (b : Buffer) : Maintains receiver.env (receiver.receive b) := by
  simp only [Receiver.receive]
  split
  · split
    · exact .throw _
    · refine (iterateMessage_maintains _ _).bind fun result => ?_
      split
      · exact .pure _
      · split
        · exact .throw _
        · exact .pure _
  · refine (iterateMessage_maintains _ _).bind fun result => ?_
    split
    · exact .pure _
    · exact .pure _

theorem mainLoop_keeps (fuel : Nat) (w : World) (hw : w.Sound receiver.env) :
    Keeps receiver.env w (receiver.mainLoop fuel w).2 := by
  induction fuel generalizing w with
  | zero => exact .refl hw.addressed
  | succ fuel ih =>
      simp only [Receiver.mainLoop]
      split
      · exact .refl hw.addressed
      · rename_i b rest hrequests
        have hone := @receive_maintains receiver b w hw
        split
        · rename_i e w' heq
          exact hone.of_error heq
        · rename_i result w' heq
          have h := hone.of_ok heq
          exact h.trans (ih w' (hw.keeps h))

-- The invariant of a content-addressed store: whatever a peer sends, and whether the
-- parse finishes or raises, every block expands to bytes that its name is the digest of,
-- what was there before is unchanged, and nothing else is left beside the blocks.
theorem parseFromBuffer_contentAddressed (receiver : Receiver) (w : World)
    (hregistry : w.registry.ContentAddressed receiver.env) (hscratch : w.scratch = []) :
    let after := (parseFromBuffer receiver w).2
    after.registry.ContentAddressed receiver.env ∧ w.registry.Grows after.registry ∧
      after.scratch = [] := by
  have hsound : ∀ requests, World.Sound receiver.env { w with requests } := fun requests =>
    ⟨hregistry, fun path hp => by simp [hscratch] at hp⟩
  simp only [parseFromBuffer]
  split
  · generalize (if receiver.control = true then controlReader receiver.env w.requests
      else w.requests) = requests
    have h := @mainLoop_keeps receiver (requests.length + 1) _ (hsound requests)
    exact ⟨h.addressed, h.grows, h.scratch.trans hscratch⟩
  · exact ⟨hregistry, .refl _, hscratch⟩

-- A block marked in another of its own name, and one that is not what it is named.
theorem parseFromBuffer_contentAddressed_sample :
    let receiver : Receiver :=
      { env := .sample, parse := fun _ _ => none, indices := [(1, .empty)]
        partitionsMessageMode := .inl false }
    let marker (id : BlockId) : Buffer := { block := some (blockPointer .sample id) }
    let w : World :=
      { registry := .sample
        requests := [marker [1, 9], { chunk := some [9] }, marker [1, 5, 6], marker [1, 5, 6],
          marker [1, 9], marker [1, 8], marker [1, 7], { separator := some true }] }
    let after := (parseFromBuffer receiver w).2
    after.registry.ContentAddressed receiver.env ∧ w.registry.Grows after.registry ∧
      after.scratch = [] :=
  parseFromBuffer_contentAddressed _ _ Registry.sample_contentAddressed rfl

end Receive

end BeeRpc
