import BeeRpc.Traffic

namespace BeeRpc

open Wire Effect

-- What save_chunks_to_block takes from a marker: the block and the positions to note with it.
def Buffer.target (env : Enviroment) (b : Buffer) : Option (BlockId × List Nat) :=
  b.block.bind fun block =>
    (truthy (blockIdFromPointer env block)).map fun id => (id, block.previousLengthsPosition)

def Buffer.positions (b : Buffer) : List Nat :=
  (b.block.map Block.previousLengthsPosition).getD []

-- The hash types that the pointers in a block inherit from its marker.
def Buffer.inherited (b : Buffer) : Option (List Bytes) :=
  b.block.bind fun block => (resolveHashTypes block).toOption

-- The block is renamed to its final path, unless it has got there meanwhile.
def Registry.publish (id : BlockId) (stored : Stored) (registry : Registry) : Registry :=
  if registry.blockExists id then registry else registry.store id stored

section

variable (env : Enviroment)

-- What the receiver holds behind a block, and the content that the blocks around it get. `inner`
-- is what reading its body leads to.
def taken (registry : Registry) (id : BlockId) (opening : Buffer) (inner : Registry × Part) :
    Registry × Bytes :=
  if registry.blockExists id then (registry, contentOf (readBlock env registry id).items)
  else
    match inner.2.stored env inner.1 opening.inherited with
    | .ok stored => (inner.1.publish id stored, inner.2.content)
    | .error _ => (inner.1, inner.2.content)

-- Reading a block fails, `body` being said of what is in it: what is held is read where there are
-- blocks around it, and what is not held has to be what its name says.
def Fails (outside : Bool) (registry : Registry) (id : BlockId) (opening : Buffer) (body : Prop)
    (inner : Registry × Part) : Prop :=
  if registry.blockExists id then outside = false ∧ (readBlock env registry id).raised.isSome = true
  else
    body ∨ env.hashFactory inner.2.content ≠ id ∨
      ∃ e, inner.2.stored env inner.1 opening.inherited = .error e

namespace Traffic

-- What the receiver of a message for the disk holds behind the traffic, and how far it has come
-- with the directory at hand, where nothing is raised. `last` is what comes behind it, where all
-- blocks then end.
def reads (registry : Registry) (p : Part) (last : Bytes) : Traffic → Registry × Part
  | nil => (registry, p.chunk last)
  | event _ rest => rest.reads registry p last
  | pass b rest => rest.reads registry (p.chunk b.content) last
  | block id opening body closing rest =>
      let inner := body.reads registry { current := opening.content } closing.content
      let block := taken env registry id opening inner
      rest.reads block.1 (p.block id opening.positions block.2) last
  | inside id opening inner =>
      let inner := inner.reads registry { current := opening.content } last
      let block := taken env registry id opening inner
      (block.1, p.block id opening.positions block.2)

-- What it raises something at: a marker that is not a block's, or not one that can be resolved by
-- block_id_from_pointer, and a block that it fails to read. Where `last` is not given the blocks
-- that are open at the end are not read any further.
def Rejects (outside : Bool) (registry : Registry) (last : Option Bytes) : Traffic → Prop
  | nil => False
  | event _ rest => rest.Rejects outside registry last
  | pass b rest => b.block.isSome = true ∨ rest.Rejects outside registry last
  | block id opening body closing rest =>
      let inner := body.reads env registry { current := opening.content } closing.content
      opening.target env = none ∨
        Fails env outside registry id opening
          (body.Rejects false registry (some closing.content)) inner ∨
        rest.Rejects outside (taken env registry id opening inner).1 last
  | inside id opening inner =>
      opening.target env = none ∨
        match last with
        | some last =>
            Fails env outside registry id opening (inner.Rejects false registry (some last))
              (inner.reads env registry { current := opening.content } last)
        | none => registry.blockExists id = false ∧ inner.Rejects false registry none

-- None of the blocks that are open at the end is held when it starts.
def Unheld (registry : Registry) : Traffic → Prop
  | nil => True
  | event _ rest => rest.Unheld registry
  | pass _ rest => rest.Unheld registry
  | block id opening body closing rest =>
      let inner := body.reads env registry { current := opening.content } closing.content
      rest.Unheld (taken env registry id opening inner).1
  | inside id _ inner => registry.blockExists id = false ∧ inner.Unheld registry

end Traffic

end

-- What comes behind the markers of the blocks, where they all end: chunks at most.
inductive Quiet : List Event → Bytes → Prop where
  | nil : Quiet [] []
  | chunk {b : Buffer} {rest : List Event} {last : Bytes} : b.block = none → Quiet rest last →
      Quiet (.buffer b :: rest) (b.content ++ last)

-- What a block leaves behind the marker that ends it, or where the stream ends with the block, and
-- what the block gets of it.
inductive Closes (env : Enviroment) (id : BlockId) :
    List Event → Option Err → List Event → Bytes → Prop where
  | marked {c : Buffer} (raised : Option Err) (after : List Event) :
      c.blockHash env = some id → Closes env id (.buffer c :: after) raised after c.content
  | quiet {items : List Event} {last : Bytes} : Quiet items last →
      Closes env id items none [] last

section

variable {env : Enviroment}

theorem blockHash_isSome {b : Buffer} {id : BlockId} (h : truthy (b.blockHash env) = some id) :
    b.block.isSome = true := by
  obtain ⟨block, hblock, -⟩ := Option.bind_eq_some_iff.mp (truthy_eq_some.mp h).1
  rw [hblock]
  rfl

theorem target_none {b : Buffer} (hb : truthy (b.blockHash env) = none) : b.target env = none := by
  by_contra hne
  obtain ⟨⟨id, positions⟩, hsome⟩ := Option.ne_none_iff_exists'.mp hne
  have hhash := blockHash_of_pointer hsome
  obtain ⟨block, -, hp⟩ := Option.bind_eq_some_iff.mp hsome
  obtain ⟨found, hfound, heq⟩ := Option.map_eq_some_iff.mp hp
  obtain rfl := (Prod.mk.inj heq).1
  rw [truthy_eq_some.mpr ⟨hhash, (truthy_eq_some.mp hfound).2⟩] at hb
  cases hb

-- A marker that can be resolved points at the block that the stream takes it for.
theorem target_eq {b : Buffer} {id : BlockId} (hb : truthy (b.blockHash env) = some id)
    (hne : b.target env ≠ none) : b.target env = some (id, b.positions) := by
  obtain ⟨⟨found, positions⟩, hsome⟩ := Option.ne_none_iff_exists'.mp hne
  have hhash := blockHash_of_pointer hsome
  rw [(truthy_eq_some.mp hb).1] at hhash
  obtain ⟨block, hblock, hp⟩ := Option.bind_eq_some_iff.mp hsome
  obtain ⟨_, -, heq⟩ := Option.map_eq_some_iff.mp hp
  obtain ⟨-, rfl⟩ := Prod.mk.inj heq
  rw [hsome, Option.some.inj hhash, Buffer.positions, hblock]
  rfl

theorem Quiet.avoids {items : List Event} {last : Bytes} (h : Quiet items last) (id : BlockId) :
    Avoids env id items := by
  induction h with
  | nil => exact avoids_nil id
  | @chunk b _ _ hb _ ih =>
      refine avoids_cons (fun c hc => ?_) ih
      rw [← Event.buffer.inj hc, Buffer.blockHash, hb]
      exact (Option.some_ne_none id).symm

end

section Writers

variable {env : Enviroment} (control : Bool) {n : Nat} {raised : Option Err}

-- The loop over the parts of a block that stands at `p`: with these events left it ends with the
-- parts of some `q` as said, unless something is raised on the way.
def Saved (env : Enviroment) (n : Nat) (raised : Option Err) (items : List Event) (p : Part)
    (hashers : List Bytes) (w : World) (ok : World → Part → Prop) : Prop :=
  ∀ fuel, Ends (savePartsLoop control (saveChunksToBlock env control n) fuel (some p.current) p.index
      p.parts { stream := ⟨items, raised⟩, json := p.json, hashers := feed p.fed hashers }) w
    (fun result w' => ∃ q, ok w' q ∧ result.1 = q.allParts ∧ result.2.json = q.allJson ∧
      result.2.hashers = feed q.content hashers) fun _ _ => True

theorem saved_event {event : Event} (hevent : ∀ b, event ≠ .buffer b) {rest : List Event} {p : Part}
    {hashers : List Bytes} {w : World} {ok : World → Part → Prop}
    (h : Saved control env n raised rest p hashers (w.after control event) ok) :
    Saved control env n raised (event :: rest) p hashers w ok := by
  rintro (_ | fuel)
  · exact trivial
  · have hrest := h (fuel + 1)
    cases event with
    | buffer b => exact absurd rfl (hevent b)
    | _ => exact hrest

theorem saved_arrival (b : Buffer) {rest : List Event} {p : Part} {hashers : List Bytes} {w : World}
    {ok : World → Part → Prop}
    (h : ∀ w', w'.registry = w.registry →
      Saved control env n raised rest p hashers w' ok) :
    Saved control env n raised (b.arrival ++ rest) p hashers w ok := by
  unfold Buffer.arrival
  by_cases hsignal : b.isSignal = true
  · rw [if_pos hsignal]
    apply saved_event control (fun _ => Event.noConfusion)
    apply saved_event control (fun _ => Event.noConfusion)
    exact h _ rfl
  · rw [if_neg hsignal]
    apply saved_event control (fun _ => Event.noConfusion)
    exact h _ rfl

-- What comes at the end is raised.
theorem saved_raises {e : Err} (p : Part) (hashers : List Bytes) (w : World)
    (ok : World → Part → Prop) : Saved control env n (some e) [] p hashers w ok := by
  rintro (_ | fuel)
  · exact trivial
  · exact trivial

theorem saved_nil {p : Part} {hashers : List Bytes} {w : World} {ok : World → Part → Prop}
    (h : ok w p) : Saved control env n none [] p hashers w ok := by
  rintro (_ | fuel)
  · exact trivial
  · refine ⟨p, h, rfl, rfl, ?_⟩
    exact feed_feed ..

theorem saved_chunk {b : Buffer} (hb : b.block = none) {rest : List Event} {p : Part}
    {hashers : List Bytes} {w : World} {ok : World → Part → Prop}
    (h : Saved control env n raised rest (p.chunk b.content) hashers w ok) :
    Saved control env n raised (.buffer b :: rest) p hashers w ok := by
  rintro (_ | fuel)
  · exact trivial
  · have hrest := h (fuel + 1)
    have hfed : feed b.content (feed p.current (feed p.fed hashers)) =
        feed (p.current ++ b.content) (feed p.fed hashers) := feed_feed ..
    simp only [savePartsLoop, saveChunksToFile, Option.getD_some, Part.chunk] at hrest ⊢
    rw [saveChunks, if_neg (by rw [hb]; exact Bool.false_ne_true), hfed]
    exact hrest

theorem Quiet.saved {items : List Event} {last : Bytes} (h : Quiet items last) {p : Part}
    {hashers : List Bytes} {w : World} {ok : World → Part → Prop} (hok : ok w (p.chunk last)) :
    Saved control env n none items p hashers w ok := by
  induction h generalizing p with
  | nil =>
      have hsame : p.chunk [] = p := by rw [Part.chunk, List.append_nil]
      exact saved_nil control (hsame ▸ hok)
  | chunk hb _ ih =>
      apply saved_chunk control hb
      apply ih
      rw [Part.chunk, Part.chunk, List.append_assoc]
      exact hok

-- A marker leads to the block, and behind it to the next part.
theorem saved_block {b : Buffer} (hblock : b.block.isSome = true) {rest : List Event} {p : Part}
    {hashers : List Bytes} {w : World} {ok : World → Part → Prop}
    (h : Ends (saveChunksToBlock env control n b
        ⟨⟨rest, raised⟩, p.allJson, feed p.content hashers⟩) w
      (fun reading w' => ∃ id positions content,
        reading.json = p.allJson ++ [.block id positions] ∧
        reading.hashers = feed content (feed p.content hashers) ∧
        Saved control env n reading.stream.raised reading.stream.items (p.block id positions content)
          hashers w' ok) fun _ _ => True) :
    Saved control env n raised (.buffer b :: rest) p hashers w ok := by
  rintro (_ | fuel)
  · exact trivial
  · have hfed : feed p.current (feed p.fed hashers) = feed p.content hashers := feed_feed ..
    simp only [savePartsLoop, saveChunksToFile, Option.getD_some, saveChunks, hblock, if_true,
      ends_bind, ends_pure, Bool.false_eq_true, if_false]
    rw [hfed]
    refine Ends.mono h (fun reading w' hread => ?_) fun _ _ he => he
    obtain ⟨id, positions, content, hjson, hhashers, hsaved⟩ := hread
    have hnext := hsaved fuel
    have hstart : savePartsLoop control (saveChunksToBlock env control n) fuel none (p.index + 1)
        (p.parts ++ [(p.index, p.current)]) reading =
        savePartsLoop control (saveChunksToBlock env control n) fuel (some []) (p.index + 1)
          (p.parts ++ [(p.index, p.current)]) reading := savePartsLoop_start ..
    rw [hstart]
    have hfed' : feed (p.block id positions content).fed hashers =
        feed content (feed p.content hashers) := (feed_feed ..).symm
    have hjson' : (p.block id positions content).json = p.allJson ++ [.block id positions] := by
      simp only [Part.block, Part.allJson, List.append_assoc, List.singleton_append]
    have hreading : reading = { stream := ⟨reading.stream.items, reading.stream.raised⟩
                                json := (p.block id positions content).json
                                hashers := feed (p.block id positions content).fed hashers } := by
      rw [hfed', hjson', ← hjson, ← hhashers]
    rw [hreading]
    exact hnext

theorem after_requests (event : Event) (w : World) :
    (w.after control event).requests = w.requests.drop ([event].count .pull) := by
  cases event with
  | pull => exact List.tail_drop ▸ rfl
  | change => rfl
  | ask id => rw [after_ask_requests]; rfl
  | buffer b => rfl

theorem afterAll_requests (items : List Event) (w : World) :
    (w.afterAll control items).requests = w.requests.drop (items.count .pull) := by
  induction items generalizing w with
  | nil => rfl
  | cons event rest ih =>
      have hrest := ih (w.after control event)
      rw [show w.afterAll control (event :: rest) = (w.after control event).afterAll control rest
        from rfl, hrest, after_requests, List.drop_drop, ← List.count_append]
      rfl

theorem stopGenerator_append {items : List Event} {id : BlockId} (h : Avoids env id items)
    (more : List Event) (raised : Option Err) :
    stopGenerator env ⟨items ++ more, raised⟩ id =
      ((Yielded.pure items).andThen (stopGenerator env ⟨more, raised⟩ id).1,
        (stopGenerator env ⟨more, raised⟩ id).2) := by
  simp only [stopGenerator, stopItems_append h]
  rcases stopItems env id more with ⟨inside, _ | after⟩
  · rfl
  · rfl

-- The loop that throws the block away stops there.
theorem Closes.drain {id : BlockId} {last : Bytes} {tail after : List Event}
    (h : Closes env id tail raised after last) (w : World) :
    drain env control id raised tail w = .ok ⟨after, raised⟩ w := by
  cases h with
  | marked raised after hc =>
      rw [BeeRpc.drain, if_pos hc]
      rfl
  | quiet hquiet =>
      induction hquiet with
      | nil => rfl
      | @chunk b _ _ hb _ ih =>
          have hne : b.blockHash env ≠ some id := by simp [Buffer.blockHash, hb]
          rw [BeeRpc.drain, if_neg hne]
          exact ih

-- So does stop_generator, and what it lets through is chunks.
theorem Closes.stops {id : BlockId} {last : Bytes} {tail after : List Event}
    (h : Closes env id tail raised after last) :
    ∃ quiet last', Quiet quiet last' ∧ last' = last ∧
      stopGenerator env ⟨tail, raised⟩ id = (.pure quiet, ⟨after, raised⟩) := by
  cases h with
  | @marked c raised after hc =>
      refine ⟨[.buffer c.clearBlock], _, .chunk rfl .nil, List.append_nil _, ?_⟩
      simp only [stopGenerator, stopItems, if_pos hc]
  | quiet hquiet =>
      refine ⟨tail, last, hquiet, rfl, ?_⟩
      have h := @stopGenerator_append env _ _ (hquiet.avoids id) [] none
      rw [List.append_nil] at h
      rw [h]
      simp [stopGenerator, stopItems, Yielded.andThen, Yielded.pure]

theorem publish_takes (id : BlockId) (ready : Nat × Bool) (stored : Stored) (w : World) :
    Ends (publish id ready stored) w
      (fun _ w' => w'.requests = w.requests ∧ w'.registry = w.registry.publish id stored)
      fun _ _ => True := by
  unfold publish Registry.publish
  simp only [ends_bind, ends_get]
  split
  · exact ⟨rfl, rfl⟩
  · exact ⟨rfl, rfl⟩

-- A block that was read is what its name says and is stored, or something is raised.
theorem finishBlock_takes (marker : Buffer) (id : BlockId) (tmp : Nat) (q : Part)
    (stream : Yielded Event) (hashers : List Bytes) (w : World) :
    Ends (finishBlock env marker id tmp
        (q.allParts, ⟨stream, q.allJson, feed q.content (hashers ++ [[]])⟩)) w
      (fun fed w' => fed = feed q.content hashers ∧ env.hashFactory q.content = id ∧
        w'.requests = w.requests ∧ ∃ stored, q.stored env w.registry marker.inherited = .ok stored ∧
          w'.registry = w.registry.publish id stored) fun _ _ => True := by
  have hfed : feed q.content (hashers ++ [[]]) = feed q.content hashers ++ [q.content] :=
    feed_append ..
  rw [finishBlock, hfed, List.getLast?_append, List.getLast?_singleton, Option.some_or,
    Option.getD_some, List.dropLast_concat]
  simp only
  split
  · exact trivial
  · rename_i hdigest
    have hmade := @makeReady_stored env marker tmp q w _ rfl
    simp only [ends_bind]
    split at hmade
    · simp only [Ends, hmade]
    · rename_i stored hstored
      obtain ⟨ready, w', hmade, hknown, hrequests⟩ := hmade
      have hregistry : w'.registry = w.registry := congrArg Known.registry hknown
      simp only [Ends, hmade]
      have hpublish := publish_takes id ready stored w'
      refine Ends.mono (ends_bind.mpr (hpublish.mono (fun _ w'' h => ?_) fun _ _ h => h))
        (fun fed w'' h => h) fun _ _ h => h
      refine ⟨rfl, not_not.mp hdigest, h.1.trans hrequests, stored, hstored, ?_⟩
      rw [h.2, hregistry]

-- A block that is not here yet is stored, or something is raised on the way.
theorem saveBlockContent_takes (marker : Buffer) (id : BlockId) (inside : Yielded Event)
    (hashers : List Bytes) (w : World) {ok : World → Part → Prop}
    (h : ∀ w', w'.registry = w.registry → w'.requests = w.requests →
      Saved control env n inside.raised inside.items { current := marker.content } (hashers ++ [[]])
        w' ok) :
    Ends (saveBlockContent env control (saveChunksToBlock env control n) marker id inside hashers) w
      (fun fed w' => ∃ read q, ok read q ∧ fed = feed q.content hashers ∧
        env.hashFactory q.content = id ∧ w'.requests = read.requests ∧
          ∃ stored, q.stored env read.registry marker.inherited = .ok stored ∧
            w'.registry = read.registry.publish id stored) fun _ _ => True := by
  simp only [saveBlockContent, fresh, makedirs, ends_bind, ends_modifyGet, ends_modify,
    ends_tryCatch]
  have hstart := h
    { w with next := w.next + 1, scratch := (w.next, false) :: w.scratch, blockDir := true } rfl rfl
    (inside.items.length + 1)
  have hread : savePartsLoop control (saveChunksToBlock env control n) (inside.items.length + 1)
      marker.chunk 1 [] { stream := inside, hashers := hashers ++ [[]] } =
      savePartsLoop control (saveChunksToBlock env control n) (inside.items.length + 1)
        (some marker.content) 1 []
        { stream := inside, hashers := feed [] (hashers ++ [[]]) } := by
    rw [feed_nil]
    cases hchunk : marker.chunk with
    | none => rw [Buffer.content, hchunk]; rfl
    | some content => rw [Buffer.content, hchunk]; rfl
  have hwrite : Ends (writeBlock env control (saveChunksToBlock env control n) marker id w.next
      inside hashers)
      { w with next := w.next + 1, scratch := (w.next, false) :: w.scratch, blockDir := true }
      (fun fed w' => ∃ read q, ok read q ∧ fed = feed q.content hashers ∧
        env.hashFactory q.content = id ∧ w'.requests = read.requests ∧
          ∃ stored, q.stored env read.registry marker.inherited = .ok stored ∧
            w'.registry = read.registry.publish id stored) fun _ _ => True := by
    rw [writeBlock, hread]
    refine Ends.bind hstart fun result read hresult => ?_
    obtain ⟨parts, stream, json, fed⟩ := result
    obtain ⟨q, hok, rfl, rfl, rfl⟩ := hresult
    refine (finishBlock_takes marker id w.next q stream hashers read).mono (fun _ w' h => ?_)
      fun _ _ h => h
    obtain ⟨hfed, hdigest, hrequests, hstored⟩ := h
    exact ⟨read, q, hok, hfed, hdigest, hrequests, hstored⟩
  exact hwrite.mono (fun _ _ h => h) fun _ _ _ => trivial

-- What reading a block has led to, where nothing was raised. `last` is what its end adds.
structure Takes (env : Enviroment) (outside : Bool) (id : BlockId) (opening : Buffer) (body : Traffic)
    (last : Bytes) (registry : Registry) (requests : List Buffer) (w' : World) : Prop where
  holds : w'.registry = (taken env registry id opening
    (body.reads env registry { current := opening.content } last)).1
  leaves : w'.requests = requests.drop (body.events.count .pull)
  succeeds : ¬ Fails env outside registry id opening (body.Rejects env false registry (some last))
    (body.reads env registry { current := opening.content } last)

-- The loop over the parts of a block reads this traffic up to the end of the block, or raises at
-- something in it.
def Absorbs (env : Enviroment) (body : Traffic) : Prop :=
  ∀ n p hashers registry quiet last w ok, hashers ≠ [] → Quiet quiet last → w.registry = registry →
    (¬ body.Rejects env false registry (some last) → ∀ w',
      w'.registry = (body.reads env registry p last).1 →
      w'.requests = w.requests.drop (body.events.count .pull) →
        ok w' (body.reads env registry p last).2) →
    Saved control env n none (body.events ++ quiet) p hashers w ok

section Block

variable {body : Traffic} {id : BlockId} {opening : Buffer} {last : Bytes} {w : World}
  {hashers : List Bytes}

-- A block that is held is thrown away, and the blocks around it get what is held.
theorem heldBlock_takes (outside : Bool) (hexists : w.registry.blockExists id = true)
    (houtside : outside = false → hashers ≠ []) (after : Yielded Event) (json : List JsonEntry)
    {w' : World} (hregistry : w'.registry = w.registry)
    (hrequests : w'.requests = w.requests.drop (body.events.count .pull)) :
    Ends (if hashers = [] then return ⟨after, json, hashers⟩
      else do
        let w ← get
        let read := readBlock env w.registry id
        match read.raised with
        | some e => throw e
        | none => return ⟨after, json, feed (contentOf read.items) hashers⟩ : Save Reading) w'
      (fun reading w' => reading = ⟨after, json, feed (taken env w.registry id opening
        (body.reads env w.registry { current := opening.content } last)).2 hashers⟩ ∧
          Takes env outside id opening body last w.registry w.requests w') fun _ _ => True := by
  have htaken : taken env w.registry id opening
      (body.reads env w.registry { current := opening.content } last) =
        (w.registry, contentOf (readBlock env w.registry id).items) := if_pos hexists
  by_cases hnone : hashers = []
  · rw [if_pos hnone, htaken]
    refine ⟨by rw [hnone]; rfl, by rw [htaken, hregistry], hrequests, ?_⟩
    rw [Fails, if_pos hexists]
    exact fun h => houtside h.1 hnone
  · rw [if_neg hnone, htaken]
    simp only [ends_bind, ends_get, hregistry]
    split
    · exact trivial
    · rename_i hread
      refine ⟨rfl, by rw [htaken, hregistry], hrequests, ?_⟩
      rw [Fails, if_pos hexists, hread]
      exact fun h => Bool.false_ne_true h.2

-- A block that is not held is saved with what is in it.
theorem newBlock_takes (outside : Bool) (hexists : w.registry.blockExists id ≠ true)
    (hbody : Absorbs control env body) {quiet : List Event} (hquiet : Quiet quiet last) :
    Ends (saveBlockContent env control (saveChunksToBlock env control n) opening id
        (.pure (body.events ++ quiet)) hashers) w
      (fun fed w' => fed = feed (taken env w.registry id opening
        (body.reads env w.registry { current := opening.content } last)).2 hashers ∧
          Takes env outside id opening body last w.registry w.requests w') fun _ _ => True := by
  have hsaved := @saveBlockContent_takes env control n opening id (.pure (body.events ++ quiet))
    hashers w (fun read q => ¬ body.Rejects env false w.registry (some last) ∧
      read.requests = w.requests.drop (body.events.count .pull) ∧
      read.registry = (body.reads env w.registry { current := opening.content } last).1 ∧
      q = (body.reads env w.registry { current := opening.content } last).2)
  refine (hsaved fun w₁ hregistry hrequests => ?_).mono (fun fed w' h => ?_) fun _ _ h => h
  · apply hbody n _ _ w.registry quiet last w₁ _ (by simp) hquiet hregistry
    intro haccepts w₂ hregistry₂ hrequests₂
    exact ⟨haccepts, by rw [hrequests₂, hrequests], hregistry₂, rfl⟩
  · obtain ⟨read, q, ⟨haccepts, hleft, hheld, rfl⟩, rfl, hdigest, hrequests, stored, hstored,
      hregistry⟩ := h
    rw [hheld] at hstored hregistry
    have htaken : taken env w.registry id opening
        (body.reads env w.registry { current := opening.content } last) =
          (w'.registry,
            (body.reads env w.registry { current := opening.content } last).2.content) := by
      rw [taken, if_neg hexists]
      simp only [hstored, hregistry]
    refine ⟨by rw [htaken], by rw [htaken], hrequests.trans hleft, ?_⟩
    rw [Fails, if_neg hexists]
    rintro (h | h | ⟨e, he⟩)
    · exact haccepts h
    · exact h hdigest
    · rw [hstored] at he
      cases he

-- So it is with a block whose opening marker has just come, or something is raised.
theorem saveChunksToBlock_takes (outside : Bool) (hopening : truthy (opening.blockHash env) = some id)
    (havoids : Avoids env id body.events) {tail after : List Event}
    (hcloses : Closes env id tail raised after last) (n : Nat) {json : List JsonEntry}
    (hjson : json ≠ []) (hashers : List Bytes) (houtside : outside = false → hashers ≠ [])
    {registry : Registry} (hregistry : w.registry = registry) (hbody : Absorbs control env body) :
    Ends (saveChunksToBlock env control n opening ⟨⟨body.events ++ tail, raised⟩, json, hashers⟩) w
      (fun reading w' => reading = ⟨⟨after, raised⟩, json ++ [.block id opening.positions],
          feed (taken env registry id opening
            (body.reads env registry { current := opening.content } last)).2 hashers⟩ ∧
        opening.target env ≠ none ∧ Takes env outside id opening body last registry w.requests w')
      fun _ _ => True := by
  subst hregistry
  cases n with
  | zero => exact trivial
  | succ n =>
      by_cases htarget : opening.target env = none
      · rw [Buffer.target] at htarget
        simp only [saveChunksToBlock, htarget]
        exact trivial
      have hmarker := target_eq hopening htarget
      rw [Buffer.target] at hmarker
      simp only [saveChunksToBlock, hmarker, hjson, if_false, ends_bind, ends_get]
      by_cases hexists : w.registry.blockExists id = true
      · rw [if_pos hexists]
        have hdrain := drain_append control havoids raised tail w
        rw [hcloses.drain] at hdrain
        refine ends_bind.mpr (ends_of_ok hdrain ?_)
        have hheld := @heldBlock_takes env body id opening last w hashers outside hexists houtside
          ⟨after, raised⟩ (json ++ [.block id opening.positions]) _
          (afterAll_registry control w body.events) (afterAll_requests control body.events w)
        exact hheld.mono (fun reading w'' h => ⟨h.1, htarget, h.2⟩) fun _ _ h => h
      · rw [if_neg hexists]
        obtain ⟨quiet, _, hquiet, rfl, hstop⟩ := hcloses.stops
        have hinside : stopGenerator env ⟨body.events ++ tail, raised⟩ id =
            (.pure (body.events ++ quiet), ⟨after, raised⟩) := by
          rw [stopGenerator_append havoids, hstop]
          rfl
        rw [hinside]
        refine (newBlock_takes control outside hexists hbody hquiet).bind fun fed w' h => ?_
        obtain ⟨rfl, htakes⟩ := h
        exact ⟨rfl, htarget, htakes⟩

-- What cannot be resolved is raised, whatever is there to be read.
theorem saveChunksToBlock_unresolvable {b : Buffer} (hb : b.target env = none) (n : Nat)
    (reading : Reading) (w : World) {ok : Reading → World → Prop} :
    Ends (saveChunksToBlock env control n b reading) w ok fun _ _ => True := by
  cases n with
  | zero => exact trivial
  | succ n =>
      rw [Buffer.target] at hb
      simp only [saveChunksToBlock, hb]
      exact trivial

theorem saved_unresolvable {b : Buffer} (hb : b.target env = none) (hblock : b.block.isSome = true)
    (rest : List Event) (p : Part) (hashers : List Bytes) (w : World)
    (ok : World → Part → Prop) : Saved control env n raised (.buffer b :: rest) p hashers w ok :=
  saved_block control hblock (saveChunksToBlock_unresolvable control hb n _ w)

-- A buffer that opens no block is written, or raised.
theorem saved_pass {b : Buffer} (hb : truthy (b.blockHash env) = none) {rest : List Event} {p : Part}
    {w : World} {ok : World → Part → Prop} (h : ¬ b.block.isSome = true →
      Saved control env n raised rest (p.chunk b.content) hashers w ok) :
    Saved control env n raised (.buffer b :: rest) p hashers w ok := by
  by_cases hblock : b.block.isSome = true
  · exact saved_unresolvable control (target_none hb) hblock rest p hashers w ok
  · exact saved_chunk control (Option.not_isSome_iff_eq_none.mp hblock) (h hblock)

theorem allJson_ne_nil (p : Part) : p.allJson ≠ [] :=
  List.append_ne_nil_of_right_ne_nil _ (List.cons_ne_nil _ _)

theorem feed_ne_nil (content : Bytes) (h : hashers ≠ []) : feed content hashers ≠ [] := by
  rw [feed, Ne, List.map_eq_nil_iff]
  exact h

-- All traffic in a block is read so.
theorem absorbs_traffic (traffic : Traffic) (hflows : traffic.Flows env) :
    Absorbs control env traffic := by
  induction traffic with
  | nil =>
      intro n p hashers registry quiet last w ok _ hquiet hw h
      exact hquiet.saved control (h (fun h => h) w hw rfl)
  | event event rest ih =>
      obtain ⟨hevent, hrest⟩ := hflows
      intro n p hashers registry quiet last w ok hhashers hquiet hw h
      apply saved_event control hevent
      apply ih hrest n p hashers registry quiet last _ ok hhashers hquiet
        ((after_registry ..).trans hw)
      intro haccepts w' hregistry hrequests
      apply h haccepts w' hregistry
      rw [hrequests, after_requests, List.drop_drop, ← List.count_append]
      rfl
  | pass b rest ih =>
      obtain ⟨hb, hrest⟩ := hflows
      intro n p hashers registry quiet last w ok hhashers hquiet hw h
      apply saved_pass control hb
      intro hpass
      apply ih hrest n _ hashers registry quiet last w ok hhashers hquiet hw
      intro haccepts w' hregistry hrequests
      refine h ?_ w' hregistry ?_
      · rintro (h | h)
        · exact hpass h
        · exact haccepts h
      · rw [hrequests, Traffic.events, List.count_cons_of_ne (by simp)]
  | block id opening body closing rest ihBody ihRest =>
      obtain ⟨hopening, hclosing, havoids, hbody, hrest⟩ := hflows
      intro n p hashers registry quiet last w ok hhashers hquiet hw h
      simp only [Traffic.events, List.cons_append, List.append_assoc]
      apply saved_block control (blockHash_isSome hopening)
      have hread := saveChunksToBlock_takes control false hopening havoids
        (.marked none (rest.events ++ quiet) hclosing) n (allJson_ne_nil p) _
        (fun _ => feed_ne_nil p.content hhashers) hw (ihBody hbody)
      refine hread.mono (fun reading w₁ h₁ => ?_) fun _ _ h => h
      obtain ⟨rfl, htarget, htakes⟩ := h₁
      refine ⟨id, opening.positions, _, rfl, rfl, ?_⟩
      apply ihRest hrest n _ hashers _ quiet last w₁ ok hhashers hquiet htakes.holds
      intro haccepts w₂ hregistry hrequests
      refine h ?_ w₂ hregistry ?_
      · rintro (h | h | h)
        · exact htarget h
        · exact htakes.succeeds h
        · exact haccepts h
      · rw [hrequests, htakes.leaves, List.drop_drop, ← List.count_append, Traffic.events,
          List.count_cons_of_ne (by simp), List.count_append, List.count_append,
          List.count_cons_of_ne (by simp)]
  | inside id opening inner ih =>
      obtain ⟨hopening, havoids, hinner⟩ := hflows
      intro n p hashers registry quiet last w ok hhashers hquiet hw h
      simp only [Traffic.events, List.cons_append]
      apply saved_block control (blockHash_isSome hopening)
      have hread := saveChunksToBlock_takes control false hopening havoids (.quiet hquiet) n
        (allJson_ne_nil p) _ (fun _ => feed_ne_nil p.content hhashers) hw (ih hinner)
      refine hread.mono (fun reading w₁ h₁ => ?_) fun _ _ h => h
      obtain ⟨rfl, htarget, htakes⟩ := h₁
      refine ⟨id, opening.positions, _, rfl, rfl, ?_⟩
      apply saved_nil control
      refine h ?_ w₁ htakes.holds ?_
      · rintro (h | h)
        · exact htarget h
        · exact htakes.succeeds h
      · rw [htakes.leaves, Traffic.events, List.count_cons_of_ne (by simp)]

end Block

end Writers

end BeeRpc
