import BeeRpc.Forest
import BeeRpc.Termination

namespace BeeRpc

open Wire Effect

-- What of a receiver decides what it does with a block, and what it has asked for.
structure Known where
  registry : Registry
  asked : List BlockId

def World.known (w : World) : Known := ⟨w.registry, w.asked⟩

-- What is raised, and what had been asked for by then.
structure Failure where
  error : Err
  asked : List BlockId

namespace Known

variable (control : Bool)

def ask (id : BlockId) (k : Known) : Known :=
  if control && k.registry.blockExists id then
    if id ∈ k.asked then k else { k with asked := k.asked ++ [id] }
  else k

-- The body of a block that is thrown away.
def drain (k : Known) : Forest → Known
  | .nil => k
  | .chunk _ _ rest => k.drain rest
  | .block id _ body rest => ((k.ask control id).drain body).drain rest

end Known

-- How far the writing of a directory has come: the part that is being written, what the
-- hashers around were fed before it, the parts and the `_.json` before it.
structure Part where
  index : Nat := 1
  current : Bytes := []
  fed : Bytes := []
  parts : List (Nat × Bytes) := []
  json : List JsonEntry := []

namespace Part

def chunk (content : Bytes) (p : Part) : Part := { p with current := p.current ++ content }

def block (id : BlockId) (positions : List Nat) (content : Bytes) (p : Part) : Part where
  index := p.index + 1
  current := []
  fed := p.fed ++ p.current ++ content
  parts := p.parts ++ [(p.index, p.current)]
  json := p.json ++ [.part p.index, .block id positions]

-- The directory once the part at hand is its last one.
def content (p : Part) : Bytes := p.fed ++ p.current

def allParts (p : Part) : List (Nat × Bytes) := p.parts ++ [(p.index, p.current)]

def allJson (p : Part) : List JsonEntry := p.json ++ [.part p.index]

variable (env : Enviroment) (registry : Registry)

def stored (inherited : Option (List Bytes)) (p : Part) : Except Err Stored :=
  if p.allJson.length < 2 then .ok (.file ((p.allParts.lookup 1).getD []))
  else
    let directory : Directory := { parts := p.allParts, json := p.allJson }
    if env.skipWbpGeneration then .ok (.dir directory)
    else do
      let directory ← generateWbpFile env registry directory inherited
      return .dir directory

def storedBlock (id : BlockId) (p : Part) : Except Err Stored :=
  if env.hashFactory p.content ≠ id then .error (.blockIdMismatch id (env.hashFactory p.content))
  else p.stored env registry (some [env.hashType])

end Part

-- The block that was received is stored under its name.
def Known.storeBlock (env : Enviroment) (id : BlockId) (q : Part) (k : Known) :
    Except Failure Known :=
  match q.storedBlock env k.registry id with
  | .error e => .error ⟨e, k.asked⟩
  | .ok stored => .ok { k with registry := k.registry.store id stored }

-- What a receiver does with a forest: a block that it does not hold is absorbed first and
-- stored under its name, one that it holds is taken from the registry.
def absorb (env : Enviroment) (control : Bool) : Known → Part → Forest →
    Except Failure (Known × Part)
  | k, p, .nil => .ok (k, p)
  | k, p, .chunk _ content rest => absorb env control k (p.chunk content) rest
  | k, p, .block id positions body rest =>
      if k.registry.blockExists id then
        absorb env control ((k.ask control id).drain control body)
          (p.block id positions (k.registry.content id)) rest
      else do
        let (inner, q) ← absorb env control (k.ask control id) {} body
        let inner ← inner.storeBlock env id q
        absorb env control inner (p.block id positions q.content) rest

-- The block alone, once its start marker has been seen.
def absorbBody (env : Enviroment) (control : Bool) (k : Known) (id : BlockId) (body : Forest) :
    Except Failure (Known × Bytes) :=
  if k.registry.blockExists id then .ok (k.drain control body, k.registry.content id)
  else do
    let (inner, q) ← absorb env control k {} body
    let inner ← inner.storeBlock env id q
    return (inner, q.content)

-- It raises, and this is what it raises.
def Raises {α : Type} (m : Save α) (w : World) (failure : Failure) : Prop :=
  ∃ w', m w = .error failure.error w' ∧ w'.asked = failure.asked

theorem Raises.bind {α β : Type} {m : Save α} {f : α → Save β} {w : World} {failure : Failure}
    (h : Raises m w failure) : Raises (m >>= f) w failure := by
  obtain ⟨w', hw', hasked⟩ := h
  exact ⟨w', bind_of_error hw', hasked⟩

theorem Raises.of_eq {α : Type} {m m' : Save α} {w w' : World} {failure : Failure}
    (h : Raises m w failure) (heq : m' w' = m w) : Raises m' w' failure := by
  obtain ⟨w'', hw'', hasked⟩ := h
  exact ⟨w'', heq.trans hw'', hasked⟩

section Events

variable {env : Enviroment} (control : Bool)

@[simp] theorem ask_registry (k : Known) (id : BlockId) :
    (k.ask control id).registry = k.registry := by
  simp only [Known.ask]
  repeat' split
  all_goals rfl

theorem drain_registry (forest : Forest) (k : Known) :
    (k.drain control forest).registry = k.registry := by
  induction forest generalizing k with
  | nil => rfl
  | chunk skip content rest ih => exact ih k
  | block id positions body rest ihBody ihRest =>
      rw [Known.drain, ihRest, ihBody, ask_registry]

theorem absorb_block (k : Known) (p : Part) (id : BlockId) (positions : List Nat)
    (body rest : Forest) :
    absorb env control k p (.block id positions body rest) =
      (absorbBody env control (k.ask control id) id body).bind fun result =>
        absorb env control result.1 (p.block id positions result.2) rest := by
  simp only [absorb, absorbBody, ask_registry]
  split
  · rfl
  · cases absorb env control (k.ask control id) {} body with
    | error e => rfl
    | ok result =>
        simp only [ok_bind]
        cases result.1.storeBlock env id result.2 <;> rfl

theorem after_known (w : World) (id : BlockId) :
    (w.after control (.ask id)).known = w.known.ask control id := by
  by_cases hasks : (control && w.registry.blockExists id) = true
  · by_cases hasked : id ∈ w.asked
    · simp [World.after, World.signalBlockBufferStream, Known.ask, World.known, hasks, hasked]
    · simp [World.after, World.signalBlockBufferStream, Known.ask, World.known, hasks, hasked]
  · simp [World.after, Known.ask, World.known, hasks]

theorem after_ask_requests (w : World) (id : BlockId) :
    (w.after control (.ask id)).requests = w.requests := by
  simp only [World.after, World.signalBlockBufferStream]
  repeat' split
  all_goals rfl

def World.afterAll (w : World) (events : List Event) : World :=
  events.foldl (fun w event => w.after control event) w

theorem afterAll_append (w : World) (left right : List Event) :
    w.afterAll control (left ++ right) = (w.afterAll control left).afterAll control right :=
  List.foldl_append

-- The body of a block takes its buffers, and asks for the blocks in it.
theorem afterAll_forest (forest : Forest) (w : World) :
    (w.afterAll control (forest.events env)).known = w.known.drain control forest ∧
      (w.afterAll control (forest.events env)).requests =
        w.requests.drop (forest.stream env).length := by
  induction forest generalizing w with
  | nil => exact ⟨rfl, rfl⟩
  | chunk skip content rest ih =>
      obtain ⟨hknown, hrequests⟩ := ih (w.after control .pull)
      refine ⟨hknown, hrequests.trans ?_⟩
      rw [World.after, List.drop_tail, Forest.stream, List.length_cons]
  | block id positions body rest ihBody ihRest =>
      have hbody := ihBody ((w.after control .pull).after control (.ask id))
      generalize hw' : ((w.after control .pull).after control (.ask id)).afterAll control
        (body.events env) = w' at hbody
      have hrest := ihRest (w'.after control .pull)
      have hall : w.afterAll control ((Forest.block id positions body rest).events env) =
          (w'.after control .pull).afterAll control (rest.events env) := by
        rw [← hw', Forest.events, afterAll_append]
        rfl
      rw [hall, hrest.1, hrest.2]
      constructor
      · rw [show (w'.after control .pull).known = w'.known from rfl, hbody.1, after_known]
        rfl
      · rw [World.after, hbody.2, after_ask_requests, List.tail_drop, List.drop_drop,
          Forest.stream]
        simp only [World.after, List.drop_tail, List.length_cons, List.length_append]
        congr 1

theorem Forest.Nests.avoids (hd : env.Digests) {forest : Forest} {blocks : List BlockId}
    (h : forest.Nests blocks) : ∀ id ∈ blocks, Avoids env id (forest.events env) := by
  induction forest generalizing blocks with
  | nil => exact fun id _ => avoids_nil id
  | chunk skip content rest ih =>
      intro id hid b hb
      simp only [Forest.events, List.mem_cons, reduceCtorEq, false_or] at hb
      rcases hb with hb | hb
      · rw [Event.buffer.inj hb]
        simp
      · exact ih h id hid b hb
  | block other positions body rest ihBody ihRest =>
      obtain ⟨-, hnew, -, hbody, hrest⟩ := h
      intro id hid b hb
      have hne : (marker env other positions).blockHash env ≠ some id := by
        rw [marker_blockHash hd]
        rintro h
        exact hnew (Option.some.inj h ▸ hid)
      simp only [Forest.events, List.mem_cons, List.mem_append, reduceCtorEq, false_or] at hb
      rcases hb with (hb | hb) | hb | hb
      · exact Event.buffer.inj hb ▸ hne
      · exact ihBody hbody id (List.mem_cons_of_mem _ hid) b hb
      · exact Event.buffer.inj hb ▸ hne
      · exact ihRest hrest id hid b hb

theorem stopItems_append {id : BlockId} {items : List Event} (h : Avoids env id items)
    (more : List Event) :
    stopItems env id (items ++ more) =
      (items ++ (stopItems env id more).1, (stopItems env id more).2) := by
  induction items with
  | nil => rfl
  | cons event rest ih =>
      have hrest := ih h.tail
      cases event with
      | buffer b =>
          have hb := h b (List.mem_cons_self ..)
          simp only [List.cons_append, stopItems, if_neg hb, hrest]
      | pull => simp only [List.cons_append, stopItems, hrest]
      | change => simp only [List.cons_append, stopItems, hrest]
      | ask other => simp only [List.cons_append, stopItems, hrest]

theorem drain_append {id : BlockId} {items : List Event} (h : Avoids env id items)
    (raised : Option Err) (more : List Event) (w : World) :
    drain env control id raised (items ++ more) w =
      drain env control id raised more (w.afterAll control items) := by
  induction items generalizing w with
  | nil => rfl
  | cons event rest ih =>
      cases event with
      | buffer b =>
          have hb := h b (List.mem_cons_self ..)
          rw [List.cons_append, drain, if_neg hb]
          exact ih h.tail w
      | pull => exact ih h.tail _
      | change => exact ih h.tail _
      | ask other => exact ih h.tail _

-- How the stream of a block goes on behind its body, with the events that are then left
-- to the reader around it and the number of buffers taken: it is inside another block,
-- outside all blocks, or the requests have come to their end.
inductive Closing (env : Enviroment) (id : BlockId) : List Event → List Event → Nat → Prop where
  | inner (positions : List Nat) (after : List Event) :
      Closing env id (.pull :: .buffer (marker env id positions) :: after) after 1
  | outermost : Closing env id [.pull] [] 1
  | cut : Closing env id [] [] 0

-- What stop_generator lets through of it.
def Closing.quiet : List Event → List Event
  | .pull :: .buffer b :: _ => [.pull, .buffer b.clearBlock]
  | events => events

theorem stopGenerator_closing (hd : env.Digests) {id : BlockId} {body : Forest}
    {blocks : List BlockId} (hbody : body.Nests (id :: blocks)) {closing after : List Event}
    {n : Nat} (hclosing : Closing env id closing after n) :
    stopGenerator env (.pure (body.events env ++ closing)) id =
      (.pure (body.events env ++ Closing.quiet closing), .pure after) := by
  have havoid := hbody.avoids hd id (List.mem_cons_self ..)
  simp only [stopGenerator, Yielded.pure, stopItems_append havoid]
  cases hclosing with
  | inner positions =>
      simp only [stopItems, marker_blockHash hd, if_true, Closing.quiet]
  | outermost => rfl
  | cut => simp only [stopItems, Closing.quiet]

theorem drain_closing (hd : env.Digests) {id : BlockId} {body : Forest} {blocks : List BlockId}
    (hbody : body.Nests (id :: blocks)) {closing after : List Event} {n : Nat}
    (hclosing : Closing env id closing after n) (w : World) :
    ∃ w', drain env control id none (body.events env ++ closing) w = .ok (.pure after) w' ∧
      w'.known = w.known.drain control body ∧
        w'.requests = w.requests.drop ((body.stream env).length + n) := by
  have havoid := hbody.avoids hd id (List.mem_cons_self ..)
  obtain ⟨hknown, hrequests⟩ := @afterAll_forest env control body w
  rw [drain_append control havoid]
  generalize w.afterAll control (body.events env) = w' at hknown hrequests
  cases hclosing with
  | inner positions =>
      refine ⟨w'.after control .pull, ?_, hknown, ?_⟩
      · have hhash := marker_blockHash hd id positions
        show drain env control id none (.buffer (marker env id positions) :: after)
          (w'.after control .pull) = _
        rw [drain, if_pos hhash]
        rfl
      · simp only [World.after, hrequests, List.tail_drop]
  | outermost =>
      refine ⟨w'.after control .pull, rfl, hknown, ?_⟩
      simp only [World.after, hrequests, List.tail_drop]
  | cut => exact ⟨w', rfl, hknown, hrequests⟩

end Events

section Resume

variable {env : Enviroment} (control : Bool)

-- The loop over the parts of a block, where it stands at `p` and these events are left.
def resume (env : Enviroment) (hashers : List Bytes) (p : Part) (items : List Event) :
    Save (List (Nat × Bytes) × Reading) :=
  savePartsLoop control (saveChunksToBlock env control (items.length + 1)) (items.length + 1)
    (some p.current) p.index p.parts
    { stream := .pure items, json := p.json, hashers := feed p.fed hashers }

theorem resume_eq (hashers : List Bytes) (p : Part) (items : List Event) (n fuel : Nat)
    (hn : items.length ≤ n) (hfuel : items.length < fuel) :
    savePartsLoop control (saveChunksToBlock env control n) fuel (some p.current) p.index p.parts
        { stream := .pure items, json := p.json, hashers := feed p.fed hashers } =
      resume control env hashers p items := by
  refine savePartsLoop_fuel control (n := items.length) (fun marker reading hlt => ?_)
    (saveChunksToBlock_shrinks control n) _ _ _ _ _ _ (Nat.le_refl _) hfuel (Nat.lt_succ_self _)
  exact saveChunksToBlock_fuel control _ _ marker reading (by omega) (by omega)

-- The first part of a block begins with nothing.
theorem savePartsLoop_start (saveBlock : Buffer → Reading → Save Reading) (fuel index : Nat)
    (parts : List (Nat × Bytes)) (reading : Reading) :
    savePartsLoop control saveBlock fuel none index parts reading =
      savePartsLoop control saveBlock fuel (some []) index parts reading := by
  cases fuel with
  | zero => rfl
  | succ fuel => rfl

-- What is yielded behind the last part changes nothing.
theorem resume_quiet (hashers : List Bytes) (p : Part) {id : BlockId} {closing after : List Event}
    {n : Nat} (hclosing : Closing env id closing after n) (w : World) :
    ∃ w', resume control env hashers p (Closing.quiet closing) w =
        .ok (p.allParts, ⟨.pure [], p.allJson, feed p.content hashers⟩) w' ∧
      w'.known = w.known ∧ w'.requests = w.requests.drop n := by
  have hfed : feed p.current (feed p.fed hashers) = feed p.content hashers := feed_feed ..
  cases hclosing with
  | inner positions =>
      refine ⟨w.after control .pull, ?_, rfl, by rw [World.after, List.drop_one]⟩
      have hstep : resume control env hashers p
          [.pull, .buffer (marker env id positions).clearBlock] w =
          .ok (p.parts ++ [(p.index, p.current ++ [])], ⟨.pure [], p.json ++ [.part p.index],
            feed [] (feed p.current (feed p.fed hashers))⟩) (w.after control .pull) := rfl
      rw [Closing.quiet, hstep, List.append_nil, feed_nil, hfed]
      rfl
  | outermost =>
      refine ⟨w.after control .pull, ?_, rfl, by rw [World.after, List.drop_one]⟩
      rw [← hfed]
      rfl
  | cut =>
      refine ⟨w, ?_, rfl, rfl⟩
      rw [← hfed]
      rfl

-- A piece of content goes to the part at hand and to all hashers.
theorem resume_chunk (hashers : List Bytes) (p : Part) (skip : Option Block) (content : Bytes)
    (items : List Event) (w : World) :
    resume control env hashers p (.pull :: .buffer (chunkBuffer skip content) :: items) w =
      resume control env hashers (p.chunk content) items (w.after control .pull) := by
  rw [← resume_eq control hashers (p.chunk content) items (items.length + 3) (items.length + 3)
    (by omega) (by omega)]
  have hfed : feed content (feed p.current (feed p.fed hashers)) =
      feed (p.current ++ content) (feed p.fed hashers) := feed_feed ..
  simp only [resume, List.length_cons, savePartsLoop, saveChunksToFile, Option.getD_some,
    Yielded.pure, Part.chunk]
  rw [← hfed]
  rfl

-- Reading the events of a forest takes the loop from where it stands to where the forest,
-- absorbed, leaves it, or raises what absorbing it raises.
def Simulates (env : Enviroment) (forest : Forest) : Prop :=
  ∀ (hashers : List Bytes) (p : Part) (items : List Event) (w : World), w.Sound env →
    match absorb env control w.known p forest with
    | .error failure => Raises (resume control env hashers p (forest.events env ++ items)) w failure
    | .ok (k, q) => ∃ w', resume control env hashers p (forest.events env ++ items) w =
        resume control env hashers q items w' ∧
        w'.known = k ∧ w'.requests = w.requests.drop (forest.stream env).length ∧ Keeps env w w'

theorem makeReady_stored (marker : Buffer) (tmp : Nat) (p : Part) (w : World)
    {inherited : Option (List Bytes)}
    (hinherited : marker.block.bind (fun block => (resolveHashTypes block).toOption) = inherited) :
    match p.stored env w.registry inherited with
    | .error e => makeReady env marker tmp p.allParts p.allJson w = .error e w
    | .ok stored => ∃ ready w', makeReady env marker tmp p.allParts p.allJson w =
        .ok (ready, stored) w' ∧ w'.known = w.known ∧ w'.requests = w.requests := by
  simp only [Part.stored]
  split
  · rename_i e he
    split at he
    · cases he
    · rename_i hlen
      simp only [makeReady, if_neg hlen, hinherited]
      split at he
      · cases he
      · rename_i hskip
        rw [if_neg hskip, bind_of_ok (m := get) rfl]
        cases hgen : generateWbpFile env w.registry { parts := p.allParts, json := p.allJson }
            inherited with
        | error e' =>
            rw [hgen] at he
            obtain rfl := Except.error.inj he
            rfl
        | ok directory =>
            rw [hgen] at he
            cases he
  · rename_i stored hs
    split at hs
    · rename_i hlen
      obtain rfl := Except.ok.inj hs
      simp only [makeReady, if_pos hlen]
      exact ⟨(tmp, true), _, rfl, rfl, rfl⟩
    · rename_i hlen
      simp only [makeReady, if_neg hlen, hinherited]
      split at hs
      · rename_i hskip
        obtain rfl := Except.ok.inj hs
        exact ⟨(tmp, false), w, by rw [if_pos hskip]; rfl, rfl, rfl⟩
      · rename_i hskip
        rw [if_neg hskip, bind_of_ok (m := get) rfl]
        cases hgen : generateWbpFile env w.registry { parts := p.allParts, json := p.allJson }
            inherited with
        | error e' =>
            rw [hgen] at hs
            cases hs
        | ok directory =>
            rw [hgen] at hs
            obtain rfl := Except.ok.inj hs
            exact ⟨(tmp, false), w, rfl, rfl, rfl⟩

theorem marker_inherited (hd : env.Digests) (id : BlockId) (positions : List Nat) :
    (marker env id positions).block.bind (fun block => (resolveHashTypes block).toOption) =
      some [env.hashType] := by
  have hne : env.hashType ≠ [] := hd []
  simp [marker, blockPointer, resolveHashTypes, resolveLoop, hne, Except.toOption]

-- The new block is then what its stream says, under its name.
theorem finishBlock_stored (hd : env.Digests) (id : BlockId) (positions : List Nat) (tmp : Nat)
    (p : Part) (stream : Yielded Event) (hashers : List Bytes) (w : World)
    (habsent : w.registry.lookup id = none) :
    match p.storedBlock env w.registry id with
    | .error e => finishBlock env (marker env id positions) id tmp
        (p.allParts, ⟨stream, p.allJson, hashers ++ [p.content]⟩) w = .error e w
    | .ok stored => ∃ w', finishBlock env (marker env id positions) id tmp
        (p.allParts, ⟨stream, p.allJson, hashers ++ [p.content]⟩) w = .ok hashers w' ∧
        w'.known = { w.known with registry := w.registry.store id stored } ∧
        w'.requests = w.requests := by
  have hready := @makeReady_stored env (marker env id positions) tmp p w _
    (marker_inherited hd id positions)
  simp only [finishBlock, List.getLast?_append, List.getLast?_singleton, Option.some_or,
    Option.getD_some, List.dropLast_concat, Part.storedBlock]
  by_cases hdigest : env.hashFactory p.content = id
  · rw [if_neg (not_not.mpr hdigest), if_neg (not_not.mpr hdigest)]
    split
    · rename_i e hs
      rw [hs] at hready
      exact bind_of_error hready
    · rename_i stored hs
      rw [hs] at hready
      obtain ⟨ready, w', hmade, hknown, hrequests⟩ := hready
      have hregistry : w'.registry = w.registry := congrArg Known.registry hknown
      have hexists : w'.registry.blockExists id = false :=
        Registry.blockExists_eq_false.mpr (hregistry ▸ habsent)
      have hpublish : publish id ready stored w' = .ok ()
          { w' with
            scratch := w'.scratch.filter (· ≠ ready)
            registry := w'.registry.store id stored } := by
        rw [publish, bind_of_ok (m := get) rfl, hexists]
        rfl
      rw [bind_of_ok hmade]
      refine ⟨_, bind_of_ok hpublish, ?_, hrequests⟩
      rw [← hknown, ← hregistry]
      rfl
  · rw [if_pos hdigest, if_pos hdigest]
    rfl

theorem quiet_length (closing : List Event) : (Closing.quiet closing).length ≤ closing.length := by
  unfold Closing.quiet
  split
  · simp
  · exact Nat.le_refl _

theorem quiet_avoids (id other : BlockId) {closing after : List Event} {n : Nat}
    (h : Closing env id closing after n) : Avoids env other (Closing.quiet closing) := by
  intro b hb
  cases h with
  | inner positions =>
      simp only [Closing.quiet, List.mem_cons, reduceCtorEq, Event.buffer.injEq, List.not_mem_nil,
        or_false, false_or] at hb
      simp [hb, clearBlock_blockHash]
  | outermost => simp [Closing.quiet] at hb
  | cut => simp [Closing.quiet] at hb

-- What a reader gets of a block behind its start marker, where the block's stream carries the
-- forest: thrown away it leaves `after`, and what stop_generator lets through of it is read as
-- the forest is absorbed. It takes `n` of the requests.
structure Reads (env : Enviroment) (id : BlockId) (forest : Forest) (items quiet after : List Event)
    (n : Nat) : Prop where
  stop : stopGenerator env (.pure items) id = (.pure quiet, .pure after)
  drain (w : World) : ∃ w', drain env control id none items w = .ok (.pure after) w' ∧
    w'.known = w.known.drain control forest ∧ w'.requests = w.requests.drop n
  read (hashers : List Bytes) (p : Part) (w : World) (hw : w.Sound env) :
    match absorb env control w.known p forest with
    | .error failure => Raises (resume control env hashers p quiet) w failure
    | .ok (k, q) => ∃ w', resume control env hashers p quiet w =
        .ok (q.allParts, ⟨.pure [], q.allJson, feed q.content hashers⟩) w' ∧
        w'.known = k ∧ w'.requests = w.requests.drop n
  avoids : Avoids env id quiet
  quiet_le : quiet.length ≤ items.length
  after_le : after.length ≤ items.length

-- A block whose forest is complete, however its stream goes on.
theorem Simulates.reads (hd : env.Digests) {body : Forest} (hbody : Simulates control env body)
    {id : BlockId} {blocks : List BlockId} (hnests : body.Nests (id :: blocks))
    {closing after : List Event} {n : Nat} (hclosing : Closing env id closing after n) :
    Reads control env id body (body.events env ++ closing)
      (body.events env ++ Closing.quiet closing) after ((body.stream env).length + n) where
  stop := stopGenerator_closing hd hnests hclosing
  drain := drain_closing control hd hnests hclosing
  read hashers p w hw := by
    have hsim := hbody hashers p (Closing.quiet closing) w hw
    split
    · rename_i e he
      rw [he] at hsim
      exact hsim
    · rename_i k q hkq
      rw [hkq] at hsim
      obtain ⟨w₁, hresume, hknown₁, hrequests₁, -⟩ := hsim
      obtain ⟨w₂, hquiet, hknown₂, hrequests₂⟩ :=
        @resume_quiet env control hashers q _ _ _ _ hclosing w₁
      refine ⟨w₂, hresume.trans hquiet, hknown₂.trans hknown₁, ?_⟩
      rw [hrequests₂, hrequests₁, List.drop_drop]
  avoids b hb := by
    rcases List.mem_append.mp hb with hb | hb
    · exact hnests.avoids hd id (List.mem_cons_self ..) b hb
    · exact quiet_avoids id id hclosing b hb
  quiet_le := by
    have := quiet_length closing
    simp only [List.length_append]
    omega
  after_le := by
    cases hclosing with
    | inner => simp only [List.length_append, List.length_cons]; omega
    | outermost => exact Nat.zero_le _
    | cut => exact Nat.zero_le _

-- A block that is not here yet: from its first buffer to its name.
theorem saveBlockContent_reads (hd : env.Digests) {id : BlockId} {body : Forest}
    {items quiet after : List Event} {n : Nat} (h : Reads control env id body items quiet after n)
    (positions : List Nat) (hashers : List Bytes) (fuel : Nat) (hfuel : quiet.length ≤ fuel)
    (w : World) (hw : w.Sound env) (hnew : w.registry.lookup id = none) :
    match absorb env control w.known {} body with
    | .error failure => Raises (saveBlockContent env control (saveChunksToBlock env control fuel)
        (marker env id positions) id (.pure quiet) hashers) w failure
    | .ok (k, q) =>
        match k.storeBlock env id q with
        | .error failure => Raises (saveBlockContent env control (saveChunksToBlock env control fuel)
            (marker env id positions) id (.pure quiet) hashers) w failure
        | .ok k => ∃ w', saveBlockContent env control (saveChunksToBlock env control fuel)
            (marker env id positions) id (.pure quiet) hashers w = .ok (feed q.content hashers) w' ∧
            w'.known = k ∧ w'.requests = w.requests.drop n := by
  -- the world in which the scratch directory has been made
  have hsound : World.Sound env
      { w with next := w.next + 1, scratch := (w.next, false) :: w.scratch, blockDir := true } := by
    refine ⟨hw.addressed, fun path hp => ?_⟩
    rcases List.mem_cons.mp hp with rfl | hp
    · exact Nat.lt_succ_self _
    · exact (hw.fresh path hp).trans (Nat.lt_succ_self _)
  generalize hw₀ : ({ w with
    next := w.next + 1, scratch := (w.next, false) :: w.scratch, blockDir := true } : World) = w₀ at hsound
  have hknown₀ : w₀.known = w.known := by rw [← hw₀]; rfl
  have hrequests₀ : w₀.requests = w.requests := by rw [← hw₀]
  have hnew₀ : w₀.registry.lookup id = none := by rw [← hw₀]; exact hnew
  have hcontent : ∀ result, tryCatch (writeBlock env control (saveChunksToBlock env control fuel)
        (marker env id positions) id w.next (.pure quiet) hashers) (abandon w.next) w₀ = result →
      saveBlockContent env control (saveChunksToBlock env control fuel) (marker env id positions)
        id (.pure quiet) hashers w = result := by
    intro result h
    rw [← h, ← hw₀]
    rfl
  -- what is raised is raised again once the scratch paths have been removed
  have hraise : ∀ failure, Raises (writeBlock env control (saveChunksToBlock env control fuel)
        (marker env id positions) id w.next (.pure quiet) hashers) w₀ failure →
      Raises (saveBlockContent env control (saveChunksToBlock env control fuel)
        (marker env id positions) id (.pure quiet) hashers) w failure := by
    rintro failure ⟨w', hw', hasked⟩
    exact ⟨_, hcontent _ (tryCatch_of_error hw'), hasked⟩
  have hloop : savePartsLoop control (saveChunksToBlock env control fuel) (quiet.length + 1)
      (marker env id positions).chunk 1 [] { stream := .pure quiet, hashers := hashers ++ [[]] } =
      resume control env (hashers ++ [[]]) {} quiet := by
    have hstart := @resume_eq env control (hashers ++ [[]]) {} quiet fuel
      (quiet.length + 1) hfuel (Nat.lt_succ_self _)
    rw [feed_nil] at hstart
    exact (savePartsLoop_start ..).trans hstart
  have hread := h.read (hashers ++ [[]]) {} w₀ hsound
  rw [hknown₀] at hread
  split
  · rename_i failure hfailure
    rw [hfailure] at hread
    exact hraise failure (Raises.bind (hread.of_eq (congrFun hloop w₀)))
  · rename_i k q hkq
    rw [hkq] at hread
    obtain ⟨w₁, hresume, hknown₁, hrequests₁⟩ := hread
    have hparts := (congrFun hloop w₀).trans hresume
    have hregistry : w₁.registry = k.registry := congrArg Known.registry hknown₁
    have habsent : w₁.registry.lookup id = none := by
      have hframe := ((savePartsLoop_spec control (saveChunksToBlock_spec control fuel) _ _ _ _ _
        w₀ hsound).of_ok hparts)
      obtain ⟨more, -, hsaved⟩ := hframe
      rw [(hsaved.frame id h.avoids).1, hnew₀]
    have hfinish := finishBlock_stored hd id positions w.next q (.pure []) (feed q.content hashers)
      w₁ habsent
    rw [hregistry] at hfinish
    have hfed : feed q.content (hashers ++ [[]]) = feed q.content hashers ++ [q.content] :=
      feed_append ..
    rw [hfed] at hparts
    simp only [Known.storeBlock]
    cases hstored : q.storedBlock env k.registry id with
    | error e =>
        rw [hstored] at hfinish
        exact hraise _ ⟨w₁, (bind_of_ok hparts).trans hfinish, congrArg Known.asked hknown₁⟩
    | ok stored =>
        rw [hstored] at hfinish
        obtain ⟨w', hw', hknown', hrequests'⟩ := hfinish
        refine ⟨w', hcontent _ (tryCatch_of_ok ((bind_of_ok hparts).trans hw')), ?_, ?_⟩
        · rw [hknown', hknown₁]
        · rw [hrequests', hrequests₁, hrequests₀]

theorem marker_pointer (hd : env.Digests) {id : BlockId} (hid : id ≠ []) (positions : List Nat) :
    ((marker env id positions).block.bind fun block =>
      (truthy (blockIdFromPointer env block)).map fun id => (id, block.previousLengthsPosition)) =
        some (id, positions) := by
  have hpointer := blockIdFromPointer_blockPointer env hd id positions
  simp only [marker, Option.bind_some, hpointer, truthy_eq_some.mpr ⟨rfl, hid⟩, Option.map_some]

theorem saveChunksToBlock_reads (hd : env.Digests) {id : BlockId} {body : Forest}
    {items quiet after : List Event} {n : Nat} (h : Reads control env id body items quiet after n)
    (hid : id ≠ []) (positions : List Nat) {json : List JsonEntry} (hjson : json ≠ [])
    (hashers : List Bytes) (fuel : Nat) (hfuel : items.length < fuel) (w : World)
    (hw : w.Sound env) :
    match absorbBody env control w.known id body with
    | .error failure => Raises (saveChunksToBlock env control fuel (marker env id positions)
        ⟨.pure items, json, hashers⟩) w failure
    | .ok (k, content) => ∃ w', saveChunksToBlock env control fuel (marker env id positions)
        ⟨.pure items, json, hashers⟩ w =
          .ok ⟨.pure after, json ++ [.block id positions], feed content hashers⟩ w' ∧
        w'.known = k ∧ w'.requests = w.requests.drop n := by
  obtain ⟨fuel, rfl⟩ : ∃ m, fuel = m + 1 := ⟨fuel - 1, by omega⟩
  have hpointer := marker_pointer hd hid positions
  have hregistry : w.known.registry = w.registry := rfl
  simp only [absorbBody, hregistry]
  by_cases hexists : w.registry.blockExists id
  · simp only [saveChunksToBlock, hpointer, if_neg hjson, hexists, if_true]
    rw [bind_of_ok (m := get) rfl]
    simp only [hexists, if_true]
    obtain ⟨w', hdrain, hknown, hrequests⟩ := h.drain w
    obtain ⟨stored, hl⟩ := Registry.blockExists_eq_true.mp hexists
    obtain ⟨content, hcontent, -⟩ := hw.addressed id stored hl
    have hkeeps := ((drain_keeps control id none _ w hw).of_ok hdrain)
    have hregistry' : w'.registry = w.registry := hkeeps.2.1
    have hrun : (drain env control id (Yielded.pure items).raised (Yielded.pure items).items) w =
        .ok (.pure after) w' := hdrain
    rw [bind_of_ok hrun]
    by_cases hnil : hashers = []
    · rw [if_pos hnil]
      refine ⟨w', ?_, hknown, hrequests⟩
      rw [hnil]
      rfl
    · obtain ⟨pieces, hpieces, hbytes⟩ := readBlock_flat
        hkeeps.1.addressed.filesNamed 1 (hregistry' ▸ hcontent : w'.registry.expansion id = some _)
      rw [if_neg hnil, bind_of_ok (m := get) rfl]
      simp only [hpieces, Yielded.pure, contentOf_pieces, hbytes, Registry.content, hcontent,
        Option.getD_some]
      exact ⟨w', rfl, hknown, hrequests⟩
  · have hnew := Registry.blockExists_eq_false.mp (Bool.eq_false_of_not_eq_true hexists)
    have hquiet := h.quiet_le
    have hcontent := saveBlockContent_reads control hd h positions hashers fuel (by omega) w hw hnew
    have hrun : saveChunksToBlock env control (fuel + 1) (marker env id positions)
        ⟨.pure items, json, hashers⟩ w =
        (saveBlockContent env control (saveChunksToBlock env control fuel) (marker env id positions)
          id (.pure quiet) hashers >>= fun hashers =>
            pure ⟨.pure after, json ++ [.block id positions], hashers⟩) w := by
      simp only [saveChunksToBlock, hpointer, if_neg hjson]
      rw [bind_of_ok (m := get) rfl]
      simp only [if_neg hexists, h.stop]
    simp only [if_neg hexists]
    cases habsorb : absorb env control w.known {} body with
    | error failure =>
        rw [habsorb] at hcontent
        exact hcontent.bind.of_eq hrun
    | ok result =>
        obtain ⟨k, q⟩ := result
        rw [habsorb] at hcontent
        simp only [ok_bind] at hcontent ⊢
        cases hstored : k.storeBlock env id q with
        | error failure =>
            rw [hstored] at hcontent
            exact hcontent.bind.of_eq hrun
        | ok k' =>
            rw [hstored] at hcontent
            obtain ⟨w', hw', hknown, hrequests⟩ := hcontent
            exact ⟨w', hrun.trans (bind_of_ok hw'), hknown, hrequests⟩

theorem saveChunksToBlock_keeps (fuel : Nat) (opening : Buffer) (reading reading' : Reading)
    (w w' : World) (hw : w.Sound env)
    (h : saveChunksToBlock env control fuel opening reading w = .ok reading' w') :
    Keeps env w w' :=
  ((saveChunksToBlock_spec control fuel opening reading w hw).of_ok h).keeps

-- A block takes the loop to its next part.
theorem savePartsLoop_marker (saveBlock : Buffer → Reading → Save Reading) (fuel : Nat)
    (current : Bytes) (index : Nat) (parts : List (Nat × Bytes)) (json : List JsonEntry)
    (hashers : List Bytes) (id : BlockId) (positions : List Nat) (items : List Event) (w : World) :
    savePartsLoop control saveBlock (fuel + 1) (some current) index parts
        ⟨.pure (.pull :: .ask id :: .buffer (marker env id positions) :: items), json, hashers⟩ w =
      (saveBlock (marker env id positions)
          ⟨.pure items, json ++ [.part index], feed current hashers⟩ >>= fun reading =>
        savePartsLoop control saveBlock fuel none (index + 1) (parts ++ [(index, current)]) reading)
        ((w.after control .pull).after control (.ask id)) := by
  refine Eq.trans (b := ((saveBlock (marker env id positions)
    ⟨.pure items, json ++ [.part index], feed current hashers⟩ >>= fun reading =>
      (pure ⟨false, current, reading⟩ : Save SavedFile)) >>= fun file =>
        if file.ended then pure (parts ++ [(index, file.content)], file.reading)
        else savePartsLoop control saveBlock fuel none (index + 1)
          (parts ++ [(index, file.content)]) file.reading)
    ((w.after control .pull).after control (.ask id))) rfl ?_
  rw [bind_assoc]
  rfl

-- The loop over the parts goes on behind the block.
theorem resume_block (hd : env.Digests) {id : BlockId} {body : Forest}
    {items quiet after : List Event} {n : Nat} (h : Reads control env id body items quiet after n)
    (hid : id ≠ []) (positions : List Nat) (hashers : List Bytes) (p : Part) (w : World)
    (hw : w.Sound env) :
    match absorbBody env control (w.known.ask control id) id body with
    | .error failure => Raises (resume control env hashers p
        (.pull :: .ask id :: .buffer (marker env id positions) :: items)) w failure
    | .ok (k, content) => ∃ w', resume control env hashers p
        (.pull :: .ask id :: .buffer (marker env id positions) :: items) w =
          resume control env hashers (p.block id positions content) after w' ∧
        w'.known = k ∧ w'.requests = w.requests.drop (1 + n) ∧ Keeps env w w' := by
  have hasked := after_known control (w.after control .pull) id
  have hsound₁ := hw.keeps (after_keeps control .pull w hw)
  have hkeeps₁ := (after_keeps control .pull w hw).trans (after_keeps control (.ask id) _ hsound₁)
  have hrequests₁ := after_ask_requests control (w.after control .pull) id
  generalize hw₁ : (w.after control .pull).after control (.ask id) = w₁ at hasked hkeeps₁ hrequests₁
  have hknown : (w.after control .pull).known = w.known := rfl
  rw [hknown] at hasked
  have hjson : p.json ++ [.part p.index] ≠ [] := by simp
  have hblock := saveChunksToBlock_reads control hd h hid positions hjson (feed p.current (feed p.fed hashers))
    (items.length + 1 + 1 + 1 + 1) (by omega) w₁ (hw.keeps hkeeps₁)
  rw [hasked] at hblock
  have hrun := @savePartsLoop_marker env control (saveChunksToBlock env control
    (items.length + 1 + 1 + 1 + 1)) (items.length + 1 + 1 + 1) p.current p.index p.parts p.json
    (feed p.fed hashers) id positions items w
  rw [hw₁] at hrun
  have hlen := h.after_le
  have hdrop : w₁.requests.drop n = w.requests.drop (1 + n) := by
    rw [hrequests₁, World.after, List.drop_tail, Nat.add_comm]
  split
  · rename_i failure hfailure
    rw [hfailure] at hblock
    exact hblock.bind.of_eq hrun
  · rename_i k content hk
    rw [hk] at hblock
    obtain ⟨w', hw', hknown', hrequests'⟩ := hblock
    refine ⟨w', hrun.trans ((bind_of_ok hw').trans ?_), hknown', hrequests'.trans hdrop,
      hkeeps₁.trans (saveChunksToBlock_keeps control _ _ _ _ w₁ w' (hw.keeps hkeeps₁) hw')⟩
    rw [savePartsLoop_start]
    have hnext := @resume_eq env control hashers (p.block id positions content) after
      (items.length + 1 + 1 + 1 + 1) (items.length + 1 + 1 + 1) (by omega) (by omega)
    rw [← hnext, feed_feed, feed_feed]
    simp only [Part.block, List.append_assoc, List.singleton_append]

-- A forest is read as it is absorbed.
theorem resume_forest (hd : env.Digests) (forest : Forest) (blocks : List BlockId)
    (hnests : forest.Nests blocks) : Simulates control env forest := by
  induction forest generalizing blocks with
  | nil => exact fun hashers p items w hw => ⟨w, rfl, rfl, rfl, .refl hw.addressed⟩
  | chunk skip content rest ih =>
      intro hashers p items w hw
      have hkeeps := after_keeps control .pull w hw
      have hrest := ih blocks hnests hashers (p.chunk content) items (w.after control .pull)
        (hw.keeps hkeeps)
      have hstep : resume control env hashers p
          ((Forest.chunk skip content rest).events env ++ items) w =
          resume control env hashers (p.chunk content) (rest.events env ++ items)
            (w.after control .pull) := resume_chunk control hashers p skip content _ w
      simp only [absorb]
      split
      · rename_i failure hfailure
        rw [show (w.after control .pull).known = w.known from rfl, hfailure] at hrest
        exact hrest.of_eq hstep
      · rename_i k q hq
        rw [show (w.after control .pull).known = w.known from rfl, hq] at hrest
        obtain ⟨w', hw', hknown, hrequests, hkeeps'⟩ := hrest
        refine ⟨w', hstep.trans hw', hknown, ?_, hkeeps.trans hkeeps'⟩
        rw [hrequests, World.after, List.drop_tail, Forest.stream, List.length_cons]
  | block id positions body rest ihBody ihRest =>
      obtain ⟨hid, hnew, hdepth, hbody, hrest⟩ := hnests
      intro hashers p items w hw
      have hblock := resume_block control hd ((ihBody _ hbody).reads control hd hbody
        (.inner positions (rest.events env ++ items))) hid positions hashers p w hw
      have hevents : (Forest.block id positions body rest).events env ++ items =
          .pull :: .ask id :: .buffer (marker env id positions) :: (body.events env ++
            .pull :: .buffer (marker env id positions) :: (rest.events env ++ items)) := by
        simp [Forest.events]
      rw [hevents, absorb_block]
      cases habsorb : absorbBody env control (w.known.ask control id) id body with
      | error failure =>
          rw [habsorb] at hblock
          exact hblock
      | ok result =>
          obtain ⟨k, content⟩ := result
          rw [habsorb] at hblock
          obtain ⟨w', hw', hknown, hrequests, hkeeps⟩ := hblock
          have hafter := ihRest blocks hrest hashers (p.block id positions content) items w'
            (hw.keeps hkeeps)
          rw [hknown] at hafter
          simp only [Except.bind]
          split
          · rename_i failure hfailure
            rw [hfailure] at hafter
            exact hafter.of_eq hw'
          · rename_i k' q hq
            rw [hq] at hafter
            obtain ⟨w'', hw'', hknown', hrequests', hkeeps'⟩ := hafter
            refine ⟨w'', hw'.trans hw'', hknown', ?_, hkeeps.trans hkeeps'⟩
            rw [hrequests', hrequests, List.drop_drop, Forest.stream]
            simp only [List.length_cons, List.length_append, List.cons_append]
            congr 1
            omega

end Resume

end BeeRpc
