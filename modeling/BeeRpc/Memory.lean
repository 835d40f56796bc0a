import BeeRpc.Arrival

namespace BeeRpc

open Wire Effect Naming

namespace Forest

-- The names of all blocks in it, at any depth.
def names : Forest → List BlockId
  | nil => []
  | chunk _ _ rest => rest.names
  | block id _ body rest => id :: body.names ++ rest.names

-- What a message in memory is made of: a block that is held is taken from the registry.
def bytes (registry : Registry) : Forest → Bytes
  | nil => []
  | chunk _ content rest => content ++ rest.bytes registry
  | block id _ body rest =>
      (if registry.blockExists id then registry.content id else body.bytes registry) ++
        rest.bytes registry

end Forest

-- What parse_message takes of a block that is held.
def Registry.readContent (env : Enviroment) (registry : Registry) (id : BlockId) :
    Except Err Bytes :=
  let read := readBlock env registry id
  match read.raised with
  | some e => .error e
  | none => .ok (contentOf read.items)

def Registry.contentOr (env : Enviroment) (registry : Registry) (id : BlockId)
    (body : Except Err Bytes) : Except Err Bytes :=
  if registry.blockExists id then registry.readContent env id else body

-- What it gathers of a forest, or what it raises where a block that is held cannot be read.
def Forest.gather (env : Enviroment) (registry : Registry) : Forest → Except Err Bytes
  | .nil => .ok []
  | .chunk _ content rest => do
      let more ← rest.gather env registry
      return content ++ more
  | .block id _ body rest => do
      let inner ← registry.contentOr env id (body.gather env registry)
      let more ← rest.gather env registry
      return inner ++ more

-- A run that raises what the gathering raises, or goes on with what was gathered.
def Goes {α β : Type} (run : EStateM.Result Err World β) (gathered : Except Err α)
    (next : α → EStateM.Result Err World β) : Prop :=
  match gathered with
  | .error e => ∃ w', run = .error e w'
  | .ok content => run = next content

theorem Goes.bind {α α' β : Type} {run : EStateM.Result Err World β} {first : Except Err α}
    {rest : α → Except Err α'} {next : α → EStateM.Result Err World β}
    {next' : α' → EStateM.Result Err World β} (h : Goes run first next)
    (hrest : ∀ content, Goes (next content) (rest content) next') :
    Goes run (first >>= rest) next' := by
  cases first with
  | error e => exact h
  | ok content =>
      have h : run = next content := h
      rw [ok_bind, h]
      exact hrest content

-- What one parser_iterator that is read to its end makes of the requests: all up to a separator
-- or to the end of a block outside all others, and what is then left. The flag says whether
-- the head is still to come.
inductive Stretches (env : Enviroment) : Bool → List Buffer → Forest → List Buffer → Prop where
  | separator (left : List Buffer) : Stretches env false (separatorBuffer :: left) .nil left
  | ended : Stretches env false [] .nil []
  | single (head : Head) (content : Bytes) (left : List Buffer) :
      Stretches env true (singleBuffer head content :: left) (.chunk none content .nil) left
  | head (head : Head) {rest : List Buffer} {forest : Forest} {left : List Buffer} :
      Stretches env false rest forest left →
      Stretches env true ({ head := some head } :: rest) forest left
  | chunk {headed : Bool} (skip : Option Block) (content : Bytes) {rest : List Buffer}
      {forest : Forest} {left : List Buffer} : Stretches env headed rest forest left →
      Stretches env headed (chunkBuffer skip content :: rest) (.chunk skip content forest) left
  | block {id : BlockId} (positions : List Nat) {body : Forest} (left : List Buffer) :
      id ≠ [] → body.Nests [id] →
      Stretches env false (marker env id positions :: body.stream env ++
        marker env id positions :: left) (.block id positions body .nil) left
  | cut {id : BlockId} (positions : List Nat) {cut : Cut} : id ≠ [] → cut.Nests [id] →
      Stretches env false (marker env id positions :: cut.stream env)
        (.block id positions cut.close .nil) []

-- A block that is held can be read, and has its own content.
def Registry.Reads (env : Enviroment) (registry : Registry) (id : BlockId) : Prop :=
  registry.blockExists id = true →
    ∃ chunks : List Bytes, readBlock env registry id = .pure (chunks.map .inl) ∧
      chunks.flatten = registry.content id

section

variable {receiver : Receiver} (raised : Option Err)

theorem afterAll_registry (control : Bool) (w : World) (events : List Event) :
    (w.afterAll control events).registry = w.registry := by
  induction events generalizing w with
  | nil => rfl
  | cons event rest ih => exact (ih _).trans (after_registry control w event)

-- What is not a buffer only happens.
theorem messageLoop_event {event : Event} (hevent : ∀ b, event ≠ .buffer b) (rest : List Event)
    (inBlock : Option BlockId) (acc : Bytes) (w : World) :
    receiver.messageLoop raised (event :: rest) inBlock acc w =
      receiver.messageLoop raised rest inBlock acc (w.after receiver.control event) := by
  cases event with
  | buffer b => exact absurd rfl (hevent b)
  | _ => rfl

-- The body of a block that is held is thrown away.
theorem messageLoop_avoids {id : BlockId} {items : List Event} (h : Avoids receiver.env id items)
    (more : List Event) (acc : Bytes) (w : World) :
    receiver.messageLoop raised (items ++ more) (some id) acc w =
      receiver.messageLoop raised more (some id) acc (w.afterAll receiver.control items) := by
  induction items generalizing w with
  | nil => rfl
  | cons event rest ih =>
      cases event with
      | buffer b =>
          have hb := h b (List.mem_cons_self ..)
          rw [List.cons_append, Receiver.messageLoop]
          cases hblock : b.block with
          | none => exact ih h.tail w
          | some block =>
              have hne : getHashFromBlock receiver.env block ≠ some id := by
                simpa [Buffer.blockHash, hblock] using hb
              simp only [Option.map_some, if_neg hne, Option.isSome_some, if_true]
              exact ih h.tail w
      | _ => exact ih h.tail _

-- The start of a block, or the end of one that is not thrown away.
theorem messageLoop_missing (hd : receiver.env.Digests) {id : BlockId} (hid : id ≠ [])
    (positions : List Nat) (more : List Event) (acc : Bytes) (w : World)
    (h : ¬ w.registry.blockExists id = true) :
    receiver.messageLoop raised (.buffer (marker receiver.env id positions) :: more) none acc w =
      receiver.messageLoop raised more none acc w := by
  have hhash := getHashFromBlock_blockPointer receiver.env hd id positions
  have hcontent : acc ++ (marker receiver.env id positions).content = acc := List.append_nil acc
  have hne : some id ≠ none := Option.some_ne_none id
  simp only [Receiver.messageLoop, marker, Option.map_some, hhash, if_neg hne, Option.isSome_none,
    Bool.false_eq_true, if_false, Option.getD_some, if_neg hid]
  rw [bind_of_ok (m := get) rfl, if_neg h]
  exact congrArg (fun acc => receiver.messageLoop raised more none acc w) hcontent

theorem messageLoop_held (hd : receiver.env.Digests) {id : BlockId} (hid : id ≠ [])
    (positions : List Nat) (more : List Event) (acc : Bytes) (w : World)
    (h : w.registry.blockExists id = true) :
    Goes (receiver.messageLoop raised (.buffer (marker receiver.env id positions) :: more) none acc w)
      (w.registry.readContent receiver.env id) fun content =>
        receiver.messageLoop raised more (some id) (acc ++ content) w := by
  have hhash := getHashFromBlock_blockPointer receiver.env hd id positions
  have hne : some id ≠ none := Option.some_ne_none id
  simp only [Receiver.messageLoop, marker, Option.map_some, hhash, if_neg hne, Option.isSome_none,
    Bool.false_eq_true, if_false, Option.getD_some, if_neg hid]
  rw [bind_of_ok (m := get) rfl, if_pos h, Registry.readContent]
  cases (readBlock receiver.env w.registry id).raised with
  | none => exact Eq.refl _
  | some e => exact ⟨w, rfl⟩

theorem messageLoop_end (hd : receiver.env.Digests) (id : BlockId) (positions : List Nat)
    (more : List Event) (acc : Bytes) (w : World) :
    receiver.messageLoop raised (.buffer (marker receiver.env id positions) :: more) (some id) acc w =
      receiver.messageLoop raised more none acc w := by
  have hhash := getHashFromBlock_blockPointer receiver.env hd id positions
  have hcontent : acc ++ (marker receiver.env id positions).content = acc := List.append_nil acc
  simp only [Receiver.messageLoop, marker, Option.map_some, hhash, if_true]
  exact congrArg (fun acc => receiver.messageLoop raised more none acc w) hcontent

-- The content of a forest is gathered, that of a block from the stream or from the registry.
theorem messageLoop_forest (hd : receiver.env.Digests) (forest : Forest) {blocks : List BlockId}
    (hnests : forest.Nests blocks) (more : List Event) (acc : Bytes) (w : World) :
    Goes (receiver.messageLoop raised (forest.events receiver.env ++ more) none acc w)
      (forest.gather receiver.env w.registry) fun content =>
        receiver.messageLoop raised more none (acc ++ content)
          (w.afterAll receiver.control (forest.events receiver.env)) := by
  induction forest generalizing blocks more acc w with
  | nil =>
      show _ = receiver.messageLoop raised more none (acc ++ []) w
      rw [List.append_nil]
      rfl
  | chunk skip content rest ih =>
      have hrest := ih hnests more (acc ++ content) (w.after receiver.control .pull)
      refine Goes.bind hrest fun more' => ?_
      show _ = receiver.messageLoop raised more none (acc ++ (content ++ more')) _
      rw [← List.append_assoc]
      rfl
  | block id positions body rest ihBody ihRest =>
      obtain ⟨hid, -, -, hbody, hrest⟩ := hnests
      have hw₁ := after_registry receiver.control (w.after receiver.control .pull) (.ask id)
      have hstart : receiver.messageLoop raised
          ((Forest.block id positions body rest).events receiver.env ++ more) none acc w =
          receiver.messageLoop raised (.buffer (marker receiver.env id positions) ::
            (body.events receiver.env ++ .pull :: .buffer (marker receiver.env id positions) ::
              (rest.events receiver.env ++ more))) none acc
            ((w.after receiver.control .pull).after receiver.control (.ask id)) := by
        simp only [Forest.events, List.cons_append, List.append_assoc]
        rfl
      have hall : w.afterAll receiver.control
          ((Forest.block id positions body rest).events receiver.env) =
          ((((w.after receiver.control .pull).after receiver.control (.ask id)).afterAll
            receiver.control (body.events receiver.env)).after receiver.control .pull).afterAll
              receiver.control (rest.events receiver.env) := by
        rw [Forest.events, afterAll_append]
        rfl
      rw [hstart, hall, Forest.gather, Registry.contentOr]
      generalize (w.after receiver.control .pull).after receiver.control (.ask id) = w₁ at hw₁
      have hw₁ : w₁.registry = w.registry := hw₁
      have hw₂ := (afterAll_registry receiver.control w₁ (body.events receiver.env)).trans hw₁
      -- what comes behind the block, with what was gathered of it
      have hbehind : ∀ inner : Bytes, Goes
          (receiver.messageLoop raised (rest.events receiver.env ++ more) none (acc ++ inner)
            ((w₁.afterAll receiver.control (body.events receiver.env)).after receiver.control .pull))
          (rest.gather receiver.env w.registry >>= fun behind => pure (inner ++ behind))
          fun content => receiver.messageLoop raised more none (acc ++ content)
            (((w₁.afterAll receiver.control (body.events receiver.env)).after receiver.control
              .pull).afterAll receiver.control (rest.events receiver.env)) := by
        intro inner
        have h := ihRest hrest more (acc ++ inner)
          ((w₁.afterAll receiver.control (body.events receiver.env)).after receiver.control .pull)
        rw [after_registry, hw₂] at h
        refine Goes.bind h fun behind => ?_
        show _ = receiver.messageLoop raised more none (acc ++ (inner ++ behind)) _
        rw [← List.append_assoc]
      by_cases hexists : w.registry.blockExists id = true
      · rw [if_pos hexists]
        have hheld := messageLoop_held raised hd hid positions
          (body.events receiver.env ++ .pull :: .buffer (marker receiver.env id positions) ::
            (rest.events receiver.env ++ more)) acc w₁ (hw₁ ▸ hexists)
        rw [hw₁] at hheld
        refine hheld.bind fun inner => ?_
        rw [messageLoop_avoids raised (hbody.avoids hd id (List.mem_cons_self ..)),
          messageLoop_event raised (fun _ => Event.noConfusion), messageLoop_end raised hd]
        exact hbehind inner
      · rw [if_neg hexists, messageLoop_missing raised hd hid positions _ acc w₁ (hw₁ ▸ hexists)]
        have hinside := ihBody hbody (.pull :: .buffer (marker receiver.env id positions) ::
          (rest.events receiver.env ++ more)) acc w₁
        rw [hw₁] at hinside
        refine hinside.bind fun inner => ?_
        rw [messageLoop_event raised (fun _ => Event.noConfusion),
          messageLoop_missing raised hd hid positions _ _ _ (by rwa [after_registry, hw₂])]
        exact hbehind inner

-- A block that can be read has its own content.
theorem Registry.Reads.content {env : Enviroment} {registry : Registry} {id : BlockId}
    (h : registry.Reads env id) (hexists : registry.blockExists id = true) :
    registry.readContent env id = .ok (registry.content id) := by
  obtain ⟨chunks, hread, hflatten⟩ := h hexists
  simp only [Registry.readContent, hread, Yielded.pure, contentOf_pieces, hflatten]

theorem gather_bytes {env : Enviroment} {registry : Registry} (forest : Forest)
    (hreads : ∀ id ∈ forest.names, registry.Reads env id) :
    forest.gather env registry = .ok (forest.bytes registry) := by
  induction forest with
  | nil => rfl
  | chunk skip content rest ih =>
      rw [Forest.gather, ih hreads]
      rfl
  | block id positions body rest ihBody ihRest =>
      have hbody := ihBody fun other ho =>
        hreads other (List.mem_cons_of_mem _ (List.mem_append_left _ ho))
      have hrest := ihRest fun other ho =>
        hreads other (List.mem_cons_of_mem _ (List.mem_append_right _ ho))
      rw [Forest.gather, hrest, Forest.bytes, Registry.contentOr]
      by_cases hexists : registry.blockExists id = true
      · rw [if_pos hexists, if_pos hexists, (hreads id (List.mem_cons_self ..)).content hexists]
        rfl
      · rw [if_neg hexists, if_neg hexists, hbody]
        rfl

theorem gather_append {env : Enviroment} (registry : Registry) (forest more : Forest) :
    (forest.append more).gather env registry = (do
      let content ← forest.gather env registry
      let behind ← more.gather env registry
      return content ++ behind) := by
  induction forest with
  | nil =>
      rw [Forest.append, Forest.gather, ok_bind]
      cases more.gather env registry <;> rfl
  | chunk skip content rest ih =>
      rw [Forest.append, Forest.gather, ih, Forest.gather]
      cases rest.gather env registry with
      | error e => rfl
      | ok inner =>
          cases more.gather env registry with
          | error e => rfl
          | ok behind => exact congrArg Except.ok (List.append_assoc ..).symm
  | block id positions body rest ihBody ihRest =>
      rw [Forest.append, Forest.gather, ihRest, Forest.gather]
      cases registry.contentOr env id (body.gather env registry) with
      | error e => rfl
      | ok first =>
          cases rest.gather env registry with
          | error e => rfl
          | ok inner =>
              cases more.gather env registry with
              | error e => rfl
              | ok behind => exact congrArg Except.ok (List.append_assoc ..).symm

theorem names_append (forest more : Forest) :
    (forest.append more).names = forest.names ++ more.names := by
  induction forest with
  | nil => rfl
  | chunk skip content rest ih => exact ih
  | block id positions body rest ihBody ihRest =>
      simp only [Forest.append, Forest.names, ihRest, List.cons_append, List.append_assoc]

-- A block that the stream ends in or behind.
theorem messageLoop_block (hd : receiver.env.Digests) {id : BlockId} (hid : id ≠ [])
    (positions : List Nat) {inner : List Event} {body : Forest}
    (havoids : Avoids receiver.env id inner) (acc : Bytes) (w : World)
    (hinner : ∀ (acc : Bytes) (w' : World), w'.registry = w.registry →
      Goes (receiver.messageLoop none inner none acc w') (body.gather receiver.env w.registry)
        fun content => .ok (acc ++ content) (w'.afterAll receiver.control inner)) :
    Goes (receiver.messageLoop none (.pull :: .ask id :: .buffer (marker receiver.env id positions) ::
        inner) none acc w)
      ((Forest.block id positions body .nil).gather receiver.env w.registry) fun content =>
        .ok (acc ++ content) (w.afterAll receiver.control (.pull :: .ask id ::
          .buffer (marker receiver.env id positions) :: inner)) := by
  have hw₁ := after_registry receiver.control (w.after receiver.control .pull) (.ask id)
  have hstart : receiver.messageLoop none (.pull :: .ask id ::
        .buffer (marker receiver.env id positions) :: inner) none acc w =
      receiver.messageLoop none (.buffer (marker receiver.env id positions) :: inner) none acc
        ((w.after receiver.control .pull).after receiver.control (.ask id)) := rfl
  have hall : w.afterAll receiver.control (.pull :: .ask id ::
        .buffer (marker receiver.env id positions) :: inner) =
      ((w.after receiver.control .pull).after receiver.control (.ask id)).afterAll
        receiver.control inner := rfl
  rw [hstart, hall]
  generalize (w.after receiver.control .pull).after receiver.control (.ask id) = w₁ at hw₁ ⊢
  have hw₁ : w₁.registry = w.registry := hw₁
  rw [Forest.gather, Registry.contentOr]
  by_cases hexists : w.registry.blockExists id = true
  · have hheld := messageLoop_held none hd hid positions inner acc w₁ (hw₁ ▸ hexists)
    rw [hw₁] at hheld
    rw [if_pos hexists]
    refine hheld.bind fun content => ?_
    have h := @messageLoop_avoids receiver none _ _ havoids [] (acc ++ content) w₁
    rw [List.append_nil] at h
    show _ = EStateM.Result.ok (acc ++ (content ++ [])) _
    rw [List.append_nil]
    exact h
  · rw [if_neg hexists, messageLoop_missing none hd hid positions _ _ w₁ (hw₁ ▸ hexists)]
    refine (hinner acc w₁ hw₁).bind fun content => ?_
    show _ = EStateM.Result.ok (acc ++ (content ++ [])) _
    rw [List.append_nil]

-- Where the requests come to their end inside blocks.
theorem messageLoop_cut (hd : receiver.env.Digests) (cut : Cut) {blocks : List BlockId}
    (hnests : cut.Nests blocks) (acc : Bytes) (w : World) :
    Goes (receiver.messageLoop none (cut.events receiver.env) none acc w)
      (cut.close.gather receiver.env w.registry) fun content =>
        .ok (acc ++ content) (w.afterAll receiver.control (cut.events receiver.env)) := by
  induction cut generalizing blocks acc w with
  | last forest =>
      have h := messageLoop_forest none hd forest hnests [] acc w
      rw [List.append_nil] at h
      exact h
  | inside before id positions inner ih =>
      obtain ⟨hbefore, hid, -, -, hinner⟩ := hnests
      have hw₀ := afterAll_registry receiver.control w (before.events receiver.env)
      rw [Cut.events, afterAll_append, Cut.close, gather_append]
      refine (messageLoop_forest none hd before hbefore _ acc w).bind fun front => ?_
      generalize w.afterAll receiver.control (before.events receiver.env) = w₀ at hw₀ ⊢
      have h := @messageLoop_block _ hd _ hid positions _ inner.close
        (hinner.avoids hd id (List.mem_cons_self ..)) (acc ++ front) w₀
        (fun acc w' hw' => hw' ▸ ih hinner acc w')
      rw [hw₀] at h
      refine h.bind fun behind => ?_
      show _ = EStateM.Result.ok (acc ++ (front ++ behind)) _
      rw [← List.append_assoc]

-- What is gathered of a message that begins here, and what is left then.
theorem Stretches.gathers (hd : receiver.env.Digests) {headed : Bool} {requests left : List Buffer}
    {forest : Forest} (h : Stretches receiver.env headed requests forest left) :
    ∃ items, parserIterator receiver.env [] [] requests = .pure items ∧
      ∀ (acc : Bytes) (w : World), w.requests = requests →
        Goes (receiver.messageLoop none items none acc w) (forest.gather receiver.env w.registry)
            (fun content => .ok (acc ++ content) (w.afterAll receiver.control items)) ∧
          (w.afterAll receiver.control items).known = w.known.drain receiver.control forest ∧
          (w.afterAll receiver.control items).requests = left := by
  induction h with
  | separator left =>
      refine ⟨[.pull], rfl, fun acc w hrequests => ⟨?_, rfl, congrArg List.tail hrequests⟩⟩
      show _ = EStateM.Result.ok (acc ++ []) _
      rw [List.append_nil]
      rfl
  | ended =>
      refine ⟨[], rfl, fun acc w hrequests => ⟨?_, rfl, hrequests⟩⟩
      show _ = EStateM.Result.ok (acc ++ []) _
      rw [List.append_nil]
      rfl
  | single head content left =>
      refine ⟨[.pull, .buffer (singleBuffer head content)], rfl, fun acc w hrequests =>
        ⟨?_, rfl, congrArg List.tail hrequests⟩⟩
      show _ = EStateM.Result.ok (acc ++ (content ++ [])) _
      rw [List.append_nil]
      rfl
  | head head _ ih =>
      obtain ⟨items, hitems, hgathers⟩ := ih
      refine ⟨.pull :: items, ?_, fun acc w hrequests => ?_⟩
      · rw [parserIterator_head, hitems, pure_andThen_pure]
        rfl
      · exact hgathers acc (w.after receiver.control .pull) (congrArg List.tail hrequests)
  | chunk skip content _ ih =>
      obtain ⟨items, hitems, hgathers⟩ := ih
      refine ⟨.pull :: .buffer (chunkBuffer skip content) :: items, ?_, fun acc w hrequests => ?_⟩
      · rw [parserIterator_chunk, hitems, pure_andThen_pure]
        rfl
      · obtain ⟨hloop, hleft⟩ := hgathers (acc ++ content) (w.after receiver.control .pull)
          (congrArg List.tail hrequests)
        refine ⟨Goes.bind hloop fun more => ?_, hleft⟩
        show _ = EStateM.Result.ok (acc ++ (content ++ more)) _
        rw [← List.append_assoc]
        rfl
  | @block id positions body left hid hbody =>
      refine ⟨_, parserIterator_topBlock hd positions body left hid hbody,
        fun acc w hrequests => ⟨?_, ?_⟩⟩
      · have havoids : Avoids receiver.env id (body.events receiver.env ++ [.pull]) := by
          intro b hb
          rcases List.mem_append.mp hb with hb | hb
          · exact hbody.avoids hd id (List.mem_cons_self ..) b hb
          · cases List.mem_singleton.mp hb
        refine messageLoop_block hd hid positions havoids acc w fun acc w' hw' => ?_
        have h := messageLoop_forest none hd body hbody [.pull] acc w'
        rw [hw'] at h
        rw [afterAll_append]
        exact h
      · have hasked := after_known receiver.control (w.after receiver.control .pull) id
        have hleft := after_ask_requests receiver.control (w.after receiver.control .pull) id
        have hall : w.afterAll receiver.control (.pull :: .ask id ::
              .buffer (marker receiver.env id positions) :: body.events receiver.env ++ [.pull]) =
            (((w.after receiver.control .pull).after receiver.control (.ask id)).afterAll
              receiver.control (body.events receiver.env)).after receiver.control .pull := by
          rw [afterAll_append]
          rfl
        rw [hall]
        generalize (w.after receiver.control .pull).after receiver.control (.ask id) = w₁
          at hasked hleft ⊢
        obtain ⟨hknown, hrest⟩ := @afterAll_forest receiver.env receiver.control body w₁
        constructor
        · exact hknown.trans (hasked ▸ rfl)
        · rw [World.after, hrest, hleft, World.after, hrequests, List.cons_append, List.tail_cons,
            List.drop_left, List.tail_cons]
  | @cut id positions cut hid hcut =>
      refine ⟨_, parserIterator_topCut hd positions cut hid hcut,
        fun acc w hrequests => ⟨?_, ?_⟩⟩
      · refine messageLoop_block hd hid positions (hcut.avoids hd id (List.mem_cons_self ..)) acc w
          fun acc w' hw' => ?_
        exact hw' ▸ messageLoop_cut hd cut hcut acc w'
      · have hasked := after_known receiver.control (w.after receiver.control .pull) id
        have hleft := after_ask_requests receiver.control (w.after receiver.control .pull) id
        have hall : w.afterAll receiver.control (.pull :: .ask id ::
              .buffer (marker receiver.env id positions) :: cut.events receiver.env) =
            ((w.after receiver.control .pull).after receiver.control (.ask id)).afterAll
              receiver.control (cut.events receiver.env) := rfl
        rw [hall]
        generalize (w.after receiver.control .pull).after receiver.control (.ask id) = w₁
          at hasked hleft ⊢
        obtain ⟨hknown, hrest⟩ := @afterAll_cut receiver.env receiver.control cut w₁
        constructor
        · exact hknown.trans (hasked ▸ rfl)
        · rw [hrest, hleft, World.after, hrequests, List.tail_cons, List.drop_length]

-- What is yielded for a message that this was gathered of.
def Receiver.turn (receiver : Receiver) (b : Buffer) (field : Field) (content : Bytes) :
    Except Err (Option Result) :=
  if content = [] then receiver.onEmpty b
  else (receiver.convert field content).map fun value => some (.value value)

theorem afterAll_keeps {env : Enviroment} (control : Bool) (items : List Event) (w : World)
    (hw : w.Sound env) : Keeps env w (w.afterAll control items) := by
  induction items generalizing w with
  | nil => exact .refl hw.addressed
  | cons event rest ih =>
      have hkeeps := after_keeps control event w hw
      exact hkeeps.trans (ih _ (hw.keeps hkeeps))

-- A message for the memory.
theorem receive_gathered (hd : receiver.env.Digests) {headed : Bool} {forest : Forest}
    {left : List Buffer} (b : Buffer) {field : Field} (w : World)
    (h : Stretches receiver.env headed w.requests forest left)
    (hfield : receiver.allIndices.lookup (receiver.indexOf b) = some field)
    (hmode : receiver.mode (receiver.indexOf b) = true) :
    ∃ items, Goes (receiver.receive b w) (forest.gather receiver.env w.registry) (fun content =>
        saveOf (receiver.turn b field content) (w.afterAll receiver.control items)) ∧
      (w.afterAll receiver.control items).known = w.known.drain receiver.control forest ∧
      (w.afterAll receiver.control items).requests = left := by
  obtain ⟨items, hitems, hgathers⟩ := h.gathers hd
  obtain ⟨hloop, hknown, hleft⟩ := hgathers [] w rfl
  refine ⟨items, ?_, hknown, hleft⟩
  rw [receive_eq b hfield, hmode]
  simp only [Receiver.iterateMessage, if_true, bind_assoc, pure_bind]
  rw [Receiver.parseMessage, bind_assoc, bind_of_ok (m := get) rfl, hitems, bind_assoc]
  cases hgathered : forest.gather receiver.env w.registry with
  | error e =>
      rw [hgathered] at hloop
      obtain ⟨w', hw'⟩ := hloop
      exact ⟨w', bind_of_error hw'⟩
  | ok content =>
      rw [hgathered] at hloop
      refine (bind_of_ok hloop).trans ?_
      show _ = saveOf (receiver.turn b field content) (w.afterAll receiver.control items)
      rw [List.nil_append, Receiver.turn]
      by_cases hempty : content = []
      · rw [if_pos hempty, if_pos hempty]
        rfl
      · rw [if_neg hempty, if_neg hempty]
        cases receiver.convert field content with
        | ok value => rfl
        | error e => rfl

-- Where every block that is held can be read.
theorem receive_memory (hd : receiver.env.Digests) {headed : Bool} {forest : Forest}
    {left : List Buffer} (b : Buffer) {field : Field} (w : World)
    (h : Stretches receiver.env headed w.requests forest left)
    (hreads : ∀ id ∈ forest.names, w.registry.Reads receiver.env id)
    (hfield : receiver.allIndices.lookup (receiver.indexOf b) = some field)
    (hmode : receiver.mode (receiver.indexOf b) = true) :
    ∃ items, receiver.receive b w =
        saveOf (receiver.turn b field (forest.bytes w.registry))
          (w.afterAll receiver.control items) ∧
      (w.afterAll receiver.control items).known = w.known.drain receiver.control forest ∧
      (w.afterAll receiver.control items).requests = left := by
  obtain ⟨items, hreceive, hleft⟩ := receive_gathered hd b w h hfield hmode
  rw [gather_bytes forest hreads] at hreceive
  exact ⟨items, hreceive, hleft⟩

end

end BeeRpc
