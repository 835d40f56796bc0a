import BeeRpc.Duplex

namespace BeeRpc

open Wire Effect Naming

-- The blocks that stand directly in an object.
def Stored.blocks : Stored → List BlockId
  | .file _ => []
  | .dir directory => directory.blocks.map Prod.fst

theorem Stored.FramedBy.blocks {registry : Registry} {stored : Stored} {forest : Forest}
    (h : stored.FramedBy registry forest) : forest.blocks.map Prod.fst = stored.blocks := by
  cases stored with
  | file content => rw [h.file content rfl, Stored.blocks, List.map_nil]
  | dir directory => rw [(h.dir directory rfl).blocks, Stored.blocks]

section Completeness

theorem Registry.Agrees.symm {left right : Registry} (h : left.Agrees right) : right.Agrees left :=
  fun id x y hx hy => (h id y x hy hx).symm

theorem Registry.Agrees.refl (registry : Registry) : registry.Agrees registry :=
  fun _ _ _ hx hy => Option.some.inj (hx.symm.trans hy)

-- A node that holds nothing yet.
theorem Registry.correct_nil (env : Enviroment) : Registry.Correct env [] :=
  ⟨fun _ _ hl => (by cases hl), fun _ _ hl => (by cases hl)⟩

theorem Registry.agrees_nil (registry : Registry) : registry.Agrees [] := by
  intro id x y _ hy
  obtain ⟨stored, hl⟩ := Registry.exists_lookup_of_expansion hy
  cases hl

-- A directory is laid out in the same way wherever its blocks have the same contents.
theorem Directory.Describes.transport {before after : Registry} {directory : Directory}
    {doc : Document BlockId} (h : directory.Describes before.content doc)
    (hsame : ∀ id ∈ doc.holes, after.expansion id = before.expansion id) :
    directory.Describes after.content doc := by
  have hcontent : ∀ id ∈ doc.holes, before.content id = after.content id := by
    intro id hid
    rw [Registry.content, Registry.content, hsame id hid]
  refine ⟨?_, ?_⟩
  · rw [h.runs, Document.pieces_congr _ _ doc hcontent]
  · rw [h.chains, Document.chains, Document.chains, Document.spine_congr _ _ 0 doc hcontent]

theorem Directory.Describes.blocks {directory : Directory} {fill : BlockId → Bytes}
    {doc : Document BlockId} (h : directory.Describes fill doc) :
    directory.blocks.map Prod.fst = doc.holes := by
  rw [h.chains, Document.chains_holes]

theorem Directory.Complete.transport {before after : Registry} {directory : Directory}
    (h : directory.Complete before)
    (hsame : ∀ id ∈ directory.blocks.map Prod.fst, after.expansion id = before.expansion id) :
    directory.Complete after := by
  obtain ⟨doc, hdoc, hholes⟩ := h.described
  have hblocks := hdoc.blocks
  refine ⟨h.woven, doc, hdoc.transport fun id hid => hsame id (hblocks ▸ hid), fun id hid => ?_⟩
  rw [hsame id (hblocks ▸ hid)]
  exact hholes id hid

theorem Stored.Complete.grows {before after : Registry} (hgrows : before.Grows after)
    {stored : Stored} (h : stored.Complete before) : stored.Complete after := by
  cases stored with
  | file content => trivial
  | dir directory =>
      refine Directory.Complete.transport h fun id hid => ?_
      obtain ⟨chain, hchain, rfl⟩ := List.mem_map.mp hid
      obtain ⟨content, hcontent⟩ := Directory.Complete.holds h chain hchain
      rw [hcontent, hgrows.expansion hcontent]

-- Everything that is stored is complete.
def Registry.AllComplete (registry : Registry) : Prop :=
  ∀ id stored, registry.lookup id = some stored → stored.Complete registry

theorem Registry.AllComplete.store {registry : Registry} (h : registry.AllComplete) {id : BlockId}
    {stored : Stored} (hnew : registry.lookup id = none) (hstored : stored.Complete registry) :
    (registry.store id stored).AllComplete := by
  have hgrows := Registry.Grows.store stored hnew
  intro other entry hl
  by_cases hother : other = id
  · subst hother
    rw [Registry.lookup_store_self] at hl
    obtain rfl := Option.some.inj hl
    exact hstored.grows hgrows
  · rw [Registry.lookup_store_ne _ _ hother] at hl
    exact (h other entry hl).grows hgrows

variable {env : Enviroment} {sender : Registry}

-- The copy of a complete object is complete.
theorem Stored.Mirrors.complete {forest : Forest} {content : Bytes} {registry : Registry}
    {stored : Stored} (h : stored.Mirrors forest content registry)
    (hlaid : forest.blocks ≠ [] → forest.Laid sender)
    (hsender : ∀ id ∈ forest.blocks.map Prod.fst, ∃ content, sender.expansion id = some content)
    (hsame : ∀ id ∈ forest.blocks.map Prod.fst, registry.expansion id = sender.expansion id) :
    stored.Complete registry := by
  by_cases hblocks : forest.blocks = []
  · rw [h.file hblocks]
    trivial
  · obtain ⟨directory, rfl, hjson, hruns⟩ := h.dir hblocks
    obtain ⟨doc, hlayout, hchains⟩ := hlaid hblocks
    have hown : directory.blocks = forest.blocks := weave_blocks 1 _ _ hjson
    have hcomplete : directory.Complete sender := by
      refine ⟨by rw [hown, hjson], doc, ⟨by rw [hruns, hlayout], by rw [hown, hchains]⟩, ?_⟩
      intro id hid
      refine hsender id ?_
      rw [hchains, Document.chains_holes]
      exact hid
    exact hcomplete.transport (hown ▸ hsame)

end Completeness

section Pointers

-- The pointer form is told by the layout and by what the blocks expand to.
theorem wbpBytes_same {env env' : Enviroment} (hsettings : env'.hashFactory = env.hashFactory)
    {before after : Registry} {directory copy : Directory} (h : directory.Complete before)
    (hjson : copy.json = directory.json)
    (hruns : copy.runs copy.json = directory.runs directory.json)
    (hsame : ∀ id ∈ directory.blocks.map Prod.fst, after.expansion id = before.expansion id)
    (inherited : Option (List Bytes)) :
    wbpBytes env' after copy inherited = wbpBytes env before directory inherited := by
  obtain ⟨doc, hdoc, hholes⟩ := h.described
  have hblocks : copy.blocks = directory.blocks := by
    rw [Directory.blocks, Directory.blocks, hjson]
  have hexpansion : ∀ id ∈ doc.holes, after.expansion id = before.expansion id :=
    fun id hid => hsame id (hdoc.blocks ▸ hid)
  have hcopy : copy.Describes before.content doc :=
    ⟨hruns.trans hdoc.runs, hblocks.trans hdoc.chains⟩
  have hafter : ∀ id ∈ doc.holes, after.expansion id = some (after.content id) := by
    intro id hid
    refine Registry.content_eq ?_
    rw [hexpansion id hid]
    exact hholes id hid
  have hpointers : ∀ id, blockPointerBytes env' id inherited.isSome =
      blockPointerBytes env id inherited.isSome := by
    intro id
    simp only [blockPointerBytes, blockPointer, Enviroment.hashType, hsettings]
  rw [wbpBytes_describes env' after (hcopy.transport hexpansion) hafter inherited,
    wbpBytes_describes env before hdoc (fun id hid => Registry.content_eq (hholes id hid)) inherited]
  exact congrArg Except.ok (Document.render_congr _ _ _ fun id _ => hpointers id)

-- What save_to_dir leaves: the pointer form of a directory, or none of it by the settings.
def Stored.Written (env : Enviroment) (registry : Registry) : Stored → Prop
  | .file _ => True
  | .dir directory => directory.wbp =
      if env.skipWbpGeneration then none else (wbpBytes env registry directory none).toOption

theorem Stored.Written.grows {env : Enviroment} {before after : Registry}
    (hgrows : before.Grows after) {stored : Stored} (hcomplete : stored.Complete before)
    (h : stored.Written env before) : stored.Written env after := by
  cases stored with
  | file content => trivial
  | dir directory =>
      have hsame := @wbpBytes_same env env rfl before after directory directory hcomplete rfl rfl
        (fun id hid => by
          obtain ⟨chain, hchain, rfl⟩ := List.mem_map.mp hid
          obtain ⟨content, hcontent⟩ := Directory.Complete.holds hcomplete chain hchain
          rw [hcontent, hgrows.expansion hcontent]) none
      simp only [Stored.Written, hsame]
      exact h

theorem stored_written {env : Enviroment} {registry : Registry} {p : Part} {stored : Stored}
    (h : p.stored env registry none = .ok stored) : stored.Written env registry := by
  unfold Part.stored at h
  split at h
  · obtain rfl := Except.ok.inj h
    trivial
  · simp only at h
    split at h
    · rename_i hskip
      obtain rfl := Except.ok.inj h
      simp only [Stored.Written, if_pos hskip]
    · rename_i hskip
      obtain ⟨directory, hgenerate, hstored⟩ := bind_eq_ok.mp h
      obtain rfl := Except.ok.inj hstored
      obtain ⟨wbp, hwbp, hdirectory⟩ := bind_eq_ok.mp hgenerate
      obtain rfl := Except.ok.inj hdirectory
      have hsame : wbpBytes env registry { parts := p.allParts, json := p.allJson, wbp := some wbp }
          none = .ok wbp := hwbp
      simp only [Stored.Written, if_neg hskip, hsame]
      rfl

end Pointers

section Receiving

variable {env : Enviroment} {sender : Registry} (control : Bool)

-- The blocks that a faithful forest leaves behind are those that were held and the sender's.
theorem Forest.Faithful.taken {forest : Forest} (h : forest.Faithful sender) (held : List BlockId) :
    ∀ id ∈ forest.taken held, id ∈ held ∨ ∃ content, sender.expansion id = some content := by
  induction forest generalizing held with
  | nil => exact fun id hid => Or.inl hid
  | chunk skip content rest ih => exact ih h held
  | block other positions body rest ihBody ihRest =>
      intro id hid
      rw [Forest.taken] at hid
      split at hid
      · exact ihRest h.2.2.2 held id hid
      · rcases ihRest h.2.2.2 _ id hid with hid | hid
        · rcases List.mem_cons.mp hid with rfl | hid
          · exact Or.inr ⟨_, h.1⟩
          · exact ihBody h.2.2.1 held id hid
        · exact Or.inr hid

-- The blocks directly in a forest that was absorbed stand for what they do at the sender.
theorem Known.Good.same {k : Known} (h : k.Good env sender) {forest : Forest} {held : List BlockId}
    (hheld : k.Holds (forest.taken held)) (hfaithful : forest.Faithful sender) :
    ∀ id ∈ forest.blocks.map Prod.fst, k.registry.expansion id = sender.expansion id := by
  intro id hid
  obtain ⟨content, hcontent⟩ := hfaithful.holds id hid
  rw [hcontent, h.expansion hcontent ((hheld id).mpr (forest.blocks_taken held id hid))]

theorem storeBlock_eq {id : BlockId} {q : Part} {k k' : Known}
    (h : k.storeBlock env id q = .ok k') : ∃ stored,
      q.stored env k.registry (some [env.hashType]) = .ok stored ∧
      k' = { k with registry := k.registry.store id stored } := by
  simp only [Known.storeBlock, Part.storedBlock] at h
  split at h
  · cases h
  · rename_i stored hstored
    split at hstored
    · cases hstored
    · exact ⟨stored, hstored, (Except.ok.inj h).symm⟩

-- A receiver with complete blocks only stores complete blocks of a sender whose own are.
theorem absorb_complete (hsender : sender.ContentAddressed env) (forest : Forest)
    (around : List BlockId) (hnests : forest.Nests around) (hfaithful : forest.Faithful sender)
    (k : Known) (p : Part) (hgood : k.Good env sender) (hall : k.registry.AllComplete)
    (held : List BlockId) (hheld : k.Holds held) {k' : Known} {q : Part}
    (h : absorb env control k p forest = .ok (k', q)) : k'.registry.AllComplete := by
  induction forest generalizing around k p held k' q with
  | nil =>
      obtain ⟨rfl, -⟩ := Prod.mk.inj (Except.ok.inj h)
      exact hall
  | chunk skip content rest ih =>
      exact ih around hnests hfaithful k (p.chunk content) hgood hall held hheld h
  | block id positions body rest ihBody ihRest =>
      obtain ⟨hid, hnew, -, hbody, hrest⟩ := hnests
      obtain ⟨hexpansion, hlaid, hfaithfulBody, hfaithfulRest⟩ := hfaithful
      have hasked : (k.ask control id).registry = k.registry := ask_registry control k id
      simp only [absorb] at h
      by_cases hexists : k.registry.blockExists id = true
      · rw [if_pos hexists] at h
        have hdrained : ((k.ask control id).drain control body).registry = k.registry :=
          (drain_registry control body _).trans hasked
        exact ihRest around hrest hfaithfulRest _ _ (hgood.of_registry hdrained)
          (hdrained ▸ hall) held (fun other => by rw [hdrained]; exact hheld other) h
      · rw [if_neg hexists] at h
        obtain ⟨k₁, q₁, habsorb₁, hgood₁, -, hheld₁, hcontent₁⟩ := absorb_faithful control hsender body
          (id :: around) hbody hfaithfulBody (k.ask control id) {} (hgood.of_registry hasked) held
          (fun other => by rw [hasked]; exact hheld other)
        have hall₁ := ihBody (id :: around) hbody hfaithfulBody (k.ask control id) {}
          (hgood.of_registry hasked) (hasked ▸ hall) held
          (fun other => by rw [hasked]; exact hheld other) habsorb₁
        have hdigest : env.hashFactory (body.expand sender.content) = id := by
          obtain ⟨entry, hl⟩ := Registry.exists_lookup_of_expansion hexpansion
          obtain ⟨bytes, hbytes, hid⟩ := hsender id entry hl
          rw [hexpansion] at hbytes
          rw [Option.some.inj hbytes, hid]
        have hmissing : k₁.registry.lookup id = none := by
          have hnot := hbody.not_taken (List.mem_cons_self ..) (mt (hheld id).mpr hexists)
          exact Registry.blockExists_eq_false.mp
            (Bool.eq_false_of_not_eq_true (mt (hheld₁ id).mp hnot))
        obtain ⟨k₂, hblock, hgood₂, -, hheld₂⟩ := store_absorbed control habsorb₁ hgood₁
          (fun hblocks => (hlaid hblocks).opens_self hblocks) hfaithfulBody.holds hheld₁ hbody
          (mt (hheld id).mpr hexists) hexpansion hdigest hcontent₁
        -- what is stored under the block's name is complete, as all others are
        obtain ⟨stored, hstored, rfl⟩ := storeBlock_eq hblock
        obtain ⟨copy, hcopy, hmirrors⟩ := stored_mirrors control habsorb₁ hgood₁
          (fun hblocks => (hlaid hblocks).opens_self hblocks) hfaithfulBody.holds
          (fun other hother => (hheld₁ other).mpr (body.blocks_taken held other hother))
          (some [env.hashType])
        obtain rfl := Except.ok.inj (hstored.symm.trans hcopy)
        have hcomplete := hmirrors.complete hlaid hfaithfulBody.holds
          (hgood₁.same hheld₁ hfaithfulBody)
        rw [habsorb₁] at h
        simp only [ok_bind, hblock] at h
        exact ihRest around hrest hfaithfulRest _ _ hgood₂ (hall₁.store hmissing hcomplete) _
          hheld₂ h

theorem absorbDir_complete (hsender : sender.ContentAddressed env) {stored : Stored} {forest : Forest}
    (hframed : stored.FramedBy sender forest) (k : Known) (hgood : k.Good env sender)
    (hall : k.registry.AllComplete) (held : List BlockId) (hheld : k.Holds held) {k' : Known}
    {received : Stored} (h : absorbDir env control k forest = .ok (k', received)) :
    k'.registry.AllComplete ∧ received.Complete k'.registry := by
  obtain ⟨k₁, copy, habsorbDir, hgood', -, hheld', hmirrors⟩ := absorbDir_faithful control hsender
    hframed k hgood held hheld
  obtain ⟨rfl, rfl⟩ := Prod.mk.inj (Except.ok.inj (h.symm.trans habsorbDir))
  refine ⟨?_, hmirrors.complete hframed.laid hframed.faithful.holds
    (hgood'.same hheld' hframed.faithful)⟩
  obtain ⟨⟨k₁, q⟩, habsorb, hfinish⟩ := bind_eq_ok.mp h
  have hall' := absorb_complete control hsender forest [] hframed.nests hframed.faithful k {} hgood
    hall held hheld habsorb
  simp only at hfinish
  split at hfinish
  · cases hfinish
  · obtain ⟨rfl, -⟩ := Prod.mk.inj (Except.ok.inj hfinish)
    exact hall'

theorem absorbDir_written {forest : Forest} {k k' : Known} {received : Stored}
    (h : absorbDir env control k forest = .ok (k', received)) :
    received.Written env k'.registry := by
  obtain ⟨⟨k₁, q⟩, -, hfinish⟩ := bind_eq_ok.mp h
  simp only at hfinish
  split at hfinish
  · cases hfinish
  · rename_i stored hstored
    obtain ⟨rfl, rfl⟩ := Prod.mk.inj (Except.ok.inj hfinish)
    exact stored_written hstored

end Receiving

section Relaying

-- A Dir that a peer can send on: it holds the sender's object, is complete where it has arrived,
-- and is flat where there are no blocks in the object.
structure Relayed (env : Enviroment) (sender receiver : Registry) (message : Outgoing) (dir : Dir) :
    Prop where
  delivered : Delivered sender receiver message dir
  complete : dir.stored.Complete receiver
  written : dir.stored.Written env receiver
  flat : message.stored.blocks = [] → ∃ content, dir.stored = .file content

theorem Relayed.mono {env : Enviroment} {sender before after : Registry} {message : Outgoing}
    {dir : Dir} (hgrows : before.Grows after) (h : Relayed env sender before message dir) :
    Relayed env sender after message dir :=
  ⟨h.delivered.mono hgrows, h.complete.grows hgrows, h.written.grows hgrows h.complete, h.flat⟩

-- The results are such Dirs, one for each message.
def AllRelayed (env : Enviroment) (sender receiver : Registry) (messages : List Outgoing)
    (results : List Result) : Prop :=
  List.Forall₂ (fun message result => ∃ dir, result = .dir dir ∧ Relayed env sender receiver message dir)
    messages results

variable {receiver : Receiver} {sender : Registry}

-- Whole messages at the front of what is received.
theorem run_relayed (hd : receiver.env.Digests) (hsender : sender.ContentAddressed receiver.env)
    {indexOf : Field → Option Int} {messages : List Outgoing} {sents : List Sent}
    (hsent : List.Forall₂ (Outgoing.SentAs sender indexOf) messages sents)
    (hcomplete : ∀ message ∈ messages, message.stored.Complete sender)
    (hindices : ∀ message ∈ messages, ∀ index, indexOf message.type = some index →
      receiver.allIndices.lookup index = some message.type ∧ receiver.mode index = false)
    (w : World) (hw : w.Sound receiver.env) (hgood : w.known.Good receiver.env sender)
    (hall : w.registry.AllComplete) (held : List BlockId) (hheld : w.known.Holds held)
    {more : List Buffer} (hrequests : w.requests = sents.flatMap (Sent.stream receiver.env) ++ more) :
    ∃ results w', receiver.run w =
        ((Yielded.pure results).andThen (receiver.run w').1, (receiver.run w').2) ∧
      w'.requests = more ∧ w'.Sound receiver.env ∧
      AllRelayed receiver.env sender w'.registry messages results ∧
      w.registry.Grows w'.registry ∧ w'.known.Good receiver.env sender ∧
      w'.registry.AllComplete ∧
      w'.known.Holds (sents.foldl (fun held sent => sent.forest.taken held) held) := by
  induction hsent generalizing w held with
  | nil =>
      have hmore : w.requests = more := hrequests
      exact ⟨[], w, rfl, hmore, hw, .nil, .refl _, hgood, hall, hheld⟩
  | @cons message sent messages sents hone hrest ih =>
      rw [List.flatMap_cons, List.append_assoc] at hrequests
      obtain ⟨hfield, hmode⟩ := hindices message (List.mem_cons_self ..) _ hone.head
      obtain ⟨k, received, habsorb, hgood', hgrows, hheld', hmirrors⟩ := absorbDir_faithful
        receiver.control hsender hone.framed w.known hgood held hheld
      obtain ⟨hall', hreceived⟩ := absorbDir_complete receiver.control hsender hone.framed w.known
        hgood hall held hheld habsorb
      obtain ⟨path, w₁, hw₁, hknown, hmore, hrun₁⟩ := run_message hd hone.framed.nests hfield hmode w
        hw hrequests habsorb
      subst hknown
      obtain ⟨results, w', hrun, hrequests', hsound, hrelayed, hgrows', hgood'', hall'', hheld''⟩ := ih
        (fun other ho => hcomplete other (List.mem_cons_of_mem _ ho))
        (fun other ho => hindices other (List.mem_cons_of_mem _ ho)) w₁ hw₁ hgood' hall' _ hheld' hmore
      have hdelivered := delivered_of_mirrors (hcomplete message (List.mem_cons_self ..)) hone.framed
        hmirrors path
      have hwritten : received.Written receiver.env w₁.known.registry :=
        absorbDir_written receiver.control habsorb
      have hfirst : Relayed receiver.env sender w₁.registry message
          { dir := path, stored := received, type := message.type } :=
        ⟨hdelivered, hreceived, hwritten, fun hblocks =>
          ⟨_, hmirrors.file (List.map_eq_nil_iff.mp (hone.framed.blocks.trans hblocks))⟩⟩
      refine ⟨_ :: results, w', ?_, hrequests', hsound, .cons ⟨_, rfl, hfirst.mono hgrows'⟩ hrelayed,
        hgrows.trans hgrows', hgood'', hall'', hheld''⟩
      rw [hrun₁, hrun]
      rfl

-- A registry that agrees with both ends of a transfer agrees with the receiver's afterwards.
theorem agrees_after {other before after : Registry} {env : Enviroment}
    (haddressed : before.ContentAddressed env) (hgrows : before.Grows after)
    (hsender : sender.Agrees after) (hothers : other.Agrees sender) (hbefore : other.Agrees before)
    (hnew : ∀ id, after.blockExists id = true → before.blockExists id = true ∨
      ∃ content, sender.expansion id = some content) : other.Agrees after := by
  intro id x y hx hy
  obtain ⟨stored, hl⟩ := Registry.exists_lookup_of_expansion hy
  rcases hnew id (Registry.blockExists_eq_true.mpr ⟨stored, hl⟩) with hold | ⟨content, hcontent⟩
  · obtain ⟨old, hlookup⟩ := Registry.blockExists_eq_true.mp hold
    obtain ⟨bytes, hbytes, -⟩ := haddressed id old hlookup
    rw [hgrows.expansion hbytes] at hy
    exact hbefore id x y hx (Option.some.inj hy ▸ hbytes)
  · rw [hothers id x content hx hcontent]
    exact hsender id content y hcontent hy

-- The blocks there after all messages are those that were there, and the sender's.
theorem taken_known {indexOf : Field → Option Int} {messages : List Outgoing} {sents : List Sent}
    (hsent : List.Forall₂ (Outgoing.SentAs sender indexOf) messages sents) (held : List BlockId) :
    ∀ id ∈ sents.foldl (fun held sent => sent.forest.taken held) held,
      id ∈ held ∨ ∃ content, sender.expansion id = some content := by
  induction hsent generalizing held with
  | nil => exact fun id hid => Or.inl hid
  | cons hone hrest ih =>
      intro id hid
      rcases ih _ id hid with hid | hid
      · exact hone.framed.faithful.taken held id hid
      · exact Or.inr hid

-- After a transfer the receiver is as fit to send as the sender: its registry is correct, the
-- objects it has are complete, and nothing in it contradicts what anyone else has.
theorem relay {sender : Sender} {receiver : Receiver} {messages : List Outgoing}
    (h : Link sender receiver messages) (hskips : sender.skips = none) (w : World)
    (hreceiver : w.registry.Correct receiver.env) (hagrees : sender.registry.Agrees w.registry)
    (hscratch : w.scratch = []) :
    let stream := serializeToBuffer sender messages
    let outcome := parseFromBuffer receiver { w with requests := stream.items }
    stream.raised = none ∧ outcome.1.raised = none ∧
      AllRelayed receiver.env sender.registry outcome.2.registry messages outcome.1.items ∧
      w.registry.Grows outcome.2.registry ∧ outcome.2.registry.Correct receiver.env ∧
      ∀ other : Registry, other.Agrees sender.registry → other.Agrees w.registry →
        other.Agrees outcome.2.registry := by
  intro stream outcome
  obtain ⟨sents, hsents, hsent⟩ := h.sent
  rw [show { sender with skips := none } = sender by rw [← hskips]] at hsents
  have hitems : stream.items = sents.flatMap (Sent.stream receiver.env) :=
    congrArg Yielded.items hsents
  have houtcome : outcome = receiver.run { w with requests := stream.items } :=
    parseFromBuffer_run h.isCorrect _ (serializeToBuffer_skip messages)
  obtain ⟨results, w', hrun, hended, -, hrelayed, hgrows, hgood, hall, hheld⟩ := run_relayed
    h.received h.contents hsent h.complete h.resolves { w with requests := stream.items }
    ⟨hreceiver.addressed, fun path hpath => by simp [hscratch] at hpath⟩
    ⟨hreceiver.addressed, hagrees⟩ hreceiver.complete (w.registry.map Prod.fst)
    (fun id => Registry.blockExists_iff_mem) (hitems.trans (List.append_nil _).symm)
  rw [run_nil w' hended, Yielded.pure_andThen, Yielded.pure, List.append_nil] at hrun
  rw [houtcome, hrun]
  refine ⟨by rw [show stream = _ from hsents]; rfl, rfl, hrelayed, hgrows, ⟨hgood.addressed, hall⟩, ?_⟩
  intro other hothers hbefore
  refine agrees_after hreceiver.addressed hgrows hgood.agrees hothers hbefore fun id hid => ?_
  exact (taken_known hsent _ id ((hheld id).mp hid)).imp_left Registry.blockExists_iff_mem.mpr

end Relaying

end BeeRpc
