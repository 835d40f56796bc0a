import BeeRpc.Relay

namespace BeeRpc

open Wire Effect Naming

section Holding

variable {env : Enviroment} (control : Bool)

theorem mem_ask_self {k : Known} {id : BlockId} (hexists : k.registry.blockExists id = true) :
    id ∈ (k.ask true id).asked := by
  simp only [Known.ask, hexists, Bool.and_self, if_true]
  split
  · assumption
  · exact List.mem_append_right _ (List.mem_singleton_self id)

-- Where all blocks directly in a forest are held, nothing is stored, and all of them are asked for.
theorem absorb_held (forest : Forest) (k : Known) (p : Part)
    (hheld : ∀ id ∈ forest.blocks.map Prod.fst, k.registry.blockExists id = true) {k' : Known}
    {q : Part} (h : absorb env control k p forest = .ok (k', q)) :
    k'.registry = k.registry ∧ k.asked ⊆ k'.asked ∧
      (control = true → ∀ id ∈ forest.blocks.map Prod.fst, id ∈ k'.asked) := by
  induction forest generalizing k p with
  | nil =>
      obtain ⟨rfl, rfl⟩ := Prod.mk.inj (Except.ok.inj h)
      exact ⟨rfl, List.Subset.refl _, fun _ id hid => absurd hid List.not_mem_nil⟩
  | chunk skip content rest ih => exact ih k _ hheld h
  | block other positions body rest ihBody ihRest =>
      have hother : k.registry.blockExists other = true := hheld other (List.mem_cons_self ..)
      simp only [absorb, if_pos hother] at h
      have hdrained : ((k.ask control other).drain control body).registry = k.registry :=
        (drain_registry control body _).trans (ask_registry control k other)
      obtain ⟨hregistry, hgrows, hasked⟩ := ihRest _ _ (fun id hid => by
        rw [hdrained]
        exact hheld id (List.mem_cons_of_mem _ hid)) h
      have hbefore := drain_subset control body (k.ask control other)
      refine ⟨hregistry.trans hdrained,
        List.Subset.trans (ask_subset control k other) (List.Subset.trans hbefore hgrows), ?_⟩
      rintro rfl id hid
      rcases List.mem_cons.mp hid with rfl | hid
      · exact hgrows (hbefore (mem_ask_self hother))
      · exact hasked rfl id hid

theorem absorbDir_held {forest : Forest} {k k' : Known} {stored : Stored}
    (hheld : ∀ id ∈ forest.blocks.map Prod.fst, k.registry.blockExists id = true)
    (h : absorbDir env control k forest = .ok (k', stored)) :
    k'.registry = k.registry ∧ k.asked ⊆ k'.asked ∧
      (control = true → ∀ id ∈ forest.blocks.map Prod.fst, id ∈ k'.asked) := by
  obtain ⟨⟨k₁, q⟩, habsorb, hfinish⟩ := bind_eq_ok.mp h
  simp only at hfinish
  split at hfinish
  · cases hfinish
  · obtain ⟨rfl, -⟩ := Prod.mk.inj (Except.ok.inj hfinish)
    exact absorb_held control forest k {} hheld habsorb

end Holding

section Repeating

variable {receiver : Receiver} {sender : Registry}

-- One message after another, of which the receiver holds all blocks.
theorem run_held (hd : receiver.env.Digests) (hsender : sender.ContentAddressed receiver.env)
    {indexOf : Field → Option Int} {messages : List Outgoing} {sents : List Sent}
    (hsent : List.Forall₂ (Outgoing.SentAs sender indexOf) messages sents)
    (hindices : ∀ message ∈ messages, ∀ index, indexOf message.type = some index →
      receiver.allIndices.lookup index = some message.type ∧ receiver.mode index = false)
    (w : World) (hw : w.Sound receiver.env) (hgood : w.known.Good receiver.env sender)
    (hheld : ∀ message ∈ messages, ∀ id ∈ message.stored.blocks, w.registry.blockExists id = true)
    (hrequests : w.requests = sents.flatMap (Sent.stream receiver.env)) :
    ∃ results w', receiver.run w = (.pure results, w') ∧ w'.registry = w.registry ∧
      w.asked ⊆ w'.asked ∧ (receiver.control = true →
        ∀ message ∈ messages, ∀ id ∈ message.stored.blocks, id ∈ w'.asked) := by
  induction hsent generalizing w with
  | nil =>
      exact ⟨[], w, run_nil w hrequests, rfl, List.Subset.refl _,
        fun _ message hmessage => absurd hmessage List.not_mem_nil⟩
  | @cons message sent messages sents hone hrest ih =>
      rw [List.flatMap_cons] at hrequests
      obtain ⟨hfield, hmode⟩ := hindices message (List.mem_cons_self ..) _ hone.head
      obtain ⟨k, received, habsorb, hgood', -, -, -⟩ := absorbDir_faithful receiver.control hsender
        hone.framed w.known hgood (w.registry.map Prod.fst)
        (fun id => Registry.blockExists_iff_mem)
      have hblocks := hone.framed.blocks
      obtain ⟨hregistry, hasked, hall⟩ := absorbDir_held receiver.control (fun id hid =>
        hheld message (List.mem_cons_self ..) id (hblocks ▸ hid)) habsorb
      obtain ⟨path, w₁, hw₁, hknown, hmore, hrun₁⟩ := run_message hd hone.framed.nests hfield hmode w
        hw hrequests habsorb
      subst hknown
      have hsame : w₁.registry = w.registry := hregistry
      obtain ⟨results, w', hrun, hregistry', hasked', hall'⟩ := ih
        (fun other ho => hindices other (List.mem_cons_of_mem _ ho)) w₁ hw₁ hgood'
        (fun other ho id hid => by
          rw [hsame]
          exact hheld other (List.mem_cons_of_mem _ ho) id hid) hmore
      refine ⟨_, w', by rw [hrun₁, hrun, pure_andThen_pure], hregistry'.trans hsame,
        List.Subset.trans hasked hasked', fun hcontrol other ho id hid => ?_⟩
      rcases List.mem_cons.mp ho with rfl | ho
      · exact hasked' (hall hcontrol id (hblocks ▸ hid))
      · exact hall' hcontrol other ho id hid

theorem exists_sent {indexOf : Field → Option Int} {messages : List Outgoing} {sents : List Sent}
    (h : List.Forall₂ (Outgoing.SentAs sender indexOf) messages sents) :
    ∀ message ∈ messages, ∃ sent ∈ sents, message.stored.FramedBy sender sent.forest := by
  induction h with
  | nil => exact fun message hmessage => absurd hmessage List.not_mem_nil
  | @cons first sent rest sents hone _ ih =>
      intro message hmessage
      rcases List.mem_cons.mp hmessage with rfl | hmessage
      · exact ⟨sent, List.mem_cons_self .., hone.framed⟩
      · obtain ⟨other, hother, hframed⟩ := ih message hmessage
        exact ⟨other, List.mem_cons_of_mem _ hother, hframed⟩

theorem taken_blocks (sents : List Sent) (held : List BlockId) {sent : Sent} (hsent : sent ∈ sents)
    {id : BlockId} (hid : id ∈ sent.forest.blocks.map Prod.fst) :
    id ∈ sents.foldl (fun held sent => sent.forest.taken held) held := by
  have hkept : ∀ (sents : List Sent) (held : List BlockId), id ∈ held →
      id ∈ sents.foldl (fun held sent => sent.forest.taken held) held := by
    intro sents
    induction sents with
    | nil => exact fun held hid => hid
    | cons first rest ih => exact fun held hid => ih _ (first.forest.mem_taken held id hid)
  induction sents generalizing held with
  | nil => cases hsent
  | cons first rest ih =>
      rcases List.mem_cons.mp hsent with rfl | hrest
      · exact hkept rest _ (sent.forest.blocks_taken held id hid)
      · exact ih _ hrest

-- Blocks are stored once. When objects have been received, others whose blocks are among theirs
-- add nothing to the block directory, whoever sends them, in whatever order and at whatever
-- depth; and a receiver that can ask asks not to be sent any of these blocks.
theorem transfer_again (sender sender' : Sender) (receiver receiver' : Receiver)
    (messages messages' : List Outgoing) (w : World) (h : Link sender receiver messages)
    (h' : Link sender' receiver' messages') (hskips : sender.skips = none)
    (hskips' : sender'.skips = none)
    (hsettings : receiver'.env.hashFactory = receiver.env.hashFactory)
    (hreceiver : w.registry.ContentAddressed receiver.env)
    (hagrees : sender.registry.Agrees w.registry) (hagrees' : sender'.registry.Agrees w.registry)
    (hpeers : sender'.registry.Agrees sender.registry) (hscratch : w.scratch = [])
    (hblocks : ∀ message ∈ messages', ∀ id ∈ message.stored.blocks,
      ∃ earlier ∈ messages, id ∈ earlier.stored.blocks) :
    let stream := serializeToBuffer sender messages
    let first := parseFromBuffer receiver { w with requests := stream.items }
    let stream' := serializeToBuffer sender' messages'
    let again := parseFromBuffer receiver'
      { registry := first.2.registry, requests := stream'.items }
    again.1.raised = none ∧ again.2.registry = first.2.registry ∧
      (receiver'.control = true →
        ∀ message ∈ messages', ∀ id ∈ message.stored.blocks, id ∈ again.2.asked) := by
  intro stream first stream' again
  obtain ⟨sents, hsents, hsent⟩ := h.sent
  obtain ⟨sents', hsents', hsent'⟩ := h'.sent
  rw [show { sender with skips := none } = sender by rw [← hskips]] at hsents
  rw [show { sender' with skips := none } = sender' by rw [← hskips']] at hsents'
  have hfirst : first = receiver.run { w with requests := stream.items } :=
    parseFromBuffer_run h.isCorrect _ (serializeToBuffer_skip messages)
  have hagain : again = receiver'.run { registry := first.2.registry, requests := stream'.items } :=
    parseFromBuffer_run h'.isCorrect _ (serializeToBuffer_skip messages')
  obtain ⟨results, w', hrun, -, hgrows, hgood, hheld⟩ := run_sent h.received h.contents hsent
    h.complete h.resolves { w with requests := stream.items }
    ⟨hreceiver, fun path hpath => by simp [hscratch] at hpath⟩ ⟨hreceiver, hagrees⟩
    (w.registry.map Prod.fst) (fun id => Registry.blockExists_iff_mem)
    (congrArg Yielded.items hsents)
  have hafter : first.2 = w' := by rw [hfirst, hrun]
  rw [hafter] at hagain ⊢
  have hnew : ∀ id, w'.registry.blockExists id = true → w.registry.blockExists id = true ∨
      ∃ content, sender.registry.expansion id = some content := fun id hid =>
    (taken_known hsent _ id ((hheld id).mp hid)).imp_left Registry.blockExists_iff_mem.mpr
  have haddressed : w'.registry.ContentAddressed receiver'.env := by
    intro id stored hl
    rw [hsettings]
    exact hgood.addressed id stored hl
  have hstored : ∀ message ∈ messages', ∀ id ∈ message.stored.blocks,
      w'.registry.blockExists id = true := by
    intro message hmessage id hid
    obtain ⟨earlier, hearlier, hid⟩ := hblocks message hmessage id hid
    obtain ⟨sent, hmem, hframed⟩ := exists_sent hsent earlier hearlier
    exact (hheld id).mpr (taken_blocks sents _ hmem (hframed.blocks ▸ hid))
  obtain ⟨results', w'', hrun', hregistry, -, hasked⟩ := run_held h'.received h'.contents hsent'
    h'.resolves { registry := w'.registry, requests := stream'.items }
    ⟨haddressed, fun path hpath => absurd hpath List.not_mem_nil⟩
    ⟨haddressed, agrees_after hreceiver hgrows hgood.agrees hpeers hagrees' hnew⟩ hstored
    (congrArg Yielded.items hsents')
  rw [hagain, hrun']
  exact ⟨rfl, hregistry, hasked⟩

-- The second time from a sender that frames nothing, to a receiver that can ask.
theorem transfer_again_sample :
    let sender' : Sender := { Sender.sample with env := .sample }
    let receiver' : Receiver := { Receiver.sample with control := true }
    let messages := [Outgoing.dir (.dir .around) (.message 7)]
    let w : World := { registry := [], requests := [] }
    let stream := serializeToBuffer .sample messages
    let first := parseFromBuffer .sample { w with requests := stream.items }
    let stream' := serializeToBuffer sender' messages
    let again := parseFromBuffer receiver'
      { registry := first.2.registry, requests := stream'.items }
    again.1.raised = none ∧ again.2.registry = first.2.registry ∧
      (receiver'.control = true →
        ∀ message ∈ messages, ∀ id ∈ message.stored.blocks, id ∈ again.2.asked) := by
  have hempty : Sender.sample.registry.Agrees [] := by
    intro id x y _ hy
    obtain ⟨stored, hl⟩ := Registry.exists_lookup_of_expansion hy
    cases hl
  have hcomplete : ∀ message ∈ [Outgoing.dir (.dir .around) (.message 7)],
      message.stored.Complete Sender.sample.registry := by
    intro message hmessage
    rw [List.mem_singleton.mp hmessage]
    exact around_complete
  have hlink : Link .sample .sample [.dir (.dir .around) (.message 7)] :=
    { digests := fun _ => List.cons_ne_nil _ _
      algorithm := rfl
      depth := by decide
      registry := sample_correct
      complete := hcomplete
      ready := .inl (List.cons_ne_nil _ _)
      indices := fun message h => by rw [List.mem_singleton.mp h]; exact ⟨1, by decide, by decide⟩
      mode := ⟨List.cons_ne_nil _ _, rfl⟩ }
  have hlink' : Link { Sender.sample with env := .sample } { Receiver.sample with control := true }
      [.dir (.dir .around) (.message 7)] :=
    { digests := fun _ => List.cons_ne_nil _ _
      algorithm := rfl
      depth := by decide
      registry := ⟨sample_correct.addressed, sample_correct.complete⟩
      complete := hcomplete
      ready := .inl (List.cons_ne_nil _ _)
      indices := fun message h => by rw [List.mem_singleton.mp h]; exact ⟨1, by decide, by decide⟩
      mode := ⟨List.cons_ne_nil _ _, rfl⟩ }
  have haddressed : Registry.ContentAddressed Receiver.sample.env [] := fun id stored hl => by cases hl
  have hblocks : ∀ message ∈ [Outgoing.dir (.dir .around) (.message 7)],
      ∀ id ∈ message.stored.blocks, ∃ earlier ∈ [Outgoing.dir (.dir .around) (.message 7)],
        id ∈ earlier.stored.blocks := fun message hmessage id hid => ⟨message, hmessage, hid⟩
  exact transfer_again .sample { Sender.sample with env := .sample } .sample
    { Receiver.sample with control := true } _ _ { registry := [], requests := [] } hlink hlink'
    rfl rfl rfl haddressed hempty hempty (Registry.Agrees.refl _)
    rfl hblocks

end Repeating

end BeeRpc
