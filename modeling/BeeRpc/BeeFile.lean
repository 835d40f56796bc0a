import BeeRpc.Container
import BeeRpc.Relay

namespace BeeRpc

open Wire Naming

-- What read_from_file hands to parse_from_buffer: every index gives a Dir.
def Receiver.ofFile (env : Enviroment) (indices : Dict Int Field) : Receiver where
  env
  parse _ _ := none
  indices
  partitionsMessageMode := .inl false

-- client.read_from_file, of a file that read_bee_file comes to the end of.
def readFromFile (parseFromString : Bytes → Option Buffer) (receiver : Receiver) (bytes : Bytes)
    (w : World) : Option (Yielded Result × World) :=
  match readBeeFile parseFromString bytes with
  | (buffers, none) => some (parseFromBuffer receiver { w with requests := buffers })
  | (_, some _) => none

section Cutting

variable {serializeToString : Buffer → Bytes} {parseFromString : Bytes → Option Buffer}

-- However a file is cut, what is read of it is the front of what was written.
theorem readBeeFile_front (buffers : List Buffer)
    (hparse : ∀ buff ∈ buffers, parseFromString (serializeToString buff) = some buff)
    (hsize : ∀ buff ∈ buffers, (serializeToString buff).length < 256 ^ 4) :
    ∃ written, writeToFile serializeToString buffers = some written ∧
      readBeeFile parseFromString written = (buffers, none) ∧
      ∀ front, front <+: written → (readBeeFile parseFromString front).1 <+: buffers := by
  induction buffers with
  | nil =>
      refine ⟨[], rfl, readBeeFile_nil, fun front hfront => ?_⟩
      obtain rfl := List.prefix_nil.mp hfront
      rw [readBeeFile_nil]
  | cons buff rest ih =>
      have hfits := hsize buff (List.mem_cons_self ..)
      have hown := hparse buff (List.mem_cons_self ..)
      obtain ⟨written, hwritten, hwhole, hcut⟩ := ih
        (fun other ho => hparse other (List.mem_cons_of_mem _ ho))
        (fun other ho => hsize other (List.mem_cons_of_mem _ ho))
      refine ⟨_, by rw [writeToFile_cons rest hfits, hwritten]; rfl, ?_, fun front hfront => ?_⟩
      · rw [readBeeFile_record written hfits hown, hwhole]
      · rcases Wire.prefix_append_cases hfront with ⟨hinside, hshort⟩ | ⟨more, rfl, hmore⟩
        · rw [List.length_append, toBytesBig_length] at hshort
          obtain ⟨hnothing, -⟩ := @readBeeFile_torn parseFromString _ front hfits hinside hshort
          rw [hnothing]
          exact List.nil_prefix
        · rw [readBeeFile_record more hfits hown]
          exact List.cons_prefix_cons.mpr ⟨rfl, hcut more hmore⟩

-- A message has one head.
theorem stream_heads (env : Enviroment) (sent : Sent) :
    (sent.stream env).countP (fun b => b.head.isSome) = 1 := by
  cases sent with
  | single head content => rfl
  | framed head forest =>
      have hinside : (forest.stream env).countP (fun b => b.head.isSome) = 0 := by
        refine List.countP_eq_zero.mpr fun b hb hhead => ?_
        have hframe := forest_frameless forest b hb
        simp only [Buffer.isFrame, hhead, Bool.true_or] at hframe
        cases hframe
      simp only [Sent.stream, List.cons_append, List.countP_cons, List.countP_append, hinside]
      rfl

-- All messages begun in a front of a stream are whole in it, but for the last one.
theorem streams_front (env : Enviroment) (sents : List Sent) {front : List Buffer}
    (h : front <+: sents.flatMap (Sent.stream env)) :
    ∃ k more, front = (sents.take k).flatMap (Sent.stream env) ++ more ∧
      front.countP (fun b => b.head.isSome) ≤ k + 1 := by
  induction sents generalizing front with
  | nil =>
      obtain rfl := List.prefix_nil.mp h
      exact ⟨0, [], rfl, Nat.zero_le _⟩
  | cons sent sents ih =>
      rw [List.flatMap_cons] at h
      rcases Wire.prefix_append_cases h with ⟨hinside, -⟩ | ⟨more, rfl, hmore⟩
      · have hheads : front.countP (fun b => b.head.isSome) ≤ 1 :=
          (stream_heads env sent).le.trans' hinside.sublist.countP_le
        exact ⟨0, front, rfl, hheads⟩
      · obtain ⟨k, rest, rfl, hheads⟩ := ih hmore
        refine ⟨k + 1, rest, ?_, ?_⟩
        · rw [List.take_succ_cons, List.flatMap_cons, List.append_assoc]
        · rw [List.countP_append, stream_heads]
          omega

end Cutting

section Restoring

variable {sender : Sender} {receiver : Receiver} {messages : List Outgoing}

-- A stream that ends early: the messages that were whole come out whole.
theorem run_front (h : Link sender receiver messages) {sents : List Sent}
    (hsent : List.Forall₂ (Outgoing.SentAs sender.registry (sender.indexOf messages)) messages sents)
    (w : World) (hreceiver : w.registry.Correct receiver.env)
    (hagrees : sender.registry.Agrees w.registry) (hscratch : w.scratch = []) {front : List Buffer}
    (hfront : front <+: sents.flatMap (Sent.stream receiver.env)) :
    let outcome := receiver.run { w with requests := front }
    (∃ results, results <+: outcome.1.items ∧
      AllRelayed receiver.env sender.registry outcome.2.registry
        (messages.take (front.countP (fun b => b.head.isSome) - 1)) results) ∧
      w.registry.Grows outcome.2.registry ∧ outcome.2.registry.ContentAddressed receiver.env := by
  intro outcome
  obtain ⟨k, more, hcut, hheads⟩ := streams_front receiver.env sents hfront
  obtain ⟨results, w', hrun, -, hsound, hrelayed, hgrows, hgood, hall, -⟩ := run_relayed h.received
    h.contents (List.forall₂_take k hsent)
    (fun message hm => h.complete message (List.mem_of_mem_take hm))
    (fun message hm => h.resolves message (List.mem_of_mem_take hm)) { w with requests := front }
    ⟨hreceiver.addressed, fun path hpath => by simp [hscratch] at hpath⟩
    ⟨hreceiver.addressed, hagrees⟩ hreceiver.complete (w.registry.map Prod.fst)
    (fun id => Registry.blockExists_iff_mem) hcut
  -- whatever becomes of the rest, it only adds to the registry
  have hkeeps := @mainLoop_keeps receiver (w'.requests.length + 1) w' hsound
  have hafter : outcome.2.registry = (receiver.run w').2.registry := by rw [show outcome = _ from hrun]
  have hgrows' : w'.registry.Grows outcome.2.registry := hafter ▸ hkeeps.grows
  refine ⟨⟨results.take (front.countP (fun b => b.head.isSome) - 1), ?_, ?_⟩,
    hgrows.trans hgrows', hafter ▸ hkeeps.addressed⟩
  · rw [show outcome = _ from hrun]
    exact (List.take_prefix _ _).trans (List.prefix_append _ _)
  · have hfew := List.forall₂_take (front.countP (fun b => b.head.isSome) - 1) hrelayed
    rw [List.take_take, Nat.min_eq_left (by omega)] at hfew
    refine hfew.imp fun message result hone => ?_
    obtain ⟨dir, hresult, hdir⟩ := hone
    exact ⟨dir, hresult, hdir.mono hgrows'⟩

end Restoring

-- Objects go into a `.bee` file and come out of it, at any node whose registry does not contradict
-- the writer's. Of a file that ends early, between two records, every message but the last one begun
-- comes out as it was, and the registry is still one of contents under their names.
theorem readFromFile_restores (sender : Sender) (env : Enviroment) (indices : Dict Int Field)
    (messages : List Outgoing) (w : World) (serializeToString : Buffer → Bytes)
    (parseFromString : Bytes → Option Buffer)
    (h : Link sender (.ofFile env indices) messages) (hskips : sender.skips = none)
    (hreceiver : w.registry.Correct env) (hagrees : sender.registry.Agrees w.registry)
    (hscratch : w.scratch = [])
    (hparse : ∀ buff ∈ (serializeToBuffer sender messages).items,
      parseFromString (serializeToString buff) = some buff)
    (hsize : ∀ buff ∈ (serializeToBuffer sender messages).items,
      (serializeToString buff).length < 2 ^ 32) :
    let receiver : Receiver := .ofFile env indices
    ∃ file, writeToFile serializeToString (serializeToBuffer sender messages).items = some file ∧
      (∃ outcome, readFromFile parseFromString receiver file w = some outcome ∧
        outcome.1.raised = none ∧
        AllRelayed env sender.registry outcome.2.registry messages outcome.1.items ∧
        w.registry.Grows outcome.2.registry ∧ outcome.2.registry.Correct env) ∧
      ∀ front, front <+: file → ∀ outcome,
        readFromFile parseFromString receiver front w = some outcome →
        (∃ results, results <+: outcome.1.items ∧
          AllRelayed env sender.registry outcome.2.registry
            (messages.take ((readBeeFile parseFromString front).1.countP
              (fun b => b.head.isSome) - 1)) results) ∧
          w.registry.Grows outcome.2.registry ∧ outcome.2.registry.ContentAddressed env := by
  intro receiver
  obtain ⟨file, hwritten, hwhole, hcut⟩ := readBeeFile_front _ hparse hsize
  refine ⟨file, hwritten, ⟨_, by rw [readFromFile, hwhole], ?_⟩, fun front hfront outcome hread => ?_⟩
  · obtain ⟨-, hraised, hrelayed, hgrows, hcorrect, -⟩ := relay h hskips w hreceiver hagrees hscratch
    exact ⟨hraised, hrelayed, hgrows, hcorrect⟩
  · obtain ⟨sents, hsents, hsent⟩ := h.sent
    rw [show { sender with skips := none } = sender by rw [← hskips]] at hsents
    have hbuffers := hcut front hfront
    have hskip : ∀ b ∈ (readBeeFile parseFromString front).1, b.skip = none := fun b hb =>
      serializeToBuffer_skip messages b (hbuffers.subset hb)
    rw [hsents] at hbuffers
    unfold readFromFile at hread
    split at hread
    · rename_i buffers hbee
      obtain rfl := Option.some.inj hread
      rw [hbee] at hbuffers hskip ⊢
      rw [parseFromBuffer_run h.isCorrect _ hskip]
      exact run_front h hsent w hreceiver hagrees hscratch hbuffers
    · cases hread

-- How protobuf writes a Buffer that asks for nothing, and reads the Buffers of a stream.
def Buffer.sampleBytes (buff : Buffer) : Bytes :=
  (match buff.chunk with
    | some chunk => 0x0A :: delimited chunk
    | none => []) ++
  (match buff.separator with
    | some separator => [0x10, if separator then 1 else 0]
    | none => []) ++
  (match buff.head with
    | some head => 0x22 :: delimited (if head.index = 0 then [] else 0x08 :: Varint.encode head.index.toNat)
    | none => []) ++
  (match buff.block with
    | some block => 0x2A :: delimited block.serializeToString
    | none => [])

def sampleParseOf (stream : List Buffer) (data : Bytes) : Option Buffer :=
  stream.find? fun buff => buff.sampleBytes = data

theorem readFromFile_restores_sample :
    let sender : Sender := .sample
    let messages := [Outgoing.dir (.dir .around) (.message 7), .dir (.file [1, 2]) (.message 7)]
    let w : World := { registry := [], requests := [] }
    let parseFromString := sampleParseOf (serializeToBuffer sender messages).items
    let receiver : Receiver := .ofFile .sample [(1, .message 7)]
    ∃ file, writeToFile Buffer.sampleBytes (serializeToBuffer sender messages).items = some file ∧
      (∃ outcome, readFromFile parseFromString receiver file w = some outcome ∧
        outcome.1.raised = none ∧
        AllRelayed .sample sender.registry outcome.2.registry messages outcome.1.items ∧
        w.registry.Grows outcome.2.registry ∧ outcome.2.registry.Correct .sample) ∧
      ∀ front, front <+: file → ∀ outcome,
        readFromFile parseFromString receiver front w = some outcome →
        (∃ results, results <+: outcome.1.items ∧
          AllRelayed .sample sender.registry outcome.2.registry
            (messages.take ((readBeeFile parseFromString front).1.countP
              (fun b => b.head.isSome) - 1)) results) ∧
          w.registry.Grows outcome.2.registry ∧ outcome.2.registry.ContentAddressed .sample := by
  have hmessage : ∀ message ∈ [Outgoing.dir (.dir .around) (.message 7), .dir (.file [1, 2]) (.message 7)],
      message.stored.Complete Registry.sample ∧ message.type = .message 7 := by
    intro message h
    rcases List.mem_cons.mp h with rfl | h
    · exact ⟨around_complete, rfl⟩
    · rw [List.mem_singleton.mp h]
      exact ⟨trivial, rfl⟩
  exact readFromFile_restores .sample .sample [(1, .message 7)] _ { registry := [], requests := [] }
    Buffer.sampleBytes _
    { digests := fun _ => List.cons_ne_nil _ _
      algorithm := rfl
      depth := by decide
      registry := sample_correct
      complete := fun message h => (hmessage message h).1
      ready := .inl (List.cons_ne_nil _ _)
      indices := fun message h => by rw [(hmessage message h).2]; exact ⟨1, by decide, by decide⟩
      mode := ⟨List.cons_ne_nil _ _, rfl⟩ }
    rfl (Registry.correct_nil _) (Registry.agrees_nil _) rfl (by decide +kernel) (by decide +kernel)

end BeeRpc
