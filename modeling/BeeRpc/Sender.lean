import BeeRpc.Arrival

namespace BeeRpc

open Wire Naming

-- What serialize_to_buffer's iterator gives: a Dir with what stands at its path, or a value.
inductive Outgoing where
  | dir (stored : Stored) (type : Field)
  | message (cls : Nat) (message : Message)
  | bytes (content : Bytes)
  | str (content : String)
  deriving DecidableEq

namespace Outgoing

def type : Outgoing → Field
  | dir _ type => type
  | message cls _ => .message cls
  | bytes _ => .bytes
  | str _ => .str

-- client.message_to_bytes
def messageToBytes : Outgoing → Bytes
  | dir _ _ => []
  | message _ value => value.serializeToString
  | bytes content => content
  | str content => content.toUTF8.data.toList

end Outgoing

-- client.contain_blocks: whether some bytes field can be read as a Buffer.Block.
def containBlocks (parse : ParseBlock) : Message → Bool
  | .unknown _ => false
  | .message _ value rest => containBlocks parse value || containBlocks parse rest
  | .group _ value rest => containBlocks parse value || containBlocks parse rest
  | .bytes _ value rest => (parse value).isSome || containBlocks parse rest
  | .string _ _ rest => containBlocks parse rest
  | .other _ rest => containBlocks parse rest

-- The loop of skip_requested_blocks: the open blocks, innermost first, each with whether its
-- start marker was sent, and the depth of the block that is being skipped.
structure Skipping where
  stack : List (Option BlockId × Bool) := []
  skippingAt : Option Nat := none
  deriving Repr, DecidableEq

namespace Skipping

-- The depth of the shallowest open block that the peer has asked to skip.
def outermostSkipped (skip : BlockId → Bool) (stack : List (Option BlockId × Bool)) : Option Nat :=
  (stack.reverse.findIdx? fun entry => (truthy entry.1).any skip).map (· + 1)

variable (env : Enviroment)

-- One buffer of the stream, with what the peer has asked to skip by then.
def step (skip : BlockId → Bool) (s : Skipping) (b : Buffer) : Skipping × List Buffer :=
  match b.block with
  | some block =>
      let blockId := getHashFromBlock env block
      match s.stack with
      | (top, wasOpened) :: stack =>
          if top = blockId then
            let depth := s.stack.length
            ({ stack, skippingAt := if s.skippingAt = some depth then none else s.skippingAt },
              if wasOpened then [b] else [])
          else startBlock blockId
      | [] => startBlock blockId
  | none =>
      let skippingAt := s.skippingAt <|> outermostSkipped skip s.stack
      ({ s with skippingAt }, if skippingAt = none then [b] else [])
where
  startBlock (blockId : Option BlockId) : Skipping × List Buffer :=
    if s.skippingAt = none then
      let stack := (blockId, true) :: s.stack
      ({ stack, skippingAt := outermostSkipped skip stack }, [b])
    else ({ s with stack := (blockId, false) :: s.stack }, [])

end Skipping

-- client.skip_requested_blocks, where `skips i` is what the peer has asked for when the buffer
-- with number `i` is at hand.
def skipRequestedBlocks (env : Enviroment) (skips : Nat → BlockId → Bool) :
    Nat → Skipping → List Buffer → List Buffer
  | _, _, [] => []
  | i, s, b :: rest =>
      (s.step env (skips i) b).2 ++ skipRequestedBlocks env skips (i + 1) (s.step env (skips i) b).1 rest

-- The arguments of serialize_to_buffer, beside the iterator.
structure Sender where
  env : Enviroment
  registry : Registry
  parseBlock : ParseBlock
  indices : Dict Int Field := []
  -- what an enabled StreamControl holds at each buffer of each message
  skips : Option (Nat → Nat → BlockId → Bool) := none

namespace Sender

variable (sender : Sender)

-- The index map, which the first message completes where it is empty.
def allIndices (messages : List Outgoing) : Except Err (Dict Int Field) :=
  let indices := Dict.set 0 .bytes sender.indices
  if indices.length = 1 then
    match messages with
    | [] => .error .stopIteration
    | .dir _ type :: _ => .ok (if type = .bytes then indices else Dict.set 1 type indices)
    | .message cls _ :: _ => .ok (Dict.set 1 (.message cls) indices)
    | _ :: _ => .ok indices
  else .ok indices

-- The loop of send_file and send_message over what is read from the disk.
def sendStored (number : Nat) (stored : Stored) : Yielded Buffer :=
  let read := readFromRegistry sender.env sender.registry stored
  match sender.skips with
  | none => read
  | some skips => ⟨skipRequestedBlocks sender.env (skips number) 0 {} read.items, read.raised⟩

def sendFile (number : Nat) (head : Head) (stored : Stored) : Yielded Buffer :=
  ((Yielded.pure [{ head := some head }]).andThen (sender.sendStored number stored)).andThen
    (.pure [separatorBuffer])

def sendMessage (number : Nat) (head : Head) (message : Outgoing) : Yielded Buffer :=
  let content := message.messageToBytes
  let blocks : Bool :=
    match message with
    | .message _ message => containBlocks sender.parseBlock message
    | _ => false
  if content.length < CHUNK_SIZE && !blocks then .pure [singleBuffer head content]
  else sender.sendFile number head (.file content)

-- The loop over the messages. `indices` is from types to indices here.
def payload (indices : Dict Field Int) : Nat → List Outgoing → Yielded Buffer
  | _, [] => .pure []
  | number, message :: messages =>
      match indices.lookup message.type with
      | none => .raise .keyError
      | some index =>
          let sent :=
            match message with
            | .dir stored _ => sender.sendFile number ⟨index⟩ stored
            | message => sender.sendMessage number ⟨index⟩ message
          sent.andThen (payload indices (number + 1) messages)

-- `{e[1]: e[0] for e in indices.items()}`
def reversed (indices : Dict Int Field) : Dict Field Int :=
  Dict.ofList (indices.map fun entry => (entry.2, entry.1))

end Sender

def serializeToBuffer (sender : Sender) (messages : List Outgoing) : Yielded Buffer :=
  match sender.allIndices messages with
  | .error e => .raise e
  | .ok indices => sender.payload (Sender.reversed indices) 0 messages

section

variable {sender : Sender}

theorem mem_andThen {α : Type} {first second : Yielded α} {a : α}
    (h : a ∈ (first.andThen second).items) : a ∈ first.items ∨ a ∈ second.items := by
  rw [Yielded.andThen] at h
  split at h
  · exact Or.inl h
  · exact List.mem_append.mp h

-- A filtered stream has no other buffers.
theorem step_subset (env : Enviroment) (skip : BlockId → Bool) (s : Skipping) (b : Buffer) :
    (s.step env skip b).2 ⊆ [b] := by
  simp only [Skipping.step, Skipping.step.startBlock]
  repeat' split
  all_goals simp

theorem skipRequestedBlocks_subset (env : Enviroment) (skips : Nat → BlockId → Bool) (i : Nat)
    (s : Skipping) (items : List Buffer) : skipRequestedBlocks env skips i s items ⊆ items := by
  induction items generalizing i s with
  | nil => exact List.Subset.refl _
  | cons b rest ih =>
      intro c hc
      rcases List.mem_append.mp hc with hc | hc
      · exact List.mem_cons.mpr (Or.inl (List.mem_singleton.mp (step_subset env _ s b hc)))
      · exact List.mem_cons_of_mem _ (ih _ _ hc)

theorem sendStored_skip (number : Nat) (stored : Stored) :
    ∀ b ∈ (sender.sendStored number stored).items, b.skip = none := by
  have hread : ∀ b ∈ (readFromRegistry sender.env sender.registry stored).items,
      b.skip = none := by
    intro b hb
    obtain ⟨item, -, rfl⟩ := List.mem_map.mp hb
    cases item <;> rfl
  intro b hb
  simp only [Sender.sendStored] at hb
  split at hb
  · exact hread b hb
  · exact hread b (skipRequestedBlocks_subset _ _ _ _ _ hb)

theorem sendFile_skip (number : Nat) (head : Head) (stored : Stored) :
    ∀ b ∈ (sender.sendFile number head stored).items, b.skip = none := by
  intro b hb
  rcases mem_andThen hb with hb | hb
  · rcases mem_andThen hb with hb | hb
    · rw [List.mem_singleton.mp hb]
    · exact sendStored_skip number stored b hb
  · rw [List.mem_singleton.mp hb]
    rfl

theorem sendMessage_cases (number : Nat) (head : Head) (message : Outgoing) :
    sender.sendMessage number head message = .pure [singleBuffer head message.messageToBytes] ∨
      sender.sendMessage number head message =
        sender.sendFile number head (.file message.messageToBytes) :=
  ite_eq_or_eq ..

-- The payload has no skip requests in it.
theorem serializeToBuffer_skip (messages : List Outgoing) :
    ∀ b ∈ (serializeToBuffer sender messages).items, b.skip = none := by
  have hpayload : ∀ (indices : Dict Field Int) (number : Nat),
      ∀ b ∈ (sender.payload indices number messages).items, b.skip = none := by
    intro indices
    induction messages with
    | nil => exact fun number b hb => absurd hb List.not_mem_nil
    | cons message messages ih =>
        intro number b hb
        simp only [Sender.payload] at hb
        split at hb
        · exact absurd hb List.not_mem_nil
        · rcases mem_andThen hb with hb | hb
          · have hmessage : ∀ head, ∀ b ∈ (sender.sendMessage number head message).items,
                b.skip = none := by
              intro head b hb
              rcases @sendMessage_cases sender number head message with h | h
              · rw [h] at hb
                rw [List.mem_singleton.mp hb]
                rfl
              · exact sendFile_skip number head _ b (h ▸ hb)
            cases message with
            | dir stored type => exact sendFile_skip number _ stored b hb
            | message cls content => exact hmessage _ b hb
            | bytes content => exact hmessage _ b hb
            | str content => exact hmessage _ b hb
          · exact ih (number + 1) b hb
  simp only [serializeToBuffer]
  split
  · exact fun b hb => absurd hb List.not_mem_nil
  · exact hpayload _ 0

-- A stream without skip requests is read as it is.
theorem controlReader_skip (env : Enviroment) (requests : List Buffer)
    (h : ∀ b ∈ requests, b.skip = none) : controlReader env requests = requests := by
  induction requests with
  | nil => rfl
  | cons b rest ih =>
      have hb : skippedBlockId env b = none := by
        rw [skippedBlockId, h b (List.mem_cons_self ..)]
        rfl
      rw [controlReader, hb]
      exact congrArg (b :: ·) (ih fun c hc => h c (List.mem_cons_of_mem _ hc))

end

-- Where there are no skip requests it makes no difference who is asked to honour them.
theorem parseFromBuffer_run {receiver : Receiver} (hcorrect : receiver.isCorrect = true) (w : World)
    (hskip : ∀ b ∈ w.requests, b.skip = none) : parseFromBuffer receiver w = receiver.run w := by
  simp only [parseFromBuffer, hcorrect, if_true, controlReader_skip _ _ hskip, ite_self]
  rfl

end BeeRpc
