import BeeRpc.Transfer
import BeeRpc.Memory

namespace BeeRpc

open Wire Effect Naming

section Sending

variable {sender : Sender}

-- Outside all blocks nothing is skipped.
theorem skipRequestedBlocks_chunks (env : Enviroment) (skips : Nat → BlockId → Bool) (i : Nat)
    (chunks : List Bytes) :
    skipRequestedBlocks env skips i {} (chunks.map (chunkBuffer none)) =
      chunks.map (chunkBuffer none) := by
  induction chunks generalizing i with
  | nil => rfl
  | cons content chunks ih => exact congrArg (chunkBuffer none content :: ·) (ih (i + 1))

-- What has no blocks goes out the same whatever the algorithm is.
structure Sent.Plain (content : Bytes) (sent : Sent) : Prop where
  pieces : ∃ chunks, sent.forest = .pieces chunks .nil ∧ chunks.flatten = content
  stream : ∀ env env', sent.stream env = sent.stream env'

theorem plain_framed (head : Head) (chunks : List Bytes) :
    Sent.Plain chunks.flatten (.framed head (.pieces chunks .nil)) where
  pieces := ⟨chunks, rfl, rfl⟩
  stream env env' := by
    simp only [Sent.stream, Forest.pieces_stream, Forest.stream]

theorem plain_single (head : Head) (content : Bytes) : Sent.Plain content (.single head content) where
  pieces := ⟨[content], rfl, by simp⟩
  stream _ _ := rfl

theorem sendMessage_plain (number : Nat) (head : Head) (message : Outgoing) :
    ∃ sent : Sent, sender.sendMessage number head message = .pure (sent.stream sender.env) ∧
      sent.head = head ∧ sent.Plain message.messageToBytes := by
  rcases @sendMessage_cases sender number head message with h | h
  · exact ⟨.single head message.messageToBytes, h, rfl, plain_single ..⟩
  · refine ⟨.framed head (.pieces (readFileByChunks message.messageToBytes) .nil), h.trans ?_, rfl, ?_⟩
    · have hread : readFromRegistry sender.env sender.registry (.file message.messageToBytes) =
          .pure ((readFileByChunks message.messageToBytes).map (chunkBuffer none)) := by
        rw [← map_ofItem_pieces]
        rfl
      have hsent : sender.sendStored number (.file message.messageToBytes) =
          .pure ((readFileByChunks message.messageToBytes).map (chunkBuffer none)) := by
        simp only [Sender.sendStored, hread]
        split
        · rfl
        · simp only [Yielded.pure, skipRequestedBlocks_chunks]
      simp only [Sender.sendFile, hsent, pure_andThen_pure, Sent.stream, Forest.pieces_stream,
        Forest.stream, List.append_nil]
      rfl
    · have h := plain_framed head (readFileByChunks message.messageToBytes)
      rwa [readFileByChunks_flatten] at h

theorem streams_congr {messages : List Outgoing} {sents : List Sent}
    (h : List.Forall₂ (fun message sent => sent.Plain message.messageToBytes) messages sents)
    (env env' : Enviroment) :
    sents.flatMap (Sent.stream env) = sents.flatMap (Sent.stream env') := by
  induction h with
  | nil => rfl
  | cons hone _ ih => rw [List.flatMap_cons, List.flatMap_cons, ih, hone.stream env env']

-- A message or a byte string.
def Outgoing.Direct : Outgoing → Prop
  | message _ _ => True
  | bytes _ => True
  | _ => False

theorem payload_plain (indices : Dict Field Int) (messages : List Outgoing) (number : Nat)
    (hdirect : ∀ message ∈ messages, message.Direct)
    (hindices : ∀ message ∈ messages, ∃ index, indices.lookup message.type = some index) :
    ∃ sents, sender.payload indices number messages =
        .pure (sents.flatMap (Sent.stream sender.env)) ∧
      List.Forall₂ (fun message sent => indices.lookup message.type = some sent.head.index ∧
        sent.Plain message.messageToBytes) messages sents := by
  induction messages generalizing number with
  | nil => exact ⟨[], rfl, .nil⟩
  | cons message messages ih =>
      obtain ⟨sents, hsents, hall⟩ := ih (number + 1)
        (fun other ho => hdirect other (List.mem_cons_of_mem _ ho))
        fun other ho => hindices other (List.mem_cons_of_mem _ ho)
      obtain ⟨index, hindex⟩ := hindices message (List.mem_cons_self ..)
      obtain ⟨sent, hstream, hhead, hplain⟩ := @sendMessage_plain sender number ⟨index⟩
        message
      have hdirect := hdirect message (List.mem_cons_self ..)
      refine ⟨sent :: sents, ?_, .cons ⟨by rw [hindex, hhead], hplain⟩ hall⟩
      cases message with
      | dir stored type => exact hdirect.elim
      | _ =>
          simp only [Sender.payload, hindex, hstream, hsents, pure_andThen_pure, List.flatMap_cons]

end Sending

section Receiving

variable {receiver : Receiver}

theorem stretches_pieces {env : Enviroment} (chunks : List Bytes) {headed : Bool}
    {rest left : List Buffer} {forest : Forest} (h : Stretches env headed rest forest left) :
    Stretches env headed (chunks.map (chunkBuffer none) ++ rest) (.pieces chunks forest) left := by
  induction chunks with
  | nil => exact h
  | cons content chunks ih => exact .chunk none content ih

theorem Sent.Plain.stretches {sent : Sent} {content : Bytes} (h : sent.Plain content)
    (env : Enviroment) (left : List Buffer) :
    Stretches env true (sent.stream env ++ left) sent.forest left := by
  obtain ⟨chunks, hforest, -⟩ := h.pieces
  cases sent with
  | single head content => exact .single head content left
  | framed head forest =>
      obtain rfl : forest = .pieces chunks .nil := hforest
      have h := Stretches.head head (stretches_pieces chunks (@Stretches.separator env left))
      simp only [Sent.stream, Forest.pieces_stream, Forest.stream, List.append_nil, List.cons_append,
        List.append_assoc, List.nil_append]
      exact h

theorem pieces_names (chunks : List Bytes) : (Forest.pieces chunks .nil).names = [] := by
  induction chunks with
  | nil => rfl
  | cons content chunks ih => exact ih

theorem pieces_bytes (registry : Registry) (chunks : List Bytes) :
    (Forest.pieces chunks .nil).bytes registry = chunks.flatten := by
  induction chunks with
  | nil => rfl
  | cons content chunks ih =>
      rw [List.flatten_cons, ← ih]
      rfl

-- One turn of the loop after another.
def turns : List (Except Err (Option Result)) → Yielded Result
  | [] => .pure []
  | .error e :: _ => .raise e
  | .ok result :: rest => (Yielded.pure result.toList).andThen (turns rest)

-- What a message with a head gives.
def Receiver.delivers (receiver : Receiver) (message : Outgoing) : Except Err (Option Result) :=
  receiver.turn { head := some ⟨0⟩ } message.type message.messageToBytes

theorem mainLoop_plain (hd : receiver.env.Digests) {messages : List Outgoing} {sents : List Sent}
    (hsent : List.Forall₂ (fun message sent => (receiver.allIndices.lookup sent.head.index =
        some message.type ∧ receiver.mode sent.head.index = true) ∧
      sent.Plain message.messageToBytes) messages sents)
    (fuel : Nat) (w : World) (hrequests : w.requests = sents.flatMap (Sent.stream receiver.env))
    (hfuel : w.requests.length < fuel) :
    (receiver.mainLoop fuel w).1 = turns (messages.map receiver.delivers) := by
  induction hsent generalizing fuel w with
  | nil =>
      obtain ⟨fuel, rfl⟩ : ∃ n, fuel = n + 1 := ⟨fuel - 1, by omega⟩
      simp only [Receiver.mainLoop, hrequests, List.flatMap_nil]
      rfl
  | @cons message sent messages sents hone _ ih =>
      obtain ⟨⟨hfield, hmode⟩, hplain⟩ := hone
      obtain ⟨fuel, rfl⟩ : ∃ n, fuel = n + 1 := ⟨fuel - 1, by omega⟩
      rw [List.flatMap_cons] at hrequests
      obtain ⟨b, rest, hb, hhead⟩ : ∃ b rest, w.requests = b :: rest ∧ b.head = some sent.head := by
        rw [hrequests]
        cases sent with
        | framed head forest => exact ⟨_, _, rfl, rfl⟩
        | single head content => exact ⟨_, _, rfl, rfl⟩
      have hindexOf : receiver.indexOf b = sent.head.index := by
        simp only [Receiver.indexOf, hhead, Option.map_some, Option.getD_some]
      obtain ⟨chunks, hforest, hcontent⟩ := hplain.pieces
      have hnames : sent.forest.names = [] := hforest ▸ pieces_names chunks
      have hbytes : sent.forest.bytes w.registry = message.messageToBytes := by
        rw [hforest, pieces_bytes, hcontent]
      have hstretch := hplain.stretches receiver.env (sents.flatMap (Sent.stream receiver.env))
      obtain ⟨items, hreceive, -, hleft⟩ := receive_memory hd b w (hrequests ▸ hstretch)
        (by simp [hnames]) (hindexOf ▸ hfield) (hindexOf ▸ hmode)
      have hturn : receiver.turn b message.type (sent.forest.bytes w.registry) =
          receiver.delivers message := by
        rw [hbytes]
        simp only [Receiver.delivers, Receiver.turn, Receiver.onEmpty, hhead]
      have hless : (w.afterAll receiver.control items).requests.length < fuel := by
        have hlength := congrArg List.length hrequests
        rw [List.length_append, ← hleft] at hlength
        have hpos : 0 < (sent.stream receiver.env).length := by cases sent <;> simp [Sent.stream]
        omega
      rw [hturn] at hreceive
      simp only [Receiver.mainLoop, hb, hreceive, List.map_cons]
      cases receiver.delivers message with
      | error e => rfl
      | ok result =>
          simp only [saveOf, turns, ← ih fuel _ hleft hless]
          rfl

end Receiving

section Messages

variable {receiver : Receiver}

-- The value that a message is in memory.
def Outgoing.value : Outgoing → Value
  | dir _ _ => .bytes []
  | message cls content => .message cls content
  | bytes content => .bytes content
  | str content => .str content

theorem turns_length (results : List (Except Err (Option Result))) :
    (turns results).items.length ≤ results.length := by
  induction results with
  | nil => exact Nat.le_refl _
  | cons result results ih =>
      cases result with
      | error e => exact Nat.zero_le _
      | ok result =>
          simp only [turns, Yielded.andThen, Yielded.pure, List.length_append, List.length_cons]
          cases result with
          | none => simpa using Nat.le_succ_of_le ih
          | some result => simpa [Nat.add_comm] using ih

-- As many results as turns come only of turns that all yield theirs.
theorem turns_eq_pure {α : Type} (result : α → Except Err (Option Result)) (value : α → Result)
    (items : List α) :
    turns (items.map result) = .pure (items.map value) ↔
      ∀ item ∈ items, result item = .ok (some (value item)) := by
  induction items with
  | nil => exact ⟨fun _ _ h => absurd h List.not_mem_nil, fun _ => rfl⟩
  | cons item items ih =>
      simp only [List.map_cons, List.forall_mem_cons, ← ih]
      cases hresult : result item with
      | error e => simp [turns, Yielded.raise, Yielded.pure]
      | ok found =>
          simp only [turns]
          cases found with
          | none =>
              have hlength := turns_length (items.map result)
              rw [List.length_map] at hlength
              simp only [Option.toList_none, nil_andThen, Except.ok.injEq, reduceCtorEq, false_and,
                iff_false]
              intro h
              rw [h] at hlength
              simp [Yielded.pure] at hlength
          | some found =>
              cases hturns : turns (items.map result) with
              | mk more raised =>
                  simp only [Option.toList_some, Yielded.andThen, Yielded.pure, List.singleton_append,
                    Yielded.mk.injEq, List.cons.injEq, Except.ok.injEq, Option.some.injEq, and_assoc]

-- A message arrives as it was sent unless it is empty; then an Empty is all that can be yielded,
-- and it is if index 1 stands for it.
theorem delivers_iff (message : Outgoing) (hdirect : message.Direct)
    (hparse : ∀ cls content, message = .message cls content →
      receiver.parse cls content.serializeToString = some content)
    (hempty : receiver.parse 0 [] = some (.unknown [])) :
    receiver.delivers message = .ok (some (.value message.value)) ↔
      message.messageToBytes ≠ [] ∨
        message.type = .empty ∧ receiver.allIndices.lookup 1 = some .empty := by
  rw [Receiver.delivers, Receiver.turn]
  by_cases hcontent : message.messageToBytes = []
  · rw [if_pos hcontent]
    simp only [Receiver.onEmpty, hcontent, ne_eq, not_true_eq_false, false_or]
    cases hlookup : receiver.allIndices.lookup 1 with
    | none => simp
    | some field =>
        simp only [Except.ok.injEq, Option.some.injEq, Receiver.emptyResult]
        by_cases hfield : field = .empty
        · subst hfield
          simp only [if_true, Option.some.injEq, Result.value.injEq, and_true]
          cases message with
          | message cls content =>
              simp only [Outgoing.value, Value.message.injEq, Outgoing.type, Field.empty,
                Field.message.injEq]
              constructor
              · rintro ⟨rfl, -⟩
                rfl
              · rintro rfl
                have h := hparse 0 content rfl
                have hbytes : content.serializeToString = [] := hcontent
                rw [hbytes, hempty] at h
                exact ⟨rfl, Option.some.inj h⟩
          | dir stored type => exact hdirect.elim
          | bytes content => simp [Outgoing.value, Outgoing.type, Field.empty]
          | str content => exact hdirect.elim
        · simp [hfield]
  · rw [if_neg hcontent]
    simp only [ne_eq, hcontent, not_false_eq_true, true_or, iff_true]
    cases message with
    | dir stored type => exact hdirect.elim
    | message cls content =>
        simp only [Receiver.convert, Outgoing.type, Outgoing.messageToBytes, hparse cls content rfl]
        rfl
    | bytes content => rfl
    | str content => exact hdirect.elim

-- The index map of both sides, and where the message goes in it.
theorem allIndices_direct {sender : Sender} (hindices : sender.indices = receiver.indices)
    (messages : List Outgoing)
    (hdirect : ∀ message ∈ messages, message.Direct)
    (htypes : ∀ message ∈ messages, ∃ index, (index, message.type) ∈ receiver.allIndices)
    (hready : messages ≠ [] ∨ 1 < receiver.allIndices.length) :
    sender.allIndices messages = .ok receiver.allIndices := by
  simp only [Sender.allIndices, hindices]
  split
  · rename_i hlength
    have hbytes : receiver.allIndices = [(0, .bytes)] := by
      obtain ⟨entry, hentry⟩ := List.length_eq_one_iff.mp hlength
      have hlookup := Dict.lookup_set (0 : Int) 0 Field.bytes receiver.indices
      rw [hentry, if_pos rfl] at hlookup
      rw [Receiver.allIndices, hentry]
      obtain ⟨index, field⟩ := entry
      by_cases hindex : (0 : Int) = index
      · subst hindex
        simpa using hlookup
      · simp [List.lookup_cons, beq_false_of_ne hindex] at hlookup
    cases messages with
    | nil => exact absurd hready (by simp [hbytes])
    | cons message messages =>
        obtain ⟨index, hindex⟩ := htypes message (List.mem_cons_self ..)
        have hdirect := hdirect message (List.mem_cons_self ..)
        cases message with
        | dir stored type => exact hdirect.elim
        | message cls content => simp [hbytes, Outgoing.type] at hindex
        | _ => rfl
  · rfl

theorem lookup_reversed {indices : Dict Int Field} (hkeys : (indices.map Prod.fst).Nodup)
    {index : Int} {type : Field} (h : (Sender.reversed indices).lookup type = some index) :
    indices.lookup index = some type := by
  obtain ⟨entry, hentry, heq⟩ := List.mem_map.mp (Dict.mem_of_lookup_ofList h)
  obtain ⟨rfl, rfl⟩ := Prod.mk.inj heq
  exact Dict.lookup_of_nodup indices hkeys _ _ hentry

theorem exists_reversed {indices : Dict Int Field} {index : Int} {type : Field}
    (h : (index, type) ∈ indices) : ∃ index', (Sender.reversed indices).lookup type = some index' :=
  Dict.exists_lookup_ofList
    (List.mem_map_of_mem (f := fun entry : Int × Field => (entry.2, entry.1)) h)

end Messages

-- Messages and byte strings through the memory: they all arrive, in order and as they were sent,
-- where none of them is empty; an empty one does only if it is an Empty and index 1 stands for it.
theorem parseFromBuffer_messages_iff (sender : Sender) (receiver : Receiver)
    (messages : List Outgoing) (w : World) (hd : receiver.env.Digests)
    (hindices : sender.indices = receiver.indices)
    (hkeys : (receiver.indices.map Prod.fst).Nodup)
    (hmode : receiver.partitionsMessageMode = .inl true)
    (hdirect : ∀ message ∈ messages, message.Direct)
    (htypes : ∀ message ∈ messages, ∃ index, (index, message.type) ∈ receiver.allIndices)
    (hparse : ∀ cls content, Outgoing.message cls content ∈ messages →
      receiver.parse cls content.serializeToString = some content)
    (hempty : receiver.parse 0 [] = some (.unknown [])) :
    let stream := serializeToBuffer sender messages
    let outcome := parseFromBuffer receiver { w with requests := stream.items }
    (stream.raised = none ∧ outcome.1 = .pure (messages.map fun message => .value message.value)) ↔
      receiver.indices ≠ [] ∧ (messages ≠ [] ∨ 1 < receiver.allIndices.length) ∧
        ∀ message ∈ messages, message.messageToBytes ≠ [] ∨
          message.type = .empty ∧ receiver.allIndices.lookup 1 = some .empty := by
  intro stream outcome
  by_cases hne : receiver.indices = []
  · have hraise : outcome.1 = .raise .indicesNotCorrect := by
      simp [outcome, parseFromBuffer, Receiver.isCorrect, hne]
    simp [hne, hraise, Yielded.raise, Yielded.pure]
  by_cases hready : messages ≠ [] ∨ 1 < receiver.allIndices.length
  · have hkeys' : (receiver.allIndices.map Prod.fst).Nodup := Dict.nodup_set hkeys
    obtain ⟨sents, hpayload, hsents⟩ := @payload_plain sender
      (Sender.reversed receiver.allIndices) messages 0 hdirect fun message hmessage => by
        obtain ⟨index, hindex⟩ := htypes message hmessage
        exact exists_reversed hindex
    have hstream : stream = .pure (sents.flatMap (Sent.stream sender.env)) := by
      simp only [stream, serializeToBuffer,
        allIndices_direct hindices messages hdirect htypes hready, hpayload]
    have hall : List.Forall₂ (fun message sent => (receiver.allIndices.lookup sent.head.index =
        some message.type ∧ receiver.mode sent.head.index = true) ∧
        sent.Plain message.messageToBytes) messages sents :=
      hsents.imp fun message sent h =>
        ⟨⟨lookup_reversed hkeys' h.1, by simp only [Receiver.mode, hmode]⟩, h.2⟩
    have hitems : stream.items = sents.flatMap (Sent.stream receiver.env) := by
      rw [hstream]
      exact streams_congr (hsents.imp fun message sent h => h.2) _ _
    have hread : controlReader receiver.env stream.items = stream.items :=
      controlReader_skip _ _ (serializeToBuffer_skip messages)
    have hcorrect : receiver.isCorrect = true := by
      simp [Receiver.isCorrect, hmode, hne]
    have houtcome : outcome.1 = turns (messages.map receiver.delivers) := by
      simp only [outcome, parseFromBuffer, hcorrect, if_true, hread, ite_self]
      exact mainLoop_plain hd hall _ _ hitems (Nat.lt_succ_self _)
    rw [houtcome, turns_eq_pure]
    have hraised : stream.raised = none := by rw [hstream]; rfl
    simp only [hraised, true_and, ne_eq, hne, not_false_eq_true, hready]
    refine forall₂_congr fun message hmessage => ?_
    exact delivers_iff message (hdirect message hmessage)
      (fun cls content heq => hparse cls content (heq ▸ hmessage)) hempty
  · have hraised : stream.raised = some .stopIteration := by
      simp only [not_or, ne_eq, not_not, Nat.not_lt] at hready
      have hlength : (Dict.set 0 .bytes sender.indices).length = 1 := by
        have hpos : 0 < receiver.allIndices.length :=
          List.length_pos_iff.mpr (Dict.set_ne_nil 0 Field.bytes receiver.indices)
        have := hready.2
        rw [hindices]
        simp only [Receiver.allIndices] at *
        omega
      simp only [stream, serializeToBuffer, Sender.allIndices, hlength, if_true, hready.1]
      rfl
    simp [hraised, hready]

-- A class 7 with a bytes field 1, for the memory.
def Receiver.inMemory : Receiver where
  env := .sample
  parse := fun _ content =>
    match content with
    | [] => some (.unknown [])
    | [10, 1, b] => some (.bytes 1 [b] (.unknown []))
    | _ => none
  indices := [(1, .message 7)]
  partitionsMessageMode := .inl true

def Sender.mapped : Sender := { Sender.sample with indices := [(1, .message 7)] }

theorem parseFromBuffer_messages_iff_sample :
    let sender : Sender := .mapped
    let receiver : Receiver := .inMemory
    let messages : List Outgoing := [.message 7 (.bytes 1 [5] (.unknown [])), .bytes [9]]
    let stream := serializeToBuffer sender messages
    let outcome := parseFromBuffer receiver { requests := stream.items, registry := [] }
    (stream.raised = none ∧ outcome.1 = .pure (messages.map fun message => .value message.value)) ↔
      receiver.indices ≠ [] ∧ (messages ≠ [] ∨ 1 < receiver.allIndices.length) ∧
        ∀ message ∈ messages, message.messageToBytes ≠ [] ∨
          message.type = .empty ∧ receiver.allIndices.lookup 1 = some .empty :=
  parseFromBuffer_messages_iff .mapped .inMemory
    [.message 7 (.bytes 1 [5] (.unknown [])), .bytes [9]] { requests := [], registry := [] }
    (fun _ => List.cons_ne_nil _ _) rfl (by decide) rfl (by simp [Outgoing.Direct])
    (by
      intro message hmessage
      rcases List.mem_cons.mp hmessage with rfl | hmessage
      · exact ⟨1, by decide⟩
      · obtain rfl := List.mem_singleton.mp hmessage
        exact ⟨0, by decide⟩)
    (by
      intro cls content hmessage
      obtain ⟨rfl, rfl⟩ : cls = 7 ∧ content = .bytes 1 [5] (.unknown []) := by simpa using hmessage
      decide)
    rfl

-- A message of default values is lost, and the one after it comes in its place.
theorem parseFromBuffer_loses_defaults :
    let messages : List Outgoing := [.message 7 (.unknown []), .bytes [9]]
    let stream := serializeToBuffer .mapped messages
    let outcome := parseFromBuffer .inMemory { requests := stream.items, registry := [] }
    stream = .pure [singleBuffer ⟨1⟩ [], singleBuffer ⟨0⟩ [9]] ∧
      outcome.1 = .pure [.value (.bytes [9])] ∧
      outcome.1 ≠ .pure (messages.map fun message => .value message.value) := by
  decide

end BeeRpc
