import BeeRpc.Message

namespace BeeRpc

open Wire Naming

-- block_builder.get_position_length
def getPositionLength (varintPos : Nat) (buffer : Bytes) : Except Err Nat :=
  match Varint.decode? (buffer.drop varintPos) with
  | some value => .ok value
  | none => .error .indexError

namespace Message

-- Fields numbered at most 15, strings of one byte a character, and nothing unknown.
def Plain : Message → Prop
  | unknown fields => fields = []
  | message number value rest => number ≤ 15 ∧ value.Plain ∧ rest.Plain
  | group _ _ _ => False
  | bytes number _ rest => number ≤ 15 ∧ rest.Plain
  | string number value rest => number ≤ 15 ∧ (∀ c ∈ value, c.toNat < 128) ∧ rest.Plain
  | other _ rest => rest.Plain

instance decidablePlain : (message : Message) → Decidable message.Plain
  | unknown fields => inferInstanceAs (Decidable (fields = []))
  | message number value rest =>
      have := decidablePlain value
      have := decidablePlain rest
      inferInstanceAs (Decidable (number ≤ 15 ∧ value.Plain ∧ rest.Plain))
  | group _ _ _ => inferInstanceAs (Decidable False)
  | bytes number _ rest =>
      have := decidablePlain rest
      inferInstanceAs (Decidable (number ≤ 15 ∧ rest.Plain))
  | string number value rest =>
      have := decidablePlain rest
      have : Decidable (∀ c ∈ value, c.toNat < 128) := List.decidableBAll _ value
      inferInstanceAs (Decidable (number ≤ 15 ∧ (∀ c ∈ value, c.toNat < 128) ∧ rest.Plain))
  | other _ rest => decidablePlain rest

theorem tag_length {number : Nat} (h : number ≤ 15) : (tag number 2).length = 1 :=
  Varint.encode_length_small _ (by omega)

theorem utf8_length {value : List Char} (h : ∀ c ∈ value, c.toNat < 128) :
    (utf8 value).length = value.length := by
  induction value with
  | nil => rfl
  | cons c value ih =>
      have hc : c.utf8Size = 1 := by
        rw [Char.utf8Size_eq_one_iff, UInt32.le_iff_toNat_le]
        exact Nat.le_of_lt_succ (h c (List.mem_cons_self ..))
      rw [utf8, List.flatMap_cons, List.length_append, String.length_utf8EncodeChar, hc,
        List.length_cons, Nat.add_comm]
      exact congrArg (· + 1) (ih fun c hm => h c (List.mem_cons_of_mem _ hm))

theorem Plain.unknownFields {message : Message} (h : message.Plain) :
    message.unknownFields = [] := by
  induction message with
  | unknown fields => exact h
  | message number value rest _ ih => exact ih h.2.2
  | group number value rest _ _ => exact h.elim
  | bytes number value rest ih => exact ih h.2
  | string number value rest ih => exact ih h.2.2
  | other encoding rest ih => exact ih h

variable (pointer? : Bytes → Option BlockId)

-- In a plain message nothing is miscounted.
theorem Plain.balanced {message : Message} (h : message.Plain) :
    Balanced pointer? message [] 0 := by
  induction message with
  | unknown fields => trivial
  | message number value rest ihValue ihRest =>
      have ht := tag_length h.1
      have hv := ihValue h.2.1
      rw [← h.2.1.unknownFields] at hv
      simp only [Balanced, ht, Nat.cast_one, zero_add, sub_self, true_and]
      exact ⟨fun _ => hv, ihRest h.2.2⟩
  | group number value rest _ _ => exact h.elim
  | bytes number value rest ih =>
      have ht := tag_length h.1
      simp only [Balanced, ht, Nat.cast_one, zero_add, sub_self, implies_true, true_and]
      exact ih h.2
  | string number value rest ih =>
      have ht := tag_length h.1
      simp only [Balanced, ht, utf8_length h.2.1, Nat.cast_one, zero_add, sub_self]
      exact ih h.2.2
  | other encoding rest ih => simpa [Balanced] using ih h

end Message

section

variable (env : Enviroment) (parse : ParseBlock) (blocks : List BlockId)
  (inherited : Option (List Bytes))

theorem searchOnMessage_container (message : Message) :
    (searchOnMessage env parse blocks inherited message).container =
      Dict.group (message.foundChains (pointerOf env parse blocks inherited)
        message.unknownFields 0) := by
  rw [searchOnMessage, Message.searchLoop_eq, Dict.group, Message.foundChains, List.foldl_map]
  rfl

-- What the encoding holds at the positions of a chain.
theorem spine_getPositionLength (message : Message) (pointer? : Bytes → Option BlockId) :
    ∀ entry ∈ (message.document pointer?).spine Prod.snd 0, ∀ p ∈ entry.2,
      getPositionLength p.1 message.serializeToString = .ok p.2 := by
  intro entry he p hp
  obtain ⟨mark, hm, hpos, hold⟩ := Document.spine_marks Prod.snd Prod.snd 0 _ entry he p hp
  have := Document.marks_decode Prod.snd Prod.snd _ mark hm
  rw [Message.document_render, hpos, hold] at this
  simp only [getPositionLength, this]

-- The walk records, under each block, the true chain of every pointer to it, at whose
-- positions the lengths of the fields can be read, if and only if its miscounts cancel
-- at every field that leads to a pointer.
theorem searchOnMessage_positions_iff (message : Message) :
    ((searchOnMessage env parse blocks inherited message).container =
        Dict.group (message.trueChains (pointerOf env parse blocks inherited) 0) ∧
      ∀ entry ∈ (message.document (pointerOf env parse blocks inherited)).spine Prod.snd 0,
        ∀ p ∈ entry.2, getPositionLength p.1 message.serializeToString = .ok p.2) ↔
      message.Balanced (pointerOf env parse blocks inherited) message.unknownFields 0 := by
  rw [and_iff_left (spine_getPositionLength message _), searchOnMessage_container]
  have hiff := Message.foundChains_eq_iff (pointerOf env parse blocks inherited) message
    message.unknownFields 0 0
  rw [Nat.cast_zero, sub_zero] at hiff
  rw [← hiff]
  constructor
  · refine Dict.group_injective ?_
    rw [Message.foundChains_names, Message.trueChains_names]
  · exact fun h => by rw [h]

-- A string of one character and two bytes in front of a pointer.
theorem searchOnMessage_counts_characters :
    let id : BlockId := [7]
    let pointer := blockPointerBytes .sample id
    let parse : ParseBlock := fun value =>
      if value = pointer then some (blockPointer .sample id, value.length) else none
    let message := Message.string 1 ['é'] (.bytes 2 pointer (.unknown []))
    ¬((searchOnMessage .sample parse [id] none message).container =
        Dict.group (message.trueChains (pointerOf .sample parse [id] none) 0) ∧
      ∀ entry ∈ (message.document (pointerOf .sample parse [id] none)).spine Prod.snd 0,
        ∀ p ∈ entry.2, getPositionLength p.1 message.serializeToString = .ok p.2) := by
  decide

end

end BeeRpc
