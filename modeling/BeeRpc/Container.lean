import BeeRpc.Buffer
import BeeRpc.Wire.Record
import Mathlib.Algebra.BigOperators.Group.List.Basic

namespace BeeRpc

open Wire

-- The texts of the ValueErrors that `read_bee_file` raises.
inductive BeeFileErr where
  | couldNotReadMessageSize
  | incompleteMessageData
  | failedToParseMessage
  deriving Repr, DecidableEq

section

-- What protobuf makes of a Buffer and of bytes; `none` is a DecodeError.
variable (serializeToString : Buffer → Bytes) (parseFromString : Bytes → Option Buffer)

-- The framing loop of `write_to_file`, over what `serialize_to_buffer` gives. A size
-- that four bytes cannot hold is an OverflowError.
def writeToFile : List Buffer → Option Bytes
  | [] => some []
  | buff :: rest => do
      let serializedData := serializeToString buff
      let size := serializedData.length
      let sizeBytes ← if size < 256 ^ 4 then some (toBytesBig 4 size) else none
      let written ← writeToFile rest
      return sizeBytes ++ serializedData ++ written

-- What is yielded before the file ends or a ValueError is raised. The bytes are those
-- from the handle's position on; a read gives fewer than asked for only at their end.
def readBeeFile (bytes : Bytes) : List Buffer × Option BeeFileErr :=
  if _hend : bytes.take 4 = [] then ([], none)
  else if (bytes.take 4).length ≠ 4 then ([], some .couldNotReadMessageSize)
  else
    let messageSize := fromBytesBig (bytes.take 4)
    let messageBytes := (bytes.drop 4).take messageSize
    if messageBytes.length ≠ messageSize then ([], some .incompleteMessageData)
    else match parseFromString messageBytes with
      | none => ([], some .failedToParseMessage)
      | some buff =>
          let more := readBeeFile ((bytes.drop 4).drop messageSize)
          (buff :: more.1, more.2)
  termination_by bytes.length
  decreasing_by
    have hpos : 0 < bytes.length := by
      rcases bytes with - | ⟨byte, rest⟩
      · exact absurd rfl _hend
      · simp
    simp only [List.length_drop]
    omega

-- Where the record of the n-th Buffer ends in the file.
def recordsEnd (buffers : List Buffer) (n : Nat) : Nat :=
  ((buffers.take n).map fun buff => 4 + (serializeToString buff).length).sum

variable {serializeToString parseFromString}

theorem recordsEnd_cons (buff : Buffer) (rest : List Buffer) (n : Nat) :
    recordsEnd serializeToString (buff :: rest) (n + 1) =
      4 + (serializeToString buff).length + recordsEnd serializeToString rest n := by
  simp [recordsEnd]

theorem writeToFile_cons {buff : Buffer} (rest : List Buffer)
    (hsize : (serializeToString buff).length < 256 ^ 4) :
    writeToFile serializeToString (buff :: rest) = (writeToFile serializeToString rest).map
      ((toBytesBig 4 (serializeToString buff).length ++ serializeToString buff) ++ ·) := by
  simp only [writeToFile, hsize, if_true]
  cases writeToFile serializeToString rest <;> rfl

theorem readBeeFile_nil : readBeeFile parseFromString [] = ([], none) := by
  rw [readBeeFile]
  rfl

-- A whole record gives its Buffer, and the reader goes on behind it.
theorem readBeeFile_record {data : Bytes} {buff : Buffer} (rest : Bytes)
    (hsize : data.length < 256 ^ 4) (hparse : parseFromString data = some buff) :
    readBeeFile parseFromString (toBytesBig 4 data.length ++ data ++ rest) =
      (buff :: (readBeeFile parseFromString rest).1, (readBeeFile parseFromString rest).2) := by
  have hlength := toBytesBig_length 4 data.length
  have htake : (toBytesBig 4 data.length ++ data ++ rest).take 4 = toBytesBig 4 data.length := by
    rw [List.append_assoc, List.take_append_of_le_length (by omega),
      List.take_of_length_le (by omega)]
  have hdrop : (toBytesBig 4 data.length ++ data ++ rest).drop 4 = data ++ rest := by
    rw [List.append_assoc, List.drop_append_of_le_length (by omega), List.drop_of_length_le (by omega)]
    rfl
  have hne : toBytesBig 4 data.length ≠ [] := List.ne_nil_of_length_pos (by omega)
  rw [readBeeFile, dif_neg (by rwa [htake])]
  simp only [htake, hdrop, hlength, fromBytesBig_toBytesBig 4 _ hsize, ne_eq, not_true_eq_false,
    if_false, List.take_left', List.drop_left', hparse]

-- A file that ends inside a record gives nothing of it, and only one that ends before its
-- first byte ends well.
theorem readBeeFile_torn {data front : Bytes} (hsize : data.length < 256 ^ 4)
    (hfront : front <+: toBytesBig 4 data.length ++ data)
    (htorn : front.length < 4 + data.length) :
    (readBeeFile parseFromString front).1 = [] ∧
      ((readBeeFile parseFromString front).2 = none ↔ front.length = 0) := by
  have hlength := toBytesBig_length 4 data.length
  rcases prefix_append_cases hfront with ⟨-, hinside⟩ | ⟨more, rfl, hmore⟩
  · rw [readBeeFile, List.take_of_length_le (by omega)]
    by_cases hnil : front = []
    · simp [hnil]
    · have hpos := List.length_pos_iff.mpr hnil
      rw [dif_neg hnil, if_pos (by omega)]
      exact ⟨rfl, by simp; omega⟩
  · simp only [List.length_append] at htorn
    have htake : (toBytesBig 4 data.length ++ more).take 4 = toBytesBig 4 data.length := by
      rw [List.take_append_of_le_length (by omega), List.take_of_length_le (by omega)]
    have hdrop : (toBytesBig 4 data.length ++ more).drop 4 = more := by
      rw [List.drop_append_of_le_length (by omega), List.drop_of_length_le (by omega)]
      rfl
    have hne : toBytesBig 4 data.length ≠ [] := List.ne_nil_of_length_pos (by omega)
    rw [readBeeFile, dif_neg (by rwa [htake])]
    simp only [htake, hdrop, hlength, fromBytesBig_toBytesBig 4 _ hsize, ne_eq, not_true_eq_false,
      if_false]
    rw [if_pos (by rw [List.length_take]; omega)]
    refine ⟨rfl, ?_⟩
    simp only [reduceCtorEq, List.length_append, false_iff]
    omega

-- What is written reads back, and a file cut short gives the Buffers of the records that
-- are whole and tells whether it ends between two of them.
theorem readBeeFile_writeToFile (buffers : List Buffer)
    (hparse : ∀ buff ∈ buffers, parseFromString (serializeToString buff) = some buff)
    (hsize : ∀ buff ∈ buffers, (serializeToString buff).length < 2 ^ 32) :
    ∃ written, writeToFile serializeToString buffers = some written ∧
      readBeeFile parseFromString written = (buffers, none) ∧
      ∀ front, front <+: written → ∃ n, n ≤ buffers.length ∧
        (∀ m ≤ buffers.length,
          recordsEnd serializeToString buffers m ≤ front.length ↔ m ≤ n) ∧
        (readBeeFile parseFromString front).1 = buffers.take n ∧
        ((readBeeFile parseFromString front).2 = none ↔
          ∃ m ≤ buffers.length, front.length = recordsEnd serializeToString buffers m) := by
  induction buffers with
  | nil =>
      refine ⟨[], rfl, readBeeFile_nil, ?_⟩
      intro front hfront
      obtain rfl := List.prefix_nil.mp hfront
      refine ⟨0, Nat.le_refl _, ?_, by rw [readBeeFile_nil]; rfl, ?_⟩
      · intro m hm
        simpa [recordsEnd] using hm
      · rw [readBeeFile_nil]
        exact ⟨fun _ => ⟨0, Nat.le_refl _, rfl⟩, fun _ => rfl⟩
  | cons buff rest ih =>
      have hfits : (serializeToString buff).length < 256 ^ 4 := hsize buff (by simp)
      have hown := hparse buff (by simp)
      obtain ⟨written, hwritten, hwhole, hcut⟩ := ih (fun b hb => hparse b (by simp [hb]))
        (fun b hb => hsize b (by simp [hb]))
      refine ⟨_, by rw [writeToFile_cons rest hfits, hwritten]; rfl, ?_, ?_⟩
      · rw [readBeeFile_record written hfits hown, hwhole]
      · intro front hfront
        have hlength := toBytesBig_length 4 (serializeToString buff).length
        rcases prefix_append_cases hfront with ⟨hinside, hshort⟩ | ⟨more, rfl, hmore⟩
        · rw [List.length_append, hlength] at hshort
          obtain ⟨hnothing, hends⟩ := @readBeeFile_torn parseFromString _ front hfits hinside hshort
          refine ⟨0, Nat.zero_le _, ?_, hnothing, ?_⟩
          · intro m hm
            cases m with
            | zero => simp [recordsEnd]
            | succ m =>
                rw [recordsEnd_cons]
                omega
          · rw [hends]
            constructor
            · exact fun hzero => ⟨0, Nat.zero_le _, hzero⟩
            · rintro ⟨m, hm, heq⟩
              cases m with
              | zero => exact heq
              | succ m =>
                  rw [recordsEnd_cons] at heq
                  omega
        · obtain ⟨n, hn, hinside, htaken, hends⟩ := hcut more hmore
          have htotal : (toBytesBig 4 (serializeToString buff).length ++ serializeToString buff ++
              more).length = 4 + (serializeToString buff).length + more.length := by
            simp only [List.length_append, hlength]
          rw [readBeeFile_record more hfits hown, htotal]
          refine ⟨n + 1, Nat.succ_le_succ hn, ?_, by rw [htaken]; rfl, ?_⟩
          · intro m hm
            cases m with
            | zero => simp [recordsEnd]
            | succ m =>
                have h := hinside m (Nat.le_of_succ_le_succ hm)
                rw [recordsEnd_cons]
                omega
          · rw [hends]
            constructor
            · rintro ⟨m, hm, heq⟩
              exact ⟨m + 1, Nat.succ_le_succ hm, by rw [recordsEnd_cons, heq]⟩
            · rintro ⟨m, hm, heq⟩
              cases m with
              | zero =>
                  simp only [recordsEnd, List.take_zero, List.map_nil, List.sum_nil] at heq
                  omega
              | succ m =>
                  rw [recordsEnd_cons] at heq
                  exact ⟨m, Nat.le_of_succ_le_succ hm, by omega⟩

end

-- How protobuf writes and reads the Buffers of the sample below.
def sampleSerialize (buff : Buffer) : Bytes :=
  (match buff.chunk with
    | some chunk => 0x0A :: delimited chunk
    | none => []) ++
    (match buff.separator with
      | some separator => [0x10, if separator then 1 else 0]
      | none => [])

def sampleParse (data : Bytes) : Option Buffer :=
  match data with
  | [] => some {}
  | [0x10, separator] => some { separator := some (separator ≠ 0) }
  | 0x0A :: length :: chunk => if chunk.length = length.toNat then some { chunk := some chunk } else none
  | _ => none

theorem readBeeFile_writeToFile_sample :
    let buffers : List Buffer := [{ chunk := some [104, 105] }, {}, { separator := some true }]
    ∃ written, writeToFile sampleSerialize buffers = some written ∧
      readBeeFile sampleParse written = (buffers, none) ∧
      ∀ front, front <+: written → ∃ n, n ≤ buffers.length ∧
        (∀ m ≤ buffers.length, recordsEnd sampleSerialize buffers m ≤ front.length ↔ m ≤ n) ∧
        (readBeeFile sampleParse front).1 = buffers.take n ∧
        ((readBeeFile sampleParse front).2 = none ↔
          ∃ m ≤ buffers.length, front.length = recordsEnd sampleSerialize buffers m) := by
  intro buffers
  exact readBeeFile_writeToFile buffers (by decide) (by decide)

end BeeRpc
