import BeeRpc.BuildMultiblock

namespace BeeRpc

open Wire Naming

namespace Message

variable (parse : ParseBlock) (pointer? : Bytes → Option BlockId)

-- The size of the pointer that protobuf writes for the block it has read from a value: what
-- search_on_message_real takes for the length of the value.
def respelledSize (value : Bytes) : Nat := ((parse value).map Prod.snd).getD 0

-- The pointers that search_on_message_real comes to, each with the position that it is looked up at,
-- when it enters the fields at the known positions only.
def walked (known : Nat → Bool) : Message → Bytes → Nat → List (BlockId × Nat)
  | unknown _, _, _ => []
  | message _ value rest, own, position =>
      let size := value.byteSize
      (if known (position + 1) then
          walked known value value.unknownFields (position + 1 + width size) else []) ++
        walked known rest own (position + 1 + width size + size)
  | group _ value rest, own, position =>
      let size := value.byteSize
      (if known (position + 1) then
          walked known value value.unknownFields (position + 1 + width size) else []) ++
        walked known rest own (position + 1 + width size + size)
  | bytes _ value rest, own, position =>
      match pointer? value with
      | some id =>
          let size := respelledSize parse value
          (id, position + 1) :: walked known rest own (position + 1 + width size + size)
      | none => walked known rest own (position + 1 + width value.length + value.length)
  | string _ value rest, own, position =>
      walked known rest own (position + 1 + width value.length + value.length)
  | other encoding rest, own, position =>
      walked known rest own (position + clearedSize encoding own)

-- Somewhere the walk passes over a field that leads to a pointer, as it does not know the position at
-- which it expects that field.
def Overlooks (known : Nat → Bool) : Message → Bytes → Nat → Prop
  | unknown _, _, _ => False
  | message _ value rest, own, position =>
      let size := value.byteSize
      ((value.document pointer?).holes ≠ [] ∧ known (position + 1) = false) ∨
        Overlooks known value value.unknownFields (position + 1 + width size) ∨
        Overlooks known rest own (position + 1 + width size + size)
  | group _ value rest, own, position =>
      let size := value.byteSize
      ((value.document pointer?).holes ≠ [] ∧ known (position + 1) = false) ∨
        Overlooks known value value.unknownFields (position + 1 + width size) ∨
        Overlooks known rest own (position + 1 + width size + size)
  | bytes _ value rest, own, position =>
      let size := if (pointer? value).isSome then respelledSize parse value else value.length
      Overlooks known rest own (position + 1 + width size + size)
  | string _ value rest, own, position =>
      Overlooks known rest own (position + 1 + width value.length + value.length)
  | other encoding rest, own, position =>
      Overlooks known rest own (position + clearedSize encoding own)

-- The positions of the fields that lead to a pointer, and of the pointers, in the encoding.
def keys (message : Message) : List Nat :=
  ((message.document pointer?).marks Prod.snd Prod.snd 0).map Mark.position

variable {parse pointer?}

theorem entered_sublist (known : Bool) {inner : List (BlockId × Nat)} {holes : List (BlockId × Bytes)}
    (h : (inner.map Prod.fst).Sublist (holes.map Prod.fst)) :
    ((if known then inner else []).map Prod.fst).Sublist (holes.map Prod.fst) := by
  cases known with
  | false => exact List.nil_sublist _
  | true => exact h

theorem walked_sublist (known : Nat → Bool) (message : Message) (own : Bytes) (position : Nat) :
    ((message.walked parse pointer? known own position).map Prod.fst).Sublist
      ((message.document pointer?).holes.map Prod.fst) := by
  induction message generalizing own position with
  | unknown fields => exact List.Sublist.refl _
  | message number value rest ihValue ihRest =>
      rw [walked, document, Document.holes, List.map_append, List.map_append]
      exact (entered_sublist _ (ihValue _ _)).append (ihRest _ _)
  | group number value rest ihValue ihRest =>
      rw [walked, document, Document.holes, Document.holes_append, Document.holes, List.map_append,
        List.map_append]
      exact (entered_sublist _ (ihValue _ _)).append (ihRest _ _)
  | bytes number value rest ih =>
      rw [walked, document]
      cases pointer? value with
      | none => exact ih _ _
      | some id => exact (ih _ _).cons_cons id
  | string number value rest ih => exact ih _ _
  | other encoding rest ih => exact ih _ _

theorem not_overlooks_of_holes_nil (known : Nat → Bool) (message : Message) (own : Bytes)
    (position : Nat) (h : (message.document pointer?).holes = []) :
    ¬ message.Overlooks parse pointer? known own position := by
  induction message generalizing own position with
  | unknown fields => exact id
  | message number value rest ihValue ihRest =>
      obtain ⟨hvalue, hrest⟩ := List.append_eq_nil_iff.mp h
      rintro (⟨hne, -⟩ | hin | hin)
      · exact hne hvalue
      · exact ihValue _ _ hvalue hin
      · exact ihRest _ _ hrest hin
  | group number value rest ihValue ihRest =>
      rw [document, Document.holes, Document.holes_append] at h
      obtain ⟨hvalue, hrest⟩ := List.append_eq_nil_iff.mp h
      rintro (⟨hne, -⟩ | hin | hin)
      · exact hne hvalue
      · exact ihValue _ _ hvalue hin
      · exact ihRest _ _ hrest hin
  | bytes number value rest ih =>
      rw [document] at h
      cases hp : pointer? value with
      | none =>
          rw [hp] at h
          exact ih _ _ h
      | some id =>
          rw [hp] at h
          cases h
  | string number value rest ih => exact ih _ _ h
  | other encoding rest ih => exact ih _ _ h

theorem append_eq_of_sublist {α : Type} {left left' right right' : List α}
    (hl : left.Sublist left') (hr : right.Sublist right') :
    left ++ right = left' ++ right' ↔ left = left' ∧ right = right' := by
  constructor
  · intro h
    have hlen := congrArg List.length h
    simp only [List.length_append] at hlen
    have hl' := hl.length_le
    have hr' := hr.length_le
    exact ⟨hl.eq_of_length (by omega), hr.eq_of_length (by omega)⟩
  · rintro ⟨rfl, rfl⟩
    rfl

-- A field that is entered or passed over, and those behind it.
theorem entered_eq_iff (known : Bool) {inner : List (BlockId × Nat)} {holes : List (BlockId × Bytes)}
    {overlooks : Prop} (h : inner.map Prod.fst = holes.map Prod.fst ↔ ¬ overlooks)
    (hnil : holes = [] → ¬ overlooks) :
    (if known then inner else []).map Prod.fst = holes.map Prod.fst ↔
      ¬ ((holes ≠ [] ∧ known = false) ∨ overlooks) := by
  cases known with
  | false =>
      rw [if_neg Bool.false_ne_true, List.map_nil, eq_comm, List.map_eq_nil_iff]
      tauto
  | true =>
      rw [if_pos rfl, h]
      simp

-- The walk comes to every pointer exactly where it overlooks none of the fields around them.
theorem walked_eq_iff (known : Nat → Bool) (message : Message) (own : Bytes) (position : Nat) :
    (message.walked parse pointer? known own position).map Prod.fst =
        (message.document pointer?).holes.map Prod.fst ↔
      ¬ message.Overlooks parse pointer? known own position := by
  induction message generalizing own position with
  | unknown fields => exact iff_of_true rfl id
  | message number value rest ihValue ihRest =>
      have hin := entered_eq_iff (known (position + 1)) (ihValue value.unknownFields
        (position + 1 + width value.byteSize)) (not_overlooks_of_holes_nil known value _ _)
      rw [walked, document, Document.holes, List.map_append, List.map_append,
        append_eq_of_sublist (entered_sublist _ (walked_sublist ..)) (walked_sublist ..), hin, ihRest, Overlooks]
      tauto
  | group number value rest ihValue ihRest =>
      have hin := entered_eq_iff (known (position + 1)) (ihValue value.unknownFields
        (position + 1 + width value.byteSize)) (not_overlooks_of_holes_nil known value _ _)
      rw [walked, document, Document.holes, Document.holes_append, Document.holes, List.map_append,
        List.map_append, append_eq_of_sublist (entered_sublist _ (walked_sublist ..)) (walked_sublist ..), hin, ihRest, Overlooks]
      tauto
  | bytes number value rest ih =>
      rw [walked, document, Overlooks]
      cases pointer? value with
      | none => exact ih _ _
      | some id =>
          simp only [Document.holes, List.map_cons, List.cons.injEq, true_and]
          exact ih _ _
  | string number value rest ih => exact ih _ _
  | other encoding rest ih => exact ih _ _

end Message

section Walk

variable (registry : Registry)

-- The length that is looked up for a pointer is that of its block.
def Agrees (realLengths : Dict Nat RealLength) (entry : BlockId × Nat) : Prop :=
  ∃ length old leaf, getBlockLength registry entry.1 = .ok length ∧
    realLengths.lookup entry.2 = some (length, old, leaf)

def isKnown (realLengths : Dict Nat RealLength) (position : Nat) : Bool :=
  (realLengths.lookup position).isSome

variable {registry} {parse : ParseBlock} {pointer? : Bytes → Option BlockId}
  {realLengths : Dict Nat RealLength}

-- What the walk returns are the pointers that it has come to, each under the length of its block.
theorem searchRealLoop_walked (message : Message) {pointers : List Nat} {own : Bytes}
    {position realPosition : Nat} {container result : List (BlockId × List Nat)}
    (h : searchRealLoop registry parse pointer? realLengths message pointers own position realPosition
      container = .ok result) :
    result.map Prod.fst = container.map Prod.fst ++
        (message.walked parse pointer? (isKnown realLengths) own position).map Prod.fst ∧
      ∀ entry ∈ message.walked parse pointer? (isKnown realLengths) own position,
        Agrees registry realLengths entry := by
  induction message generalizing pointers own position realPosition container result with
  | unknown fields =>
      obtain rfl := Except.ok.inj h
      simp [Message.walked]
  | message number value rest ihValue ihRest =>
      rw [searchRealLoop] at h
      rw [Message.walked, isKnown]
      cases hl : realLengths.lookup (position + 1) with
      | none =>
          rw [hl] at h
          exact ihRest h
      | some real =>
          rw [hl] at h
          obtain ⟨inner, hinner, h⟩ := bind_eq_ok.mp h
          obtain ⟨hinside, hin⟩ := ihValue hinner
          obtain ⟨hbehind, hrest⟩ := ihRest h
          simp only [Option.isSome_some, if_true, List.map_append, List.mem_append]
          rw [hbehind, hinside, List.append_assoc]
          exact ⟨rfl, fun entry he => he.elim (hin entry) (hrest entry)⟩
  | group number value rest ihValue ihRest =>
      rw [searchRealLoop] at h
      rw [Message.walked, isKnown]
      cases hl : realLengths.lookup (position + 1) with
      | none =>
          rw [hl] at h
          exact ihRest h
      | some real =>
          rw [hl] at h
          obtain ⟨inner, hinner, h⟩ := bind_eq_ok.mp h
          obtain ⟨hinside, hin⟩ := ihValue hinner
          obtain ⟨hbehind, hrest⟩ := ihRest h
          simp only [Option.isSome_some, if_true, List.map_append, List.mem_append]
          rw [hbehind, hinside, List.append_assoc]
          exact ⟨rfl, fun entry he => he.elim (hin entry) (hrest entry)⟩
  | bytes number value rest ih =>
      rw [searchRealLoop] at h
      rw [Message.walked]
      cases hp : pointer? value with
      | none =>
          rw [hp] at h
          exact ih h
      | some id =>
          rw [hp] at h
          obtain ⟨blockLength, hblock, h⟩ := bind_eq_ok.mp h
          cases hl : realLengths.lookup (position + 1) with
          | none =>
              rw [hl] at h
              cases h
          | some real =>
              obtain ⟨length, old, leaf⟩ := real
              rw [hl] at h
              by_cases heq : length = blockLength
              · subst heq
                simp only [ne_eq, not_true_eq_false, if_false] at h
                obtain ⟨hnames, hrest⟩ := ih h
                refine ⟨?_, List.forall_mem_cons.mpr ⟨⟨length, old, leaf, hblock, hl⟩, hrest⟩⟩
                rw [hnames, List.map_append, List.append_assoc]
                rfl
              · simp only [ne_eq, heq, not_false_eq_true, if_true] at h
                cases h
  | string number value rest ih => exact ih h
  | other encoding rest ih => exact ih h

-- Where they all agree, nothing stops the walk.
theorem searchRealLoop_agrees (message : Message) (pointers : List Nat) (own : Bytes)
    (position realPosition : Nat) (container : List (BlockId × List Nat))
    (h : ∀ entry ∈ message.walked parse pointer? (isKnown realLengths) own position,
      Agrees registry realLengths entry) :
    ∃ result, searchRealLoop registry parse pointer? realLengths message pointers own position
      realPosition container = .ok result := by
  induction message generalizing pointers own position realPosition container with
  | unknown fields => exact ⟨container, rfl⟩
  | message number value rest ihValue ihRest =>
      rw [Message.walked, isKnown] at h
      rw [searchRealLoop]
      cases hl : realLengths.lookup (position + 1) with
      | none =>
          rw [hl] at h
          exact ihRest _ _ _ _ _ h
      | some real =>
          rw [hl] at h
          obtain ⟨hin, hrest⟩ := List.forall_mem_append.mp h
          obtain ⟨inner, hinner⟩ := ihValue (pointers ++ [realPosition + 1]) value.unknownFields _
            (realPosition + 1 + width real.1) container hin
          simp only [hinner, ok_bind]
          exact ihRest _ _ _ _ _ hrest
  | group number value rest ihValue ihRest =>
      rw [Message.walked, isKnown] at h
      rw [searchRealLoop]
      cases hl : realLengths.lookup (position + 1) with
      | none =>
          rw [hl] at h
          exact ihRest _ _ _ _ _ h
      | some real =>
          rw [hl] at h
          obtain ⟨hin, hrest⟩ := List.forall_mem_append.mp h
          obtain ⟨inner, hinner⟩ := ihValue (pointers ++ [realPosition + 1]) value.unknownFields _
            (realPosition + 1 + width real.1) container hin
          simp only [hinner, ok_bind]
          exact ihRest _ _ _ _ _ hrest
  | bytes number value rest ih =>
      rw [Message.walked] at h
      rw [searchRealLoop]
      cases hp : pointer? value with
      | none =>
          rw [hp] at h
          exact ih _ _ _ _ _ h
      | some id =>
          rw [hp] at h
          obtain ⟨⟨length, old, leaf, hblock, hl⟩, hrest⟩ := List.forall_mem_cons.mp h
          simp only [hblock, ok_bind, hl, ne_eq, not_true_eq_false, if_false]
          exact ih _ _ _ _ _ hrest
  | string number value rest ih => exact ih _ _ _ _ _ h
  | other encoding rest ih => exact ih _ _ _ _ _ h

end Walk

section Layout

variable {env : Enviroment} {registry : Registry}

theorem idLoop_eq_ok (buffers : List Bytes) (blockIds : List BlockId)
    (hlen : blockIds.length ≤ buffers.length) :
    (∃ content, idLoop env registry buffers blockIds = .ok content) ↔
      ∀ id ∈ blockIds, ∃ content, idContent env registry id = .ok content := by
  induction buffers generalizing blockIds with
  | nil =>
      obtain rfl := List.eq_nil_of_length_eq_zero (Nat.le_zero.mp hlen)
      exact iff_of_true ⟨[], rfl⟩ fun _ h => absurd h List.not_mem_nil
  | cons buffer buffers ih =>
      cases blockIds with
      | nil =>
          have hrest := ih [] (Nat.zero_le _)
          refine iff_of_true ?_ fun _ h => absurd h List.not_mem_nil
          obtain ⟨more, hmore⟩ := hrest.mpr fun _ h => absurd h List.not_mem_nil
          exact ⟨buffer ++ more, by rw [idLoop, hmore]; rfl⟩
      | cons id blockIds =>
          rw [List.forall_mem_cons, ← ih blockIds (Nat.le_of_succ_le_succ hlen), idLoop]
          constructor
          · rintro ⟨content, h⟩
            obtain ⟨first, hfirst, h⟩ := bind_eq_ok.mp h
            obtain ⟨more, hmore, -⟩ := bind_eq_ok.mp h
            exact ⟨⟨first, hfirst⟩, more, hmore⟩
          · rintro ⟨⟨first, hfirst⟩, more, hmore⟩
            exact ⟨buffer ++ first ++ more, by rw [hfirst, ok_bind, hmore]; rfl⟩

-- With a part in front of every block, the blocks of the `_.json` are those that were found.
theorem layOut_blocks (index : Nat) (buffers : List Bytes) (chains : List (BlockId × List Nat))
    (hlen : chains.length ≤ buffers.length) :
    ∃ parts json, layOut index buffers chains = .ok (parts, json) ∧
      Directory.blocks { parts := [], json } = chains := by
  induction buffers generalizing index chains with
  | nil =>
      obtain rfl := List.eq_nil_of_length_eq_zero (Nat.le_zero.mp hlen)
      exact ⟨[], [], rfl, rfl⟩
  | cons buffer buffers ih =>
      cases chains with
      | nil =>
          obtain ⟨parts, json, hlay, hblocks⟩ := ih (index + 1) [] (Nat.zero_le _)
          exact ⟨(index, buffer) :: parts, .part index :: json, by rw [layOut, hlay]; rfl, hblocks⟩
      | cons chain chains =>
          obtain ⟨parts, json, hlay, hblocks⟩ :=
            ih (index + 1) chains (Nat.le_of_succ_le_succ hlen)
          exact ⟨(index, buffer) :: parts, .part index :: .block chain.1 chain.2 :: json,
            by rw [layOut, hlay]; rfl, congrArg (chain :: ·) hblocks⟩

end Layout

section Result

variable (env : Enviroment) (registry : Registry) (parse : ParseBlock) (blocks : List BlockId)
  (inherited : Option (List Bytes)) (message : Message)

-- The pointers that search_on_message_real comes to, when it enters the fields that lead to a pointer.
abbrev objectWalked : List (BlockId × Nat) :=
  message.walked parse (pointerOf env parse blocks inherited)
    (fun p => decide (p ∈ message.keys (pointerOf env parse blocks inherited))) [] 0

-- Nothing about the object is refused: its pointers name the blocks, which are all there; each
-- pointer is looked up at a position under which the length of its block stands; and the blocks that
-- are fed to the hasher can be read.
structure Taken : Prop where
  covers : ∀ id ∈ blocks, id ∈ (objectDocument env parse blocks inherited message).holes.map Prod.fst
  complete : ∀ pointer ∈ (objectDocument env parse blocks inherited message).holes,
    ∃ content, registry.expansion pointer.1 = some content
  agrees : ∀ entry ∈ objectWalked env parse blocks inherited message,
    ∃ mark ∈ (objectDocument env parse blocks inherited message).marks asPointer
      (asBlock registry.content) 0,
      mark.position = entry.2 ∧ mark.new = (registry.content entry.1).length
  readable : ∀ entry ∈ objectWalked env parse blocks inherited message,
    ∃ content, idContent env registry entry.1 = .ok content

variable {message}

theorem isKnown_objectLengths :
    isKnown (objectLengths env registry parse blocks inherited message) =
      fun p => decide (p ∈ message.keys (pointerOf env parse blocks inherited)) := by
  funext p
  rw [isKnown, Bool.eq_iff_iff, List.lookup_isSome_iff, decide_eq_true_iff, Message.keys,
    Document.marks_positions Prod.snd Prod.snd (asBlock registry.content)]
  simp only [List.mem_map, beq_iff_eq]
  constructor
  · rintro ⟨_, ⟨mark, hm, rfl⟩, rfl⟩
    exact ⟨mark, hm, rfl⟩
  · rintro ⟨mark, hm, rfl⟩
    exact ⟨_, ⟨mark, hm, rfl⟩, rfl⟩

theorem agrees_objectLengths {entry : BlockId × Nat}
    (hcomplete : ∃ content, registry.expansion entry.1 = some content) :
    Agrees registry (objectLengths env registry parse blocks inherited message) entry ↔
      ∃ mark ∈ (objectDocument env parse blocks inherited message).marks asPointer
        (asBlock registry.content) 0,
        mark.position = entry.2 ∧ mark.new = (registry.content entry.1).length := by
  have hlength := getBlockLength_of_expansion registry hcomplete
  constructor
  · rintro ⟨length, old, leaf, hblock, hl⟩
    obtain ⟨before, behind, heq, -⟩ := List.lookup_eq_some_iff.mp hl
    have hmem : (entry.2, length, old, leaf) ∈
        objectLengths env registry parse blocks inherited message := by
      rw [heq]
      exact List.mem_append_right _ (List.mem_cons_self ..)
    obtain ⟨mark, hm, hmark⟩ := List.mem_map.mp hmem
    obtain rfl := Except.ok.inj (hblock.symm.trans hlength)
    simp only [realLengthOf, Prod.mk.injEq] at hmark
    exact ⟨mark, hm, hmark.1, hmark.2.1⟩
  · rintro ⟨mark, hm, hposition, hnew⟩
    have hl := Dict.lookup_of_nodup _ (marks_nodup asPointer (asBlock registry.content) 0
      (objectDocument env parse blocks inherited message)) _ _ (List.mem_map_of_mem hm)
    rw [hposition, hnew] at hl
    exact ⟨_, _, _, hlength, hl⟩

theorem walked_length_le (message : Message) :
    ((objectWalked env parse blocks inherited message).map Prod.fst).length ≤
      (objectParts env registry parse blocks inherited message).length := by
  have hlen := (@Message.walked_sublist parse (pointerOf env parse blocks inherited)
    (fun p => decide (p ∈ message.keys (pointerOf env parse blocks inherited))) message [] 0).length_le
  rw [List.length_map, List.length_map, ← Document.pieces_holes (asBlock registry.content),
    ← Piece.cut_length []] at hlen
  rw [List.length_map, objectParts, List.length_append]
  exact hlen.trans (Nat.le_add_right _ _)

theorem walked_complete
    (hcomplete : ∀ pointer ∈ (objectDocument env parse blocks inherited message).holes,
      ∃ content, registry.expansion pointer.1 = some content) :
    ∀ entry ∈ objectWalked env parse blocks inherited message,
      ∃ content, registry.expansion entry.1 = some content := by
  intro entry he
  obtain ⟨pointer, hp, hname⟩ := List.mem_map.mp
    ((Message.walked_sublist _ message [] 0).subset (List.mem_map_of_mem he))
  rw [← hname]
  exact hcomplete pointer hp

-- What is built is laid out of the blocks that the second walk has come to, and was refused nowhere.
theorem buildMultiblock_steps (hplain : message.Plain) {objectId : Bytes} {directory : Directory}
    (hbuilt : buildMultiblock env registry parse message blocks inherited = .ok (objectId, directory)) :
    Taken env registry parse blocks inherited message ∧
      ∃ container, container.map Prod.fst =
          (objectWalked env parse blocks inherited message).map Prod.fst ∧
        generateId env registry (objectParts env registry parse blocks inherited message)
          (container.map Prod.fst) = .ok objectId ∧
        layOut 1 (objectParts env registry parse blocks inherited message) container =
          .ok (directory.parts, directory.json) := by
  obtain ⟨hcovers, hcomplete⟩ :=
    complete_of_buildMultiblock env registry parse blocks inherited (hplain.balanced_own _) hbuilt
  rw [buildMultiblock_walk env registry parse blocks inherited (hplain.balanced_own _) hcovers hcomplete,
    hplain.unknownFields] at hbuilt
  obtain ⟨container, hwalk, hbuilt⟩ := bind_eq_ok.mp hbuilt
  obtain ⟨id, hid, hbuilt⟩ := bind_eq_ok.mp hbuilt
  obtain ⟨written, hlay, hbuilt⟩ := bind_eq_ok.mp hbuilt
  obtain ⟨rfl, rfl⟩ := Prod.mk.inj (Except.ok.inj hbuilt)
  obtain ⟨hnames, hagrees⟩ := searchRealLoop_walked message hwalk
  rw [isKnown_objectLengths] at hnames hagrees
  rw [List.map_nil, List.nil_append] at hnames
  refine ⟨⟨hcovers, hcomplete, fun entry he => ?_, fun entry he => ?_⟩, container, hnames, hid, hlay⟩
  · exact (agrees_objectLengths env registry parse blocks inherited
      (walked_complete env registry parse blocks inherited hcomplete entry he)).mp (hagrees entry he)
  · obtain ⟨content, hcontent, -⟩ := bind_eq_ok.mp hid
    have hlen := walked_length_le env registry parse blocks inherited message
    rw [← hnames] at hlen
    apply (idLoop_eq_ok _ _ hlen).mp ⟨content, hcontent⟩
    rw [hnames]
    exact List.mem_map_of_mem he

theorem buildMultiblock_of_taken (hplain : message.Plain)
    (h : Taken env registry parse blocks inherited message) :
    ∃ built, buildMultiblock env registry parse message blocks inherited = .ok built := by
  obtain ⟨container, hwalk⟩ := @searchRealLoop_agrees registry parse
    (pointerOf env parse blocks inherited)
    (objectLengths env registry parse blocks inherited message) message [] [] 0 0 [] (by
      rw [isKnown_objectLengths]
      exact fun entry he => (agrees_objectLengths env registry parse blocks inherited
        (walked_complete env registry parse blocks inherited h.complete entry he)).mpr
          (h.agrees entry he))
  obtain ⟨hnames, -⟩ := searchRealLoop_walked message hwalk
  rw [isKnown_objectLengths, List.map_nil, List.nil_append] at hnames
  have hlen := walked_length_le env registry parse blocks inherited message
  rw [← hnames] at hlen
  have hread : ∀ id ∈ container.map Prod.fst, ∃ content, idContent env registry id = .ok content := by
    rw [hnames]
    intro id hid
    obtain ⟨entry, he, rfl⟩ := List.mem_map.mp hid
    exact h.readable entry he
  obtain ⟨content, hcontent⟩ := (idLoop_eq_ok _ _ hlen).mpr hread
  rw [List.length_map] at hlen
  obtain ⟨parts, json, hwritten, -⟩ := layOut_blocks 1 _ container hlen
  refine ⟨(env.hashFactory content, ⟨parts, json, some message.serializeToString⟩), ?_⟩
  rw [buildMultiblock_walk env registry parse blocks inherited (hplain.balanced_own _) h.covers
    h.complete, hplain.unknownFields, hwalk]
  simp only [Except.bind, generateId, hcontent, ok_bind, pure_ok, hwritten]

-- With every block in its place the directory expands to the message with the blocks in it.
theorem layOut_expands {directory : Directory} {chains : List (BlockId × List Nat)}
    (hcomplete : ∀ pointer ∈ (objectDocument env parse blocks inherited message).holes,
      ∃ content, registry.expansion pointer.1 = some content)
    (hnames : chains.map Prod.fst =
      (objectDocument env parse blocks inherited message).holes.map Prod.fst)
    (hlay : layOut 1 (objectParts env registry parse blocks inherited message) chains =
      .ok (directory.parts, directory.json)) :
    directory.expandWith registry.expansion =
      some (message.replacePointers (pointerOf env parse blocks inherited)
        registry.content).serializeToString := by
  obtain ⟨parts, hwritten, hnumbers, hruns⟩ := layOut_cut Prod.fst
    ((objectDocument env parse blocks inherited message).pieces (asBlock registry.content)) [] 1 chains
    (by rw [Document.pieces_holes, hnames])
  obtain ⟨rfl, hjson⟩ := Prod.mk.inj (Except.ok.inj (hwritten.symm.trans hlay))
  have hnodup : (directory.parts.map Prod.fst).Nodup := by
    rw [hnumbers]
    exact List.nodup_range' ..
  have hruns := hruns directory fun part hp => Dict.lookup_of_nodup _ hnodup _ _ hp
  rw [hjson, ← Piece.alternate_map, ← Document.pieces_map Prod.fst registry.content] at hruns
  rw [directory.expands_of_runs hruns registry.expansion, Document.render_map,
    Message.document_render_replace]
  intro id hid
  rw [Document.holes_map] at hid
  obtain ⟨pointer, hp, rfl⟩ := List.mem_map.mp hid
  exact Registry.content_eq (hcomplete pointer hp)

-- search_on_message detects the pointers of the encoding, each as often as it is there.
theorem searchOnMessage_detects (message : Message) :
    ((searchOnMessage env parse blocks inherited message).container.ungroup.map Prod.fst).Perm
      ((objectDocument env parse blocks inherited message).holes.map Prod.fst) := by
  rw [searchOnMessage_container, ← Message.foundChains_names _ message message.unknownFields 0]
  exact (Dict.ungroup_group _).map Prod.fst

-- Every pointer that was detected is recorded, and none of the blocks is missing from the expansion
-- or the object's id, exactly where no field that leads to a pointer is overlooked, or else something
-- about the object is refused.
theorem buildMultiblock_records_iff (hplain : message.Plain) :
    let pointer? := pointerOf env parse blocks inherited
    let detected := (objectDocument env parse blocks inherited message).holes.map Prod.fst
    ((searchOnMessage env parse blocks inherited message).container.ungroup.map Prod.fst).Perm
        detected ∧
      ((∀ objectId directory,
          buildMultiblock env registry parse message blocks inherited = .ok (objectId, directory) →
            directory.blocks.map Prod.fst = detected ∧
              directory.expandWith registry.expansion =
                some (message.replacePointers pointer? registry.content).serializeToString ∧
              generateId env registry (objectParts env registry parse blocks inherited message)
                detected = .ok objectId) ↔
        ¬ message.Overlooks parse pointer? (fun p => decide (p ∈ message.keys pointer?)) [] 0 ∨
          ¬ Taken env registry parse blocks inherited message) := by
  refine ⟨searchOnMessage_detects env parse blocks inherited message, ?_⟩
  have hlaid {directory : Directory} {container : List (BlockId × List Nat)}
      (hnames : container.map Prod.fst =
        (objectWalked env parse blocks inherited message).map Prod.fst)
      (hlay : layOut 1 (objectParts env registry parse blocks inherited message) container =
        .ok (directory.parts, directory.json)) : directory.blocks = container := by
    have hlen := walked_length_le env registry parse blocks inherited message
    rw [← hnames, List.length_map] at hlen
    obtain ⟨parts, json, hwritten, hblocks⟩ := layOut_blocks 1 _ container hlen
    obtain ⟨-, rfl⟩ := Prod.mk.inj (Except.ok.inj (hwritten.symm.trans hlay))
    exact hblocks
  constructor
  · intro h
    by_cases ht : Taken env registry parse blocks inherited message
    · obtain ⟨⟨objectId, directory⟩, hbuilt⟩ :=
        buildMultiblock_of_taken env registry parse blocks inherited hplain ht
      obtain ⟨-, container, hnames, -, hlay⟩ :=
        buildMultiblock_steps env registry parse blocks inherited hplain hbuilt
      have hrecorded := (h objectId directory hbuilt).1
      rw [hlaid hnames hlay, hnames] at hrecorded
      exact Or.inl ((Message.walked_eq_iff _ message [] 0).mp hrecorded)
    · exact Or.inr ht
  · intro h objectId directory hbuilt
    obtain ⟨ht, container, hnames, hid, hlay⟩ :=
      buildMultiblock_steps env registry parse blocks inherited hplain hbuilt
    have hall := (Message.walked_eq_iff _ message [] 0).mpr (h.resolve_right (not_not_intro ht))
    have hdetected := hnames.trans hall
    rw [hdetected] at hid
    rw [hlaid hnames hlay]
    exact ⟨hdetected, layOut_expands env registry parse blocks inherited ht.complete hdetected hlay,
      hid⟩

theorem buildMultiblock_records_iff_sample :
    let pointer? := pointerOf .sample .sample Message.sampleBlocks none
    let detected := (objectDocument .sample .sample Message.sampleBlocks none .sample).holes.map Prod.fst
    ((searchOnMessage .sample .sample Message.sampleBlocks none .sample).container.ungroup.map
        Prod.fst).Perm detected ∧
      ((∀ objectId directory,
          buildMultiblock .sample .sample .sample .sample Message.sampleBlocks none =
              .ok (objectId, directory) →
            directory.blocks.map Prod.fst = detected ∧
              directory.expandWith Registry.sample.expansion =
                some (Message.sample.replacePointers pointer?
                  Registry.sample.content).serializeToString ∧
              generateId .sample .sample
                (objectParts .sample .sample .sample Message.sampleBlocks none .sample) detected =
                  .ok objectId) ↔
        ¬ Message.sample.Overlooks .sample pointer?
            (fun p => decide (p ∈ Message.sample.keys pointer?)) [] 0 ∨
          ¬ Taken .sample .sample .sample Message.sampleBlocks none .sample) :=
  buildMultiblock_records_iff .sample .sample .sample Message.sampleBlocks none (by decide)

end Result

section Respelled

-- A pointer whose hash states its length in two bytes: protobuf reads it, and writes one byte less.
def respelled : Bytes := [10, 136, 0, 10, 1, 1, 18, 3, 1, 5, 6]

def ParseBlock.respelled : ParseBlock := fun value =>
  if value = BeeRpc.respelled then some (blockPointer .sample [1, 5, 6], value.length - 1)
  else ParseBlock.sample value

-- The pointer in front of a message field with another one.
def Message.respelled : Message :=
  .bytes 1 BeeRpc.respelled
    (.message 2 (.bytes 1 (blockPointerBytes .sample [1, 10, 2, 5, 6]) (.unknown [])) (.unknown []))

-- The second walk expects the message field one byte early and passes over it: both blocks are
-- detected, and the second is not written.
theorem buildMultiblock_drops :
    Message.respelled.Plain ∧
      (searchOnMessage .sample .respelled Message.sampleBlocks none .respelled).container.map Prod.fst =
        [[1, 5, 6], [1, 10, 2, 5, 6]] ∧
      ∃ objectId directory,
        buildMultiblock .sample .sample .respelled .respelled Message.sampleBlocks none =
          .ok (objectId, directory) ∧
        directory.blocks.map Prod.fst = [[1, 5, 6]] := by
  refine ⟨by decide, by decide, [1, 10, 2, 5, 6, 18, 6, 10, 4], {
    parts := [(1, [10, 2]), (2, [18, 6, 10, 4]), (3, [])]
    json := [.part 1, .block [1, 5, 6] [1], .part 2, .part 3]
    wbp := some Message.respelled.serializeToString }, by rfl, by decide⟩

end Respelled

end BeeRpc
