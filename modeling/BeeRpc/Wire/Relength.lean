import BeeRpc.Wire.Field
import BeeRpc.Wire.Slot

namespace Wire

namespace Fields

variable {δ φ : Type} (shouldSplit : φ → Nat → Bool)

-- Something in these fields is to be taken out.
def divided : Fields φ → Bool
  | nil => false
  | plain _ _ rest => rest.divided
  | payload _ _ content field rest => taken shouldSplit field content.length || rest.divided
  | message _ _ body rest => body.divided || rest.divided

-- The encoding with a pointer in the place of each content that is taken out, its own length in
-- front of it. A message around a pointer states what is said of its fields.
def written (pointer : Bytes → Bytes) (stated : Fields φ → Nat) : Fields φ → Bytes
  | nil => []
  | plain tag value rest => tag ++ value ++ rest.written pointer stated
  | payload tag length content field rest =>
      tag ++
        (if taken shouldSplit field content.length then delimited (pointer content)
          else length ++ content) ++
        rest.written pointer stated
  | message tag length body rest =>
      tag ++ (if body.divided shouldSplit then Varint.encode (stated body) else length) ++
        body.written pointer stated ++ rest.written pointer stated

-- These bytes are the encoding with a pointer in the place of each content that is taken out. The
-- lengths of the pointers, and of the messages around them, are those of what is behind them;
-- everything else is as it was.
def Relengthed (pointer : Bytes → Bytes) : Fields φ → Bytes → Prop
  | nil, bytes => bytes = []
  | plain tag value rest, bytes =>
      ∃ more, rest.Relengthed pointer more ∧ bytes = tag ++ value ++ more
  | payload tag length content field rest, bytes =>
      ∃ length' content' more, rest.Relengthed pointer more ∧
        bytes = tag ++ length' ++ content' ++ more ∧
        if taken shouldSplit field content.length then
          content' = pointer content ∧ Varint.States length' content'.length
        else content' = content ∧ length' = length
  | message tag length body rest, bytes =>
      ∃ length' body' more, body.Relengthed pointer body' ∧ rest.Relengthed pointer more ∧
        bytes = tag ++ length' ++ body' ++ more ∧
        if body.divided shouldSplit then Varint.States length' body'.length else length' = length

-- What is said of the messages around the pointers is right.
def Exact (pointer : Bytes → Bytes) (stated : Fields φ → Nat) : Fields φ → Prop
  | nil => True
  | plain _ _ rest => rest.Exact pointer stated
  | payload _ _ _ _ rest => rest.Exact pointer stated
  | message _ _ body rest =>
      (body.divided shouldSplit = true →
        stated body = (body.written shouldSplit pointer stated).length) ∧
      body.Exact pointer stated ∧ rest.Exact pointer stated

-- The lengths around what is taken out are spelled in the shortest way, but for the outermost;
-- inside a message for that one too.
def Tight (inside : Bool) : Fields φ → Prop
  | nil => True
  | plain _ _ rest => rest.Tight inside
  | payload _ length content field rest =>
      (inside = true → taken shouldSplit field content.length = true →
        length = Varint.encode content.length) ∧
      rest.Tight inside
  | message _ length body rest =>
      (body.divided shouldSplit = true →
        (inside = true → length = Varint.encode body.size) ∧ body.Tight true) ∧
      rest.Tight inside

variable {shouldSplit} {pointer : Bytes → Bytes} {stated : Fields φ → Nat}

theorem written_of_not_divided {fields : Fields φ} (h : fields.divided shouldSplit = false) :
    fields.written shouldSplit pointer stated = fields.render := by
  induction fields with
  | nil => rfl
  | plain tag value rest ih => rw [written, ih h, render]
  | payload tag length content field rest ih =>
      obtain ⟨htaken, hrest⟩ := Bool.or_eq_false_iff.mp h
      rw [written, ih hrest, render, htaken, List.append_assoc tag length content]
      rfl
  | message tag length body rest ihBody ihRest =>
      obtain ⟨hbody, hrest⟩ := Bool.or_eq_false_iff.mp h
      rw [written, ihBody hbody, ihRest hrest, render, hbody]
      rfl

theorem relengthed_of_exact {fields : Fields φ} (h : fields.Exact shouldSplit pointer stated) :
    fields.Relengthed shouldSplit pointer (fields.written shouldSplit pointer stated) := by
  induction fields with
  | nil => rfl
  | plain tag value rest ih => exact ⟨_, ih h, rfl⟩
  | payload tag length content field rest ih =>
      by_cases htaken : taken shouldSplit field content.length = true
      · refine ⟨Varint.encode (pointer content).length, pointer content, _, ih h, ?_, ?_⟩
        · simp only [written, if_pos htaken, delimited, List.append_assoc]
        · rw [if_pos htaken]
          exact ⟨rfl, Varint.states_encode _⟩
      · refine ⟨length, content, _, ih h, ?_, ?_⟩
        · simp only [written, if_neg htaken, List.append_assoc]
        · rw [if_neg htaken]
          exact ⟨rfl, rfl⟩
  | message tag length body rest ihBody ihRest =>
      obtain ⟨hstated, hbody, hrest⟩ := h
      refine ⟨_, _, _, ihBody hbody, ihRest hrest, rfl, ?_⟩
      by_cases hdivided : body.divided shouldSplit = true
      · rw [if_pos hdivided, if_pos hdivided, hstated hdivided]
        exact Varint.states_encode _
      · rw [if_neg hdivided, if_neg hdivided]

-- Where bytes of this form begin like those that are written they are those, and what is said of
-- the messages is right.
theorem Relengthed.exact {fields : Fields φ} {bytes more more' : Bytes}
    (h : fields.Relengthed shouldSplit pointer bytes)
    (heq : bytes ++ more = fields.written shouldSplit pointer stated ++ more') :
    bytes = fields.written shouldSplit pointer stated ∧ more = more' ∧
      fields.Exact shouldSplit pointer stated := by
  induction fields generalizing bytes more more' with
  | nil =>
      obtain rfl := h
      exact ⟨rfl, heq, trivial⟩
  | plain tag value rest ih =>
      obtain ⟨bytes, hrest, rfl⟩ := h
      simp only [written, List.append_assoc, List.append_cancel_left_eq] at heq
      obtain ⟨rfl, rfl, hexact⟩ := ih hrest heq
      exact ⟨rfl, rfl, hexact⟩
  | payload tag length content field rest ih =>
      obtain ⟨length', content', bytes, hrest, rfl, hcontent⟩ := h
      by_cases htaken : taken shouldSplit field content.length = true
      · rw [if_pos htaken] at hcontent
        obtain ⟨rfl, hlength⟩ := hcontent
        simp only [written, if_pos htaken, delimited, List.append_assoc,
          List.append_cancel_left_eq] at heq
        obtain ⟨rfl, -, hbehind⟩ := hlength.append_inj (Varint.states_encode _) heq
        rw [List.append_cancel_left_eq] at hbehind
        obtain ⟨rfl, rfl, hexact⟩ := ih hrest hbehind
        refine ⟨?_, rfl, hexact⟩
        simp only [written, if_pos htaken, delimited, List.append_assoc]
      · rw [if_neg htaken] at hcontent
        obtain ⟨rfl, rfl⟩ := hcontent
        simp only [written, if_neg htaken, List.append_assoc, List.append_cancel_left_eq] at heq
        obtain ⟨rfl, rfl, hexact⟩ := ih hrest heq
        refine ⟨?_, rfl, hexact⟩
        simp only [written, if_neg htaken, List.append_assoc]
  | message tag length body rest ihBody ihRest =>
      obtain ⟨length', body', bytes, hbody, hrest, rfl, hlength⟩ := h
      simp only [written, List.append_assoc, List.append_cancel_left_eq] at heq
      by_cases hdivided : body.divided shouldSplit = true
      · rw [if_pos hdivided] at hlength heq
        obtain ⟨rfl, hstated, hbehind⟩ := hlength.append_inj (Varint.states_encode _) heq
        obtain ⟨rfl, hbehind, hexact⟩ := ihBody hbody hbehind
        obtain ⟨rfl, rfl, hexactRest⟩ := ihRest hrest hbehind
        refine ⟨?_, rfl, fun _ => hstated.symm, hexact, hexactRest⟩
        simp only [written, if_pos hdivided]
      · rw [if_neg hdivided] at hlength heq
        subst hlength
        rw [List.append_cancel_left_eq] at heq
        obtain ⟨rfl, hbehind, hexact⟩ := ihBody hbody heq
        obtain ⟨rfl, rfl, hexactRest⟩ := ihRest hrest hbehind
        refine ⟨?_, rfl, fun h => absurd h hdivided, hexact, hexactRest⟩
        simp only [written, if_neg hdivided]

theorem relengthed_written_iff (fields : Fields φ) :
    fields.Relengthed shouldSplit pointer (fields.written shouldSplit pointer stated) ↔
      fields.Exact shouldSplit pointer stated :=
  ⟨fun h => (h.exact (rfl : _ ++ [] = _ ++ [])).2.2, relengthed_of_exact⟩

section Chains

variable (shouldSplit)

-- What is taken out of fields that begin at a position, each content with the positions of the
-- lengths around it.
def chains (base : Nat) (fields : Fields φ) : List (Bytes × List Nat) :=
  (fields.pieces shouldSplit base []).filterMap Piece.hole?

-- Lengths around all of the fields come in front of each chain.
theorem pieces_chain (base : Nat) (chain : List Nat) (fields : Fields φ) :
    (fields.pieces shouldSplit base chain).filterMap Piece.hole? =
      (fields.chains shouldSplit base).map fun hole => (hole.1, chain ++ hole.2) := by
  suffices h : ∀ more, (fields.pieces shouldSplit base (chain ++ more)).filterMap Piece.hole? =
      ((fields.pieces shouldSplit base more).filterMap Piece.hole?).map
        fun hole => (hole.1, chain ++ hole.2) by
    have hnil := h []
    rwa [List.append_nil] at hnil
  intro more
  induction fields generalizing base more with
  | nil => rfl
  | plain tag value rest ih => simp only [pieces, Piece.filterMap_hole?_bytes, ih]
  | payload tag length content field rest ih =>
      by_cases htaken : taken shouldSplit field content.length = true
      · simp only [pieces, if_pos htaken, Piece.filterMap_hole?_bytes, Piece.filterMap_hole?_hole,
          ih, List.map_cons, List.append_assoc]
      · simp only [pieces, if_neg htaken, Piece.filterMap_hole?_bytes, ih]
  | message tag length body rest ihBody ihRest =>
      simp only [pieces, Piece.filterMap_hole?_bytes, List.filterMap_append, List.append_assoc,
        ihBody, ihRest, List.map_append]

theorem chains_message (base : Nat) (tag length : Bytes) (body rest : Fields φ) :
    (message tag length body rest).chains shouldSplit base =
      (body.chains shouldSplit (base + tag.length + length.length)).map
          (fun hole => (hole.1, (base + tag.length) :: hole.2)) ++
        rest.chains shouldSplit (base + tag.length + length.length + body.size) := by
  simp only [chains, pieces, Piece.filterMap_hole?_bytes, List.filterMap_append, List.nil_append]
  rw [pieces_chain]
  rfl

theorem chains_payload (base : Nat) (tag length content : Bytes) (field : Option φ)
    (rest : Fields φ) :
    (payload tag length content field rest).chains shouldSplit base =
      (if taken shouldSplit field content.length then [(content, [base + tag.length])] else []) ++
        rest.chains shouldSplit (base + tag.length + length.length + content.length) := by
  by_cases htaken : taken shouldSplit field content.length = true
  · simp only [chains, pieces, if_pos htaken, Piece.filterMap_hole?_bytes,
      Piece.filterMap_hole?_hole, List.nil_append, List.singleton_append]
  · simp only [chains, pieces, if_neg htaken, Piece.filterMap_hole?_bytes, List.nil_append]

theorem chains_eq_nil_iff (base : Nat) (fields : Fields φ) :
    fields.chains shouldSplit base = [] ↔ fields.divided shouldSplit = false := by
  induction fields generalizing base with
  | nil => exact iff_of_true rfl rfl
  | plain tag value rest ih => exact ih _
  | payload tag length content field rest ih =>
      rw [chains_payload, List.append_eq_nil_iff, ih, divided, Bool.or_eq_false_iff]
      refine and_congr_left fun _ => ?_
      cases taken shouldSplit field content.length
      · exact iff_of_true rfl rfl
      · exact iff_of_false (List.cons_ne_nil _ _) Bool.noConfusion
  | message tag length body rest ihBody ihRest =>
      rw [chains_message, List.append_eq_nil_iff, List.map_eq_nil_iff, ihBody, ihRest, divided,
        Bool.or_eq_false_iff]

variable {types : Descriptors δ φ} {descriptor : Option δ}

-- A chain goes inwards, and stays where the fields are.
theorem chains_bounds (base : Nat) {fields : Fields φ} (h : fields.Encodes types descriptor) :
    ∀ hole ∈ fields.chains shouldSplit base, hole.2 ≠ [] ∧ hole.2.Pairwise (· < ·) ∧
      ∀ q ∈ hole.2, base ≤ q ∧ q < base + fields.size := by
  induction fields generalizing descriptor base with
  | nil => intro hole hmem; cases hmem
  | plain tag value rest ih =>
      intro hole hmem
      obtain ⟨hne, hsorted, hbounds⟩ := ih _ h.2 hole hmem
      refine ⟨hne, hsorted, fun q hq => ?_⟩
      have := hbounds q hq
      simp only [size, render, List.length_append] at this ⊢
      omega
  | payload tag length content field rest ih =>
      intro hole hmem
      obtain ⟨-, -, hlength, hrest⟩ := h
      have hpos := hlength.states.length_pos
      rw [chains_payload, List.mem_append] at hmem
      rcases hmem with hmem | hmem
      · split at hmem
        · obtain rfl := List.mem_singleton.mp hmem
          refine ⟨List.cons_ne_nil _ _, List.pairwise_singleton _ _, fun q hq => ?_⟩
          obtain rfl := List.mem_singleton.mp hq
          simp only [size, render, List.length_append]
          omega
        · cases hmem
      · obtain ⟨hne, hsorted, hbounds⟩ := ih _ hrest hole hmem
        refine ⟨hne, hsorted, fun q hq => ?_⟩
        have := hbounds q hq
        simp only [size, render, List.length_append] at this ⊢
        omega
  | message tag length body rest ihBody ihRest =>
      intro hole hmem
      obtain ⟨⟨field, inner, -, -, hbody⟩, hlength, hrest⟩ := h
      have hpos := hlength.states.length_pos
      rw [chains_message, List.mem_append] at hmem
      rcases hmem with hmem | hmem
      · obtain ⟨deep, hdeep, rfl⟩ := List.mem_map.mp hmem
        obtain ⟨-, hsorted, hbounds⟩ := ihBody _ hbody deep hdeep
        refine ⟨List.cons_ne_nil _ _, List.pairwise_cons.mpr ⟨fun q hq => ?_, hsorted⟩, fun q hq => ?_⟩
        · have := hbounds q hq
          omega
        · simp only [size, render, List.length_append] at hbounds ⊢
          rcases List.mem_cons.mp hq with rfl | hq
          · omega
          · have := hbounds q hq
            omega
      · obtain ⟨hne, hsorted, hbounds⟩ := ihRest _ hrest hole hmem
        refine ⟨hne, hsorted, fun q hq => ?_⟩
        have := hbounds q hq
        simp only [size, render, List.length_append] at this ⊢
        omega

theorem getLastD_cons_of_ne_nil {chain : List Nat} (h : chain ≠ []) (position : Nat) :
    (position :: chain).getLastD 0 = chain.getLastD 0 := by
  rw [List.getLastD_cons, List.getLastD_eq_getLast?, List.getLastD_eq_getLast?,
    List.getLast?_eq_getLast_of_ne_nil h, Option.getD_some, Option.getD_some]

-- Every content has a length varint of its own.
theorem chains_last (base : Nat) {fields : Fields φ} (h : fields.Encodes types descriptor) :
    (fields.chains shouldSplit base).Pairwise fun hole other =>
      hole.2.getLastD 0 < other.2.getLastD 0 := by
  have hlast : ∀ {base : Nat} {fields : Fields φ} {descriptor : Option δ},
      fields.Encodes types descriptor → ∀ hole ∈ fields.chains shouldSplit base,
        base ≤ hole.2.getLastD 0 ∧ hole.2.getLastD 0 < base + fields.size := by
    intro base fields descriptor h hole hmem
    obtain ⟨hne, -, hbounds⟩ := chains_bounds shouldSplit base h hole hmem
    rw [List.getLastD_eq_getLast?, List.getLast?_eq_getLast_of_ne_nil hne, Option.getD_some]
    exact hbounds _ (List.getLast_mem hne)
  induction fields generalizing descriptor base with
  | nil => exact List.Pairwise.nil
  | plain tag value rest ih => exact ih _ h.2
  | payload tag length content field rest ih =>
      obtain ⟨-, -, hlength, hrest⟩ := h
      have hpos := hlength.states.length_pos
      rw [chains_payload]
      split
      · refine List.pairwise_cons.mpr ⟨fun other hother => ?_, ih _ hrest⟩
        have := hlast hrest other hother
        show base + tag.length < _
        omega
      · exact ih _ hrest
  | message tag length body rest ihBody ihRest =>
      obtain ⟨⟨field, inner, -, -, hbody⟩, hlength, hrest⟩ := h
      have hsame : ∀ hole ∈ body.chains shouldSplit (base + tag.length + length.length),
          ((base + tag.length) :: hole.2).getLastD 0 = hole.2.getLastD 0 := fun hole hmem =>
        getLastD_cons_of_ne_nil (chains_bounds shouldSplit _ hbody hole hmem).1 _
      rw [chains_message]
      refine List.pairwise_append.mpr ⟨?_, ihRest _ hrest, ?_⟩
      · rw [List.pairwise_map]
        refine (ihBody _ hbody).imp_of_mem fun hmem hother hlt => ?_
        rwa [hsame _ hmem, hsame _ hother]
      · intro hole hmem other hother
        obtain ⟨deep, hdeep, rfl⟩ := List.mem_map.mp hmem
        have hinner := (hlast hbody deep hdeep).2
        have houter := (hlast hrest other hother).1
        rw [hsame deep hdeep]
        omega

end Chains

section Slots

variable (shouldSplit) {ι : Type} (name : Bytes → ι) (pointer) (stated)

-- The encoding with the lengths around what is taken out told apart.
def slots : Fields φ → List (Slot ι)
  | nil => []
  | plain tag value rest => .piece (.bytes tag) :: .piece (.bytes value) :: rest.slots
  | payload tag length content field rest =>
      .piece (.bytes tag) ::
        ((if taken shouldSplit field content.length then
            [.length length content.length (pointer content).length, .piece (.hole (name content))]
          else [.piece (.bytes length), .piece (.bytes content)]) ++ rest.slots)
  | message tag length body rest =>
      .piece (.bytes tag) ::
        (if body.divided shouldSplit then .length length body.size (stated body)
          else .piece (.bytes length)) ::
        (body.slots ++ rest.slots)

theorem slots_before (base : Nat) (chain : List Nat) (fields : Fields φ) :
    (fields.slots shouldSplit pointer stated name).map Slot.before =
      (fields.pieces shouldSplit base chain).map (Piece.map fun hole => name hole.1) := by
  induction fields generalizing base chain with
  | nil => rfl
  | plain tag value rest ih =>
      simp only [slots, pieces, List.map_cons, Slot.before, Piece.map, ← ih]
  | payload tag length content field rest ih =>
      by_cases htaken : taken shouldSplit field content.length = true
      · simp only [slots, pieces, if_pos htaken, List.map_cons, List.cons_append, List.nil_append,
          Slot.before, Piece.map, ← ih]
      · simp only [slots, pieces, if_neg htaken, List.map_cons, List.cons_append, List.nil_append,
          Slot.before, Piece.map, ← ih]
  | message tag length body rest ihBody ihRest =>
      simp only [slots, pieces, List.map_cons, List.map_append, Slot.before, Piece.map, ← ihBody,
        ← ihRest]
      cases body.divided shouldSplit <;> rfl

theorem slots_render {fill : ι → Bytes} {base : Nat} {fields : Fields φ}
    (hfill : ∀ hole ∈ fields.chains shouldSplit base, fill (name hole.1) = hole.1) :
    ((fields.slots shouldSplit pointer stated name).map Slot.before).flatMap (Piece.render fill) =
      fields.render := by
  rw [slots_before shouldSplit pointer stated name base [], ← pieces_render shouldSplit base [],
    List.flatMap_map]
  refine List.flatMap_congr fun piece hpiece => ?_
  cases piece with
  | bytes b => rfl
  | hole hole => exact hfill hole (List.mem_filterMap.mpr ⟨_, hpiece, rfl⟩)

-- With the lengths rewritten, and pointers in the holes, it is what is written.
theorem slots_after {fill : ι → Bytes} (hfill : ∀ content, fill (name content) = pointer content)
    (fields : Fields φ) :
    ((fields.slots shouldSplit pointer stated name).map Slot.after).flatMap (Piece.render fill) =
      fields.written shouldSplit pointer stated := by
  induction fields with
  | nil => rfl
  | plain tag value rest ih =>
      simp only [slots, written, List.map_cons, List.flatMap_cons, Slot.after, Piece.render, ih,
        List.append_assoc]
  | payload tag length content field rest ih =>
      by_cases htaken : taken shouldSplit field content.length = true
      · simp only [slots, written, if_pos htaken, List.map_cons, List.cons_append, List.nil_append,
          List.flatMap_cons, Slot.after, Piece.render, ih, hfill, delimited, List.append_assoc]
      · simp only [slots, written, if_neg htaken, List.map_cons, List.cons_append, List.nil_append,
          List.flatMap_cons, Slot.after, Piece.render, ih, List.append_assoc]
  | message tag length body rest ihBody ihRest =>
      simp only [slots, written, List.map_cons, List.map_append, List.flatMap_cons,
        List.flatMap_append, Slot.after, Piece.render, ihBody, ihRest, List.append_assoc]
      cases body.divided shouldSplit <;> rfl

theorem slots_stated {types : Descriptors δ φ} {descriptor : Option δ} {fields : Fields φ}
    (h : fields.Encodes types descriptor) :
    Slot.Stated (fields.slots shouldSplit pointer stated name) := by
  induction fields generalizing descriptor with
  | nil => intro raw old new hmem; cases hmem
  | plain tag value rest ih =>
      intro raw old new hmem
      simp only [slots, List.mem_cons, reduceCtorEq, false_or] at hmem
      exact ih h.2 raw old new hmem
  | payload tag length content field rest ih =>
      obtain ⟨-, -, hlength, hrest⟩ := h
      intro raw old new hmem
      simp only [slots, List.mem_cons, reduceCtorEq, false_or, List.mem_append] at hmem
      rcases hmem with hmem | hmem
      · split at hmem
        · simp only [List.mem_cons, List.not_mem_nil, reduceCtorEq, or_false] at hmem
          obtain ⟨rfl, rfl, -⟩ := Slot.length.inj hmem
          exact hlength.states
        · simp only [List.mem_cons, List.not_mem_nil, reduceCtorEq, or_false] at hmem
      · exact ih hrest raw old new hmem
  | message tag length body rest ihBody ihRest =>
      obtain ⟨⟨field, inner, -, -, hbody⟩, hlength, hrest⟩ := h
      intro raw old new hmem
      simp only [slots, List.mem_cons, reduceCtorEq, false_or, List.mem_append] at hmem
      rcases hmem with hmem | hmem | hmem
      · split at hmem
        · obtain ⟨rfl, rfl, -⟩ := Slot.length.inj hmem
          exact hlength.states
        · cases hmem
      · exact ihBody hbody raw old new hmem
      · exact ihRest hrest raw old new hmem

theorem slots_marks_of_not_divided (fill : ι → Bytes) (base : Nat) {fields : Fields φ}
    (h : fields.divided shouldSplit = false) :
    Slot.marks fill base (fields.slots shouldSplit pointer stated name) = [] := by
  induction fields generalizing base with
  | nil => rfl
  | plain tag value rest ih => exact ih _ h
  | payload tag length content field rest ih =>
      obtain ⟨htaken, hrest⟩ := Bool.or_eq_false_iff.mp h
      rw [slots, htaken]
      exact ih _ hrest
  | message tag length body rest ihBody ihRest =>
      obtain ⟨hbody, hrest⟩ := Bool.or_eq_false_iff.mp h
      rw [slots, hbody]
      simp only [Slot.marks, Bool.false_eq_true, if_false, Slot.marks_append, ihBody _ hbody,
        ihRest _ hrest, List.append_nil]

end Slots

end Fields

end Wire
