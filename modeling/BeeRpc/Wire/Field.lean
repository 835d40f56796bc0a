import BeeRpc.Wire.Document
import Mathlib.Data.Nat.Bitwise

namespace Wire

-- These bytes are a varint of no more than ten bytes, and nothing behind it.
def Varint.Spells (raw : Bytes) (n : Nat) : Prop :=
  Varint.decode? raw = some n ∧ Varint.span? raw = some raw.length ∧ raw.length ≤ 10

theorem Varint.and_high (byte : UInt8) : byte.toNat &&& 0x80 = 0 ↔ byte.toNat < 128 := by
  have hbyte := byte.toNat_lt
  have hhigh : byte.toNat &&& 0x80 = (byte.toNat.testBit 7).toNat * 2 ^ 7 := Nat.and_two_pow _ 7
  rw [hhigh, Nat.testBit_eq_decide_div_mod_eq]
  by_cases hbit : byte.toNat / 2 ^ 7 % 2 = 1
  · rw [decide_eq_true hbit]
    simp only [Bool.toNat_true]
    omega
  · rw [decide_eq_false hbit]
    simp only [Bool.toNat_false]
    omega

-- Seven more bits in front of those that have been read.
theorem Varint.or_group {value shift : Nat} (h : value < 2 ^ shift) (byte : Nat) :
    value ||| (byte &&& 0x7F) <<< shift = value + byte % 128 * 2 ^ shift := by
  have hlow : byte &&& 0x7F = byte % 128 := Nat.and_two_pow_sub_one_eq_mod byte 7
  rw [hlow, Nat.shiftLeft_eq, Nat.mul_comm, Nat.or_comm, ← Nat.two_pow_add_eq_or_of_lt h]
  omega

theorem Varint.Spells.ne_nil {raw : Bytes} {n : Nat} (h : Varint.Spells raw n) : raw ≠ [] := by
  rintro rfl
  cases h.1

theorem Varint.Spells.states {raw : Bytes} {n : Nat} (h : Varint.Spells raw n) :
    Varint.States raw n := ⟨h.1, h.2.1⟩

theorem Varint.Spells.append_inj {raw raw' more more' : Bytes} {n n' : Nat} (h : Varint.Spells raw n)
    (h' : Varint.Spells raw' n') (heq : raw ++ more = raw' ++ more') :
    raw = raw' ∧ n = n' ∧ more = more' := h.states.append_inj h'.states heq

-- What protobuf says of message types: the fields of a descriptor by their numbers, and the
-- message type of a field whose type is TYPE_MESSAGE.
structure Descriptors (δ φ : Type) where
  fieldsByNumber : δ → Nat → Option φ
  messageType : φ → Option δ

-- A message with one message field and one bytes field, each by its number.
def Descriptors.sample : Descriptors Unit Bool where
  fieldsByNumber _ number :=
    if number = 1 then some true else if number = 2 then some false else none
  messageType field := if field then some () else none

-- The fields of an encoded message, with every tag and every length as it is spelled. What is in a
-- length-delimited field is told apart where the field is of a message type.
inductive Fields (φ : Type) where
  | nil
  | plain (tag value : Bytes) (rest : Fields φ)
  | payload (tag length content : Bytes) (field : Option φ) (rest : Fields φ)
  | message (tag length : Bytes) (body rest : Fields φ)
  deriving Repr, DecidableEq

namespace Fields

variable {δ φ : Type}

def render : Fields φ → Bytes
  | nil => []
  | plain tag value rest => tag ++ value ++ rest.render
  | payload tag length content _ rest => tag ++ length ++ content ++ rest.render
  | message tag length body rest => tag ++ length ++ body.render ++ rest.render

def size (fields : Fields φ) : Nat := fields.render.length

-- A tag with the number of a field and its wire type.
def Tags (types : Descriptors δ φ) (descriptor : Option δ) (tag : Bytes) (wireType : Nat)
    (field : Option φ) : Prop :=
  ∃ n, Varint.Spells tag n ∧ n &&& 7 = wireType ∧
    field = descriptor.bind fun d => types.fieldsByNumber d (n >>> 3)

-- A valid encoding of a message of this type. There are no groups.
def Encodes (types : Descriptors δ φ) : Option δ → Fields φ → Prop
  | _, nil => True
  | descriptor, plain tag value rest =>
      (∃ field, (Tags types descriptor tag 0 field ∧ ∃ n, Varint.Spells value n) ∨
        (Tags types descriptor tag 1 field ∧ value.length = 8) ∨
        (Tags types descriptor tag 5 field ∧ value.length = 4)) ∧
      rest.Encodes types descriptor
  | descriptor, payload tag length content field rest =>
      Tags types descriptor tag 2 field ∧ field.bind types.messageType = none ∧
      Varint.Spells length content.length ∧ rest.Encodes types descriptor
  | descriptor, message tag length body rest =>
      (∃ field inner, Tags types descriptor tag 2 (some field) ∧
        types.messageType field = some inner ∧ body.Encodes types (some inner)) ∧
      Varint.Spells length body.size ∧ rest.Encodes types descriptor

-- Whether a field's content is to be taken out.
def taken (shouldSplit : φ → Nat → Bool) (field : Option φ) (length : Nat) : Bool :=
  field.any fun field => shouldSplit field length

-- The encoding with those contents left open, each with the positions of the lengths around it,
-- outermost first, and of its own.
def pieces (shouldSplit : φ → Nat → Bool) (base : Nat) (chain : List Nat) :
    Fields φ → List (Piece (Bytes × List Nat))
  | nil => []
  | plain tag value rest =>
      .bytes tag :: .bytes value ::
        rest.pieces shouldSplit (base + tag.length + value.length) chain
  | payload tag length content field rest =>
      .bytes tag :: .bytes length ::
        (if taken shouldSplit field content.length then
          .hole (content, chain ++ [base + tag.length]) else .bytes content) ::
        rest.pieces shouldSplit (base + tag.length + length.length + content.length) chain
  | message tag length body rest =>
      .bytes tag :: .bytes length ::
        (body.pieces shouldSplit (base + tag.length + length.length)
            (chain ++ [base + tag.length]) ++
          rest.pieces shouldSplit (base + tag.length + length.length + body.size) chain)

-- These contents, with their positions, by themselves.
def splits (shouldSplit : φ → Nat → Bool) (fields : Fields φ) : List (Bytes × List Nat) :=
  (fields.pieces shouldSplit 0 []).filterMap Piece.hole?

def append : Fields φ → Fields φ → Fields φ
  | nil, more => more
  | plain tag value rest, more => plain tag value (rest.append more)
  | payload tag length content field rest, more =>
      payload tag length content field (rest.append more)
  | message tag length body rest, more => message tag length body (rest.append more)

section Append

variable (fields more : Fields φ)

theorem render_append : (fields.append more).render = fields.render ++ more.render := by
  induction fields with
  | nil => rfl
  | plain tag value rest ih => simp only [append, render, ih, List.append_assoc]
  | payload tag length content field rest ih => simp only [append, render, ih, List.append_assoc]
  | message tag length body rest _ ih => simp only [append, render, ih, List.append_assoc]

theorem encodes_append {types : Descriptors δ φ} {descriptor : Option δ}
    (h : fields.Encodes types descriptor) (hmore : more.Encodes types descriptor) :
    (fields.append more).Encodes types descriptor := by
  induction fields with
  | nil => exact hmore
  | plain tag value rest ih => exact ⟨h.1, ih h.2⟩
  | payload tag length content field rest ih =>
      obtain ⟨htag, hfield, hlength, hrest⟩ := h
      exact ⟨htag, hfield, hlength, ih hrest⟩
  | message tag length body rest _ ih =>
      obtain ⟨htag, hlength, hrest⟩ := h
      exact ⟨htag, hlength, ih hrest⟩

theorem pieces_append (shouldSplit : φ → Nat → Bool) (base : Nat) (chain : List Nat) :
    (fields.append more).pieces shouldSplit base chain =
      fields.pieces shouldSplit base chain ++
        more.pieces shouldSplit (base + fields.size) chain := by
  induction fields generalizing base with
  | nil => rfl
  | plain tag value rest ih =>
      simp only [append, pieces, ih, size, render, List.length_append, List.cons_append,
        Nat.add_assoc]
  | payload tag length content field rest ih =>
      simp only [append, pieces, ih, size, render, List.length_append, List.cons_append,
        Nat.add_assoc]
  | message tag length body rest _ ih =>
      simp only [append, pieces, ih, size, render, List.length_append, List.cons_append,
        List.append_assoc, Nat.add_assoc]

end Append

section Unique

variable {types : Descriptors δ φ} {descriptor : Option δ}

theorem Tags.append_inj {tag tag' more more' : Bytes} {wireType wireType' : Nat}
    {field field' : Option φ} (h : Tags types descriptor tag wireType field)
    (h' : Tags types descriptor tag' wireType' field') (heq : tag ++ more = tag' ++ more') :
    tag = tag' ∧ wireType = wireType' ∧ field = field' ∧ more = more' := by
  obtain ⟨n, hn, htype, hfield⟩ := h
  obtain ⟨n', hn', htype', hfield'⟩ := h'
  obtain ⟨rfl, rfl, rfl⟩ := hn.append_inj hn' heq
  exact ⟨rfl, htype.symm.trans htype', hfield.trans hfield'.symm, rfl⟩

theorem Tags.ne_nil {tag : Bytes} {wireType : Nat} {field : Option φ}
    (h : Tags types descriptor tag wireType field) : tag ≠ [] := by
  obtain ⟨n, hn, -⟩ := h
  exact hn.ne_nil

-- A field that is not delimited: its tag, and a value whose length the tag says.
theorem plain_tags {tag value : Bytes} {rest : Fields φ}
    (h : (plain tag value rest).Encodes types descriptor) :
    ∃ wireType field, Tags types descriptor tag wireType field ∧ wireType ≠ 2 := by
  obtain ⟨⟨field, h | h | h⟩, -⟩ := h
  · exact ⟨0, field, h.1, by omega⟩
  · exact ⟨1, field, h.1, by omega⟩
  · exact ⟨5, field, h.1, by omega⟩

theorem plain_inj {tag value value' more more' : Bytes} {rest rest' : Fields φ}
    (h : (plain tag value rest).Encodes types descriptor)
    (h' : (plain tag value' rest').Encodes types descriptor) (heq : value ++ more = value' ++ more') :
    value = value' ∧ more = more' := by
  obtain ⟨⟨field, h⟩, -⟩ := h
  obtain ⟨⟨field', h'⟩, -⟩ := h'
  have hsame : ∀ {m m' field field'}, Tags types descriptor tag m field →
      Tags types descriptor tag m' field' → m = m' :=
    fun ht ht' => (ht.append_inj ht' (rfl : tag ++ [] = tag ++ [])).2.1
  rcases h with ⟨ht, n, hn⟩ | ⟨ht, hlength⟩ | ⟨ht, hlength⟩
  · rcases h' with ⟨ht', n', hn'⟩ | ⟨ht', -⟩ | ⟨ht', -⟩
    · exact (hn.append_inj hn' heq).imp_right And.right
    · cases hsame ht ht'
    · cases hsame ht ht'
  · rcases h' with ⟨ht', -⟩ | ⟨ht', hlength'⟩ | ⟨ht', -⟩
    · cases hsame ht ht'
    · exact List.append_inj heq (hlength.trans hlength'.symm)
    · cases hsame ht ht'
  · rcases h' with ⟨ht', -⟩ | ⟨ht', -⟩ | ⟨ht', hlength'⟩
    · cases hsame ht ht'
    · cases hsame ht ht'
    · exact List.append_inj heq (hlength.trans hlength'.symm)

-- What a field begins with.
theorem exists_tag {fields : Fields φ} (h : fields.Encodes types descriptor) (hne : fields ≠ nil) :
    ∃ tag wireType field more, Tags types descriptor tag wireType field ∧
      fields.render = tag ++ more := by
  cases fields with
  | nil => exact absurd rfl hne
  | plain tag value rest =>
      obtain ⟨wireType, field, htag, -⟩ := plain_tags h
      exact ⟨tag, wireType, field, _, htag, List.append_assoc ..⟩
  | payload tag length content field rest =>
      exact ⟨tag, 2, field, length ++ (content ++ rest.render), h.1, by simp [render]⟩
  | message tag length body rest =>
      obtain ⟨⟨field, inner, htag, -⟩, -⟩ := h
      exact ⟨tag, 2, some field, length ++ (body.render ++ rest.render), htag, by simp [render]⟩

theorem render_eq_nil {fields : Fields φ} (h : fields.Encodes types descriptor)
    (hnil : fields.render = []) : fields = nil := by
  by_contra hne
  obtain ⟨tag, wireType, field, more, htag, hrender⟩ := exists_tag h hne
  rw [hnil] at hrender
  exact htag.ne_nil (List.append_eq_nil_iff.mp hrender.symm).1

-- A delimited field: its tag says which it is, its length how far it goes.
theorem delimited_inj {tag tag' length length' content content' more more' : Bytes}
    {field field' : Option φ} (htag : Tags types descriptor tag 2 field)
    (htag' : Tags types descriptor tag' 2 field') (hlength : Varint.Spells length content.length)
    (hlength' : Varint.Spells length' content'.length)
    (heq : tag ++ length ++ content ++ more = tag' ++ length' ++ content' ++ more') :
    tag = tag' ∧ field = field' ∧ length = length' ∧ content = content' ∧ more = more' := by
  simp only [List.append_assoc] at heq
  obtain ⟨rfl, -, rfl, heq⟩ := htag.append_inj htag' heq
  obtain ⟨rfl, hsize, heq⟩ := hlength.append_inj hlength' heq
  obtain ⟨rfl, rfl⟩ := List.append_inj heq hsize
  exact ⟨rfl, rfl, rfl, rfl, rfl⟩

-- There is one way to read an encoding.
theorem encodes_unique {fields fields' : Fields φ} (h : fields.Encodes types descriptor)
    (h' : fields'.Encodes types descriptor) (heq : fields.render = fields'.render) :
    fields = fields' := by
  induction fields generalizing descriptor fields' with
  | nil => exact (render_eq_nil h' heq.symm).symm
  | plain tag value rest ih =>
      obtain ⟨wireType, field, htag, hplain⟩ := plain_tags h
      cases fields' with
      | nil => exact render_eq_nil h heq
      | plain tag' value' rest' =>
          simp only [render, List.append_assoc] at heq
          obtain ⟨wireType', field', htag', -⟩ := plain_tags h'
          obtain ⟨rfl, -, -, heq⟩ := htag.append_inj htag' heq
          obtain ⟨rfl, hrest⟩ := plain_inj h h' heq
          rw [ih h.2 h'.2 hrest]
      | payload tag' length content field' rest' =>
          simp only [render, List.append_assoc] at heq
          exact absurd (htag.append_inj h'.1 heq).2.1 hplain
      | message tag' length body rest' =>
          simp only [render, List.append_assoc] at heq
          obtain ⟨⟨field', inner, htag', -⟩, -⟩ := h'
          exact absurd (htag.append_inj htag' heq).2.1 hplain
  | payload tag length content field rest ih =>
      have hself := h
      obtain ⟨htag, hfield, hlength, hrest⟩ := h
      cases fields' with
      | nil => exact render_eq_nil hself heq
      | plain tag' value rest' =>
          simp only [render, List.append_assoc] at heq
          obtain ⟨wireType', field', htag', hplain⟩ := plain_tags h'
          exact absurd (htag.append_inj htag' heq).2.1.symm hplain
      | payload tag' length' content' field' rest' =>
          obtain ⟨htag', hfield', hlength', hrest'⟩ := h'
          obtain ⟨rfl, rfl, rfl, rfl, hmore⟩ := delimited_inj htag htag' hlength hlength' heq
          rw [ih hrest hrest' hmore]
      | message tag' length' body rest' =>
          obtain ⟨⟨field', inner, htag', hinner, -⟩, hlength', -⟩ := h'
          obtain ⟨-, rfl, -⟩ := delimited_inj htag htag' hlength hlength' heq
          rw [Option.bind_some, hinner] at hfield
          cases hfield
  | message tag length body rest ihBody ihRest =>
      have hself := h
      obtain ⟨⟨field, inner, htag, hinner, hbody⟩, hlength, hrest⟩ := h
      cases fields' with
      | nil => exact render_eq_nil hself heq
      | plain tag' value rest' =>
          simp only [render, List.append_assoc] at heq
          obtain ⟨wireType', field', htag', hplain⟩ := plain_tags h'
          exact absurd (htag.append_inj htag' heq).2.1.symm hplain
      | payload tag' length' content' field' rest' =>
          obtain ⟨htag', hfield', hlength', -⟩ := h'
          obtain ⟨-, rfl, -⟩ := delimited_inj htag htag' hlength hlength' heq
          rw [Option.bind_some, hinner] at hfield'
          cases hfield'
      | message tag' length' body' rest' =>
          obtain ⟨⟨field', inner', htag', hinner', hbody'⟩, hlength', hrest'⟩ := h'
          obtain ⟨rfl, hfield, rfl, hbodies, hmore⟩ := delimited_inj htag htag' hlength hlength' heq
          obtain rfl := Option.some.inj hfield
          obtain rfl := Option.some.inj (hinner.symm.trans hinner')
          rw [ihBody hbody hbody' hbodies, ihRest hrest hrest' hmore]

end Unique

section Holes

variable (shouldSplit : φ → Nat → Bool) (base : Nat) (chain : List Nat)

-- With the contents in their places the pieces are the encoding.
theorem pieces_render (fields : Fields φ) :
    (fields.pieces shouldSplit base chain).flatMap (Piece.render Prod.fst) = fields.render := by
  induction fields generalizing base chain with
  | nil => rfl
  | plain tag value rest ih => simp only [pieces, List.flatMap_cons, Piece.render, ih, render,
      List.append_assoc]
  | payload tag length content field rest ih =>
      simp only [pieces, List.flatMap_cons, ih, render, List.append_assoc]
      split <;> rfl
  | message tag length body rest ihBody ihRest =>
      simp only [pieces, List.flatMap_cons, List.flatMap_append, Piece.render, ihBody, ihRest, render,
        List.append_assoc]

-- What is left open lies in the encoding, behind a tag.
theorem holes_infix {types : Descriptors δ φ} {descriptor : Option δ} {fields : Fields φ}
    (h : fields.Encodes types descriptor) :
    ∀ hole ∈ (fields.pieces shouldSplit base chain).filterMap Piece.hole?,
      hole.1 <:+: fields.render ∧ hole.1.length < fields.size := by
  induction fields generalizing descriptor base chain with
  | nil => intro hole hmem; cases hmem
  | plain tag value rest ih =>
      intro hole hmem
      obtain ⟨hsub, hlength⟩ := ih _ _ h.2 hole hmem
      refine ⟨hsub.trans (List.suffix_append _ _).isInfix, ?_⟩
      simp only [size, render, List.length_append] at hlength ⊢
      omega
  | payload tag length content field rest ih =>
      intro hole hmem
      obtain ⟨htag, hfield, -, hrest⟩ := h
      have hpos := List.length_pos_iff.mpr htag.ne_nil
      have hback : ∀ hole ∈ (rest.pieces shouldSplit
          (base + tag.length + length.length + content.length) chain).filterMap Piece.hole?,
          hole.1 <:+: (payload tag length content field rest).render ∧
            hole.1.length < (payload tag length content field rest).size := by
        intro hole hmem
        obtain ⟨hsub, hlength⟩ := ih _ _ hrest hole hmem
        refine ⟨hsub.trans (List.suffix_append _ _).isInfix, ?_⟩
        simp only [size, render, List.length_append] at hlength ⊢
        omega
      by_cases htaken : taken shouldSplit field content.length = true
      · simp only [pieces, htaken, if_true, Piece.filterMap_hole?_bytes,
          Piece.filterMap_hole?_hole, List.mem_cons] at hmem
        rcases hmem with rfl | hmem
        · refine ⟨⟨tag ++ length, rest.render, rfl⟩, ?_⟩
          simp only [size, render, List.length_append]
          omega
        · exact hback hole hmem
      · simp only [pieces, htaken, Piece.filterMap_hole?_bytes] at hmem
        exact hback hole hmem
  | message tag length body rest ihBody ihRest =>
      intro hole hmem
      obtain ⟨⟨field, inner, htag, -, hbody⟩, -, hrest⟩ := h
      simp only [pieces, Piece.filterMap_hole?_bytes, List.filterMap_append,
        List.mem_append] at hmem
      rcases hmem with hmem | hmem
      · obtain ⟨hsub, hlength⟩ := ihBody _ _ hbody hole hmem
        refine ⟨hsub.trans ⟨tag ++ length, rest.render, rfl⟩, ?_⟩
        simp only [size, render, List.length_append] at hlength ⊢
        omega
      · obtain ⟨hsub, hlength⟩ := ihRest _ _ hrest hole hmem
        refine ⟨hsub.trans (List.suffix_append _ _).isInfix, ?_⟩
        simp only [size, render, List.length_append] at hlength ⊢
        omega

end Holes

-- A payload of three bytes in a message, and a number behind it.
def sample : Fields Bool :=
  .message [10] [5] (.payload [18] [3] [7, 8, 9] (some false) .nil) (.plain [24] [5] .nil)

theorem sample_encodes : sample.Encodes Descriptors.sample (some ()) := by
  have htag : ∀ byte n, Varint.decode? [byte] = some n → Varint.span? [byte] = some 1 →
      Varint.Spells [byte] n := fun byte n h h' => ⟨h, h', by simp⟩
  refine ⟨⟨true, (), ⟨10, htag 10 10 rfl rfl, rfl, rfl⟩, rfl, ⟨18, htag 18 18 rfl rfl, rfl, rfl⟩, rfl,
    htag 3 3 rfl rfl, trivial⟩, htag 5 5 rfl rfl, ?_⟩
  exact ⟨⟨none, Or.inl ⟨⟨24, htag 24 24 rfl rfl, rfl, rfl⟩, 5, htag 5 5 rfl rfl⟩⟩, trivial⟩

end Fields

end Wire
