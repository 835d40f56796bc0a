import BeeRpc.Builder

namespace BeeRpc

open Wire Naming

section Lengths

variable {ι : Type} (registry : Registry)

def realLengthOf (mark : Mark) : Nat × RealLength := (mark.position, mark.new, mark.old, mark.leaf)

-- What compute_real_lengths reads about a message's fields.
structure Measured (buffer : Bytes) (pointerLengths : Dict Nat Nat) (name : ι → BlockId)
    (fill fill' : ι → Bytes) (base : Nat) (doc : Document ι) : Prop where
  marks : ∀ mark ∈ doc.marks fill fill' base, getPositionLength mark.position buffer = .ok mark.old
  leaves : ∀ leaf ∈ doc.leaves fill base, pointerLengths.lookup leaf.2 = some (fill leaf.1).length
  holes : ∀ i ∈ doc.holes, getBlockLength registry (name i) = .ok (fill' i).length
  tagged : doc.Tagged

-- What it has made of the fields of a document: their entries, and together the
-- difference that the blocks make to the document's size.
structure Accounts (fill fill' : ι → Bytes) (base : Nat) (doc : Document ι)
    (kids : List RealKid) : Prop where
  entries : (kids.flatMap RealKid.entries).Perm ((doc.marks fill fill' base).map realLengthOf)
  within : (kids.map RealKid.blockLength).sum ≤ doc.size fill
  sizes : (kids.map RealKid.treeLength).sum + doc.size fill =
    (kids.map RealKid.blockLength).sum + doc.size fill'

theorem marks_nodup (fill fill' : ι → Bytes) (base : Nat) (doc : Document ι) :
    (((doc.marks fill fill' base).map realLengthOf).map Prod.fst).Nodup := by
  rw [List.map_map, List.nodup_iff_pairwise_ne, List.pairwise_map]
  exact (Document.marks_strictly_ascending fill fill' base doc).imp fun h => Nat.ne_of_lt h

theorem size_eq_of_holes_nil (fill fill' : ι → Bytes) (doc : Document ι) (h : doc.holes = []) :
    doc.size fill = doc.size fill' := by
  rw [Document.size, Document.render_eq_of_holes_nil fill fill' doc h, Document.size]

theorem closeTree_accounts {fill fill' : ι → Bytes} {base : Nat} {doc : Document ι}
    {kids : List RealKid} (h : Accounts fill fill' base doc kids) :
    closeTree (doc.size fill) kids =
      .ok (doc.size fill', kids.flatMap RealKid.entries) := by
  have hnodup : ((kids.flatMap RealKid.entries).map Prod.fst).Nodup :=
    (h.entries.map Prod.fst).nodup_iff.mpr (marks_nodup fill fill' base doc)
  have hw := h.within
  have hs := h.sizes
  simp only [closeTree]
  rw [if_neg (by omega), Dict.ofList_of_nodup _ hnodup]
  congr 2
  omega

theorem follows_real (buffer : Bytes) (pointerLengths : Dict Nat Nat) (name : ι → BlockId)
    (fill fill' : ι → Bytes) :
    LengthsTree.Follows (realLeaf registry pointerLengths) (realNode buffer) name fill
      (Measured registry buffer pointerLengths name fill fill') (Accounts fill fill') where
  inRaw base bytes rest h := ⟨h.marks, h.leaves, h.holes, h.tagged⟩
  inRest base tag body rest h := by
    refine ⟨fun mark hm => h.marks mark ?_, fun leaf hl => h.leaves leaf ?_,
      fun i hi => h.holes i ?_, h.tagged.2.2⟩
    · simp only [Document.marks]
      split
      · exact hm
      · exact List.mem_cons_of_mem _ (List.mem_append_right _ hm)
    · exact List.mem_append_right _ hl
    · exact List.mem_append_right _ hi
  inBody base tag body rest hb h := by
    refine ⟨fun mark hm => h.marks mark ?_, fun leaf hl => h.leaves leaf ?_,
      fun i hi => h.holes i ?_, h.tagged.2.1⟩
    · simp only [Document.marks, if_neg hb]
      exact List.mem_cons_of_mem _ (List.mem_append_left _ hm)
    · exact List.mem_append_left _ hl
    · exact List.mem_append_left _ hi
  inHole base tag i rest h :=
    ⟨fun mark hm => h.marks mark (List.mem_cons_of_mem _ hm),
      fun leaf hl => h.leaves leaf (List.mem_cons_of_mem _ hl),
      fun i hi => h.holes i (List.mem_cons_of_mem _ hi), h.tagged.2⟩
  nil base := ⟨List.Perm.refl _, Nat.le_refl _, rfl⟩
  raw base bytes rest more h := by
    refine ⟨h.entries, ?_, ?_⟩
    · have := h.within
      simp only [Document.size_raw]
      omega
    · have := h.sizes
      simp only [Document.size_raw]
      omega
  plain base tag body rest more hb h := by
    have hsame := size_eq_of_holes_nil fill fill' body hb
    refine ⟨?_, ?_, ?_⟩
    · simp only [Document.marks, if_pos hb]
      exact h.entries
    · have := h.within
      simp only [Document.size_sub]
      omega
    · have := h.sizes
      simp only [Document.size_sub, ← hsame]
      omega
  sub base tag body rest inner hb h hinner := by
    have hread := h.marks ⟨base + tag.length, body.size fill, body.size fill', false⟩ (by
      simp only [Document.marks, if_neg hb]
      exact List.mem_cons_self ..)
    have htag := List.length_pos_iff.mpr h.tagged.1
    refine ⟨realKid (base + tag.length) (body.size fill') (body.size fill) false
      (inner.flatMap RealKid.entries), ?_, fun more hmore => ⟨?_, ?_, ?_⟩⟩
    · simp only [realNode, hread, ok_bind, closeTree_accounts hinner, pure_ok]
    · simp only [Document.marks, if_neg hb, List.flatMap_cons, realKid, List.map_append,
        List.map_cons, List.cons_append]
      exact (hinner.entries.append hmore.entries).cons _
    · have := hmore.within
      simp only [List.map_cons, List.sum_cons, realKid, Document.size_sub, Document.delimitedSize,
        width] at this ⊢
      omega
    · have := hmore.sizes
      simp only [List.map_cons, List.sum_cons, realKid, Document.size_sub, Document.delimitedSize,
        width] at this ⊢
      omega
  hole base tag i rest h := by
    have hlen := h.leaves (i, base + tag.length) (List.mem_cons_self ..)
    have hblock := h.holes i (List.mem_cons_self ..)
    have htag := List.length_pos_iff.mpr h.tagged.1
    refine ⟨realKid (base + tag.length) (fill' i).length (fill i).length true [], ?_,
      fun more hmore => ⟨?_, ?_, ?_⟩⟩
    · simp only at hlen
      simp only [realLeaf, hlen, hblock, ok_bind, pure_ok]
    · exact hmore.entries.cons _
    · have := hmore.within
      simp only [List.map_cons, List.sum_cons, realKid, Document.size_hole, Document.delimitedSize,
        width] at this ⊢
      omega
    · have := hmore.sizes
      simp only [List.map_cons, List.sum_cons, realKid, Document.size_hole, Document.delimitedSize,
        width] at this ⊢
      omega
  perm base doc more more' hp h := by
    refine ⟨(hp.flatMap_right _).symm.trans h.entries, ?_, ?_⟩
    · rw [← (hp.map RealKid.blockLength).sum_eq]
      exact h.within
    · rw [← (hp.map RealKid.blockLength).sum_eq, ← (hp.map RealKid.treeLength).sum_eq]
      exact h.sizes

-- The lengths of every field that leads to a pointer, before and after, in their order.
theorem computeRealLengths_marks (name : ι → BlockId) (fill fill' : ι → Bytes)
    (doc : Document ι) (pointerLengths : Dict Nat Nat)
    (hm : Measured registry (doc.render fill) pointerLengths name fill fill' 0 doc)
    (container : Dict BlockId (List (List Nat)))
    (hperm : container.ungroup.Perm (LengthsTree.chainsOf name fill 0 doc)) :
    ∃ tree, createLengthsTree container = .ok tree ∧
      computeRealLengths registry tree (doc.render fill) pointerLengths =
        .ok ((doc.marks fill fill' 0).map realLengthOf) := by
  obtain ⟨tree, htree, kids, hkids, hacc⟩ := LengthsTree.collect_chains _ _
    (follows_real registry (doc.render fill) pointerLengths name fill fill') 0 doc hm _ hperm
  refine ⟨tree, htree, ?_⟩
  have hclose := closeTree_accounts hacc
  rw [Document.size] at hclose
  have hsorted : ((doc.marks fill fill' 0).map realLengthOf).Pairwise fun a b => a.1 < b.1 :=
    List.pairwise_map.mpr (Document.marks_strictly_ascending fill fill' 0 doc)
  simp only [computeRealLengths, hkids, ok_bind, hclose, pure_ok, Except.ok.injEq]
  exact Dict.ascending_eq hacc.entries hsorted

end Lengths

section Generate

variable {ι : Type} (fill fill' : ι → Bytes) (buffer : Bytes)

-- What generate_buffer has made of the buffer's first bytes, the part in front of the
-- next pointer last.
def Generated.upTo (state : Generated) (base : Nat) : Bytes :=
  state.newBuff ++ (buffer.drop state.i).take (base - state.i)

theorem upTo_append (state : Generated) (pre middle post : Bytes)
    (hbuffer : buffer = pre ++ (middle ++ post)) (hi : state.i ≤ pre.length) :
    state.upTo buffer (pre.length + middle.length) = state.upTo buffer pre.length ++ middle := by
  have hlen : (pre.drop state.i).length = pre.length - state.i := List.length_drop
  rw [Generated.upTo, Generated.upTo, hbuffer, List.drop_append_of_le_length hi,
    show pre.length + middle.length - state.i = (pre.drop state.i).length + middle.length by omega,
    ← hlen, List.take_left, List.take_append, List.take_of_length_le (by omega),
    Nat.add_sub_cancel_left, List.take_left, List.append_assoc]

theorem upTo_self (state : Generated) : state.upTo buffer state.i = state.newBuff := by
  simp [Generated.upTo]

-- generate_buffer cuts the encoding at the pointers and rewrites every length on the way.
theorem foldl_generateStep (doc : Document ι) (base : Nat) (pre post : Bytes) (state : Generated)
    (hbuffer : buffer = pre ++ (doc.render fill ++ post)) (hbase : base = pre.length)
    (hi : state.i ≤ base) (state' : Generated)
    (hstate : state' =
      ((doc.marks fill fill' base).map realLengthOf).foldl (generateStep buffer) state) :
    state'.i ≤ base + doc.size fill ∧
      state'.listOfBytes =
        state.listOfBytes ++ (Piece.cut (state.upTo buffer base) (doc.pieces fill')).1 ∧
      state'.upTo buffer (base + doc.size fill) =
        (Piece.cut (state.upTo buffer base) (doc.pieces fill')).2 := by
  induction doc generalizing base pre post state state' with
  | nil =>
      subst hstate
      exact ⟨hi, by simp [Document.pieces, Piece.cut], rfl⟩
  | raw bytes rest ih =>
      have hnext := upTo_append buffer state pre bytes (rest.render fill ++ post)
        (by simp [hbuffer, Document.render]) (hbase ▸ hi)
      have := ih (base + bytes.length) (pre ++ bytes) post state
        (by simp [hbuffer, Document.render]) (by simp [hbase]) (by omega) state' hstate
      rw [hbase, hnext, ← hbase] at this
      rw [Nat.add_assoc, ← Document.size_raw] at this
      exact this
  | sub tag body rest ihBody ihRest =>
      have hsize : (body.render fill).length = body.size fill := rfl
      have hd : base + tag.length + Document.delimitedSize (body.size fill) =
          base + tag.length + width (body.size fill) + body.size fill := by
        simp [Document.delimitedSize, width, Nat.add_assoc]
      have hpre : base + tag.length + width (body.size fill) + body.size fill =
          (pre ++ (tag ++ delimited (body.render fill))).length := by
        simp [hbase, delimited_length, width, hsize, Nat.add_assoc]
      have htotal : base + (Document.sub tag body rest).size fill =
          base + tag.length + width (body.size fill) + body.size fill + rest.size fill := by
        rw [Document.size_sub, ← hd]
        omega
      rw [htotal]
      by_cases hb : body.holes = []
      · have hsame := size_eq_of_holes_nil fill fill' body hb
        have hrender := Document.render_eq_of_holes_nil fill fill' body hb
        have hnext := upTo_append buffer state pre (tag ++ delimited (body.render fill))
          (rest.render fill ++ post) (by simp [hbuffer, Document.render]) (hbase ▸ hi)
        rw [← List.length_append, ← hpre, ← hbase] at hnext
        simp only [Document.marks, if_pos hb, hd] at hstate
        have := ihRest _ (pre ++ (tag ++ delimited (body.render fill))) post state
          (by simp [hbuffer, Document.render]) hpre (by omega) state' hstate
        rw [hnext] at this
        simp only [Document.pieces, Piece.cut, List.cons_append, Piece.cut_append,
          Document.cut_of_holes_nil fill' body hb, List.nil_append, ← hsame, ← hrender]
        simpa only [delimited, hsize, List.append_assoc] using this
      · have hnext := upTo_append buffer state pre tag
          (delimited (body.render fill) ++ rest.render fill ++ post)
          (by simp [hbuffer, Document.render]) (hbase ▸ hi)
        rw [← hbase] at hnext
        simp only [Document.marks, if_neg hb, hd, List.cons_append, List.map_cons, List.map_append,
          List.foldl_cons, List.foldl_append] at hstate
        -- the state after the field's own length
        generalize hone : generateStep buffer state (realLengthOf ⟨base + tag.length,
          body.size fill, body.size fill', false⟩) = one at hstate
        have hupto : one.upTo buffer (base + tag.length + width (body.size fill)) =
            state.upTo buffer base ++ tag ++ Varint.encode (body.size fill') := by
          rw [← hone, ← hnext]
          exact upTo_self buffer _
        have hlist : one.listOfBytes = state.listOfBytes := by rw [← hone]; rfl
        generalize htwo : List.foldl _ one _ = two at hstate
        obtain ⟨hi2, hlist2, hupto2⟩ := ihBody (base + tag.length + width (body.size fill))
          (pre ++ (tag ++ Varint.encode (body.size fill))) (rest.render fill ++ post) one
          (by simp [hbuffer, Document.render, delimited, hsize])
          (by simp [hbase, width, Nat.add_assoc]) (by rw [← hone]; exact Nat.le_refl _) two
          htwo.symm
        obtain ⟨hi3, hlist3, hupto3⟩ := ihRest _ (pre ++ (tag ++ delimited (body.render fill)))
          post two (by simp [hbuffer, Document.render]) hpre hi2 state' hstate
        refine ⟨hi3, ?_, ?_⟩
        · rw [hlist3, hlist2, hlist, hupto2, hupto]
          simp only [Document.pieces, Piece.cut, List.cons_append, Piece.cut_append,
            List.append_assoc]
        · rw [hupto3, hupto2, hupto]
          simp only [Document.pieces, Piece.cut, List.cons_append, Piece.cut_append]
  | hole tag j rest ih =>
      have hd : base + tag.length + Document.delimitedSize (fill j).length =
          base + tag.length + width (fill j).length + (fill j).length := by
        simp [Document.delimitedSize, width, Nat.add_assoc]
      have hpre : base + tag.length + width (fill j).length + (fill j).length =
          (pre ++ (tag ++ delimited (fill j))).length := by
        simp [hbase, delimited_length, width, Nat.add_assoc]
      have htotal : base + (Document.hole tag j rest).size fill =
          base + tag.length + width (fill j).length + (fill j).length + rest.size fill := by
        rw [Document.size_hole, ← hd]
        omega
      have hnext := upTo_append buffer state pre tag (delimited (fill j) ++ rest.render fill ++ post)
        (by simp [hbuffer, Document.render]) (hbase ▸ hi)
      rw [← hbase] at hnext
      simp only [Document.marks, hd, List.map_cons, List.foldl_cons] at hstate
      generalize hone : generateStep buffer state (realLengthOf ⟨base + tag.length,
        (fill j).length, (fill' j).length, true⟩) = one at hstate
      have hupto : one.upTo buffer
          (base + tag.length + width (fill j).length + (fill j).length) = [] := by
        rw [← hone]
        exact upTo_self buffer _
      have hlist : one.listOfBytes = state.listOfBytes ++
          [state.upTo buffer base ++ tag ++ Varint.encode (fill' j).length] := by
        rw [← hone, ← hnext]
        rfl
      obtain ⟨hi2, hlist2, hupto2⟩ := ih _ (pre ++ (tag ++ delimited (fill j))) post one
        (by simp [hbuffer, Document.render]) hpre (by rw [← hone]; exact Nat.le_refl _) state'
        hstate
      rw [htotal]
      refine ⟨hi2, ?_, ?_⟩
      · rw [hlist2, hlist, hupto]
        simp only [Document.pieces, Piece.cut, List.append_assoc, List.singleton_append]
      · rw [hupto2, hupto]
        simp only [Document.pieces, Piece.cut]

-- A pointer's length is the last one, and behind it a new part begins.
theorem newBuff_eq_nil (lengths : List (Nat × RealLength)) (state : Generated)
    (hstate : state.newBuff = []) (hlast : ∀ entry ∈ lengths.getLast?, entry.2.2.2 = true) :
    (lengths.foldl (generateStep buffer) state).newBuff = [] := by
  rcases List.eq_nil_or_concat lengths with rfl | ⟨front, entry, rfl⟩
  · exact hstate
  · have := hlast entry (by simp)
    obtain ⟨key, realLength, length, leaf⟩ := entry
    simp only at this
    simp [generateStep, this]

theorem generateBuffer_cut (doc : Document ι) :
    generateBuffer (doc.render fill) ((doc.marks fill fill' 0).map realLengthOf) =
      (Piece.cut [] (doc.pieces fill')).1 ++ [(Piece.cut [] (doc.pieces fill')).2] := by
  obtain ⟨hi, hlist, hupto⟩ := foldl_generateStep fill fill' (doc.render fill) doc 0 [] [] {}
    (by simp) rfl (Nat.le_refl _) _ rfl
  have hnil := newBuff_eq_nil (doc.render fill) ((doc.marks fill fill' 0).map realLengthOf) {} rfl
    (by
      intro entry he
      rw [List.getLast?_map, Option.mem_def, Option.map_eq_some_iff] at he
      obtain ⟨mark, hm, rfl⟩ := he
      exact Document.marks_getLast fill fill' 0 doc mark hm)
  rw [Generated.upTo, hnil, List.nil_append, List.take_of_length_le] at hupto
  · rw [generateBuffer, hlist, hupto]
    rfl
  · rw [List.length_drop, Document.size]
    omega

end Generate

section Real

variable (registry : Registry) (parse : ParseBlock) (pointer? : Bytes → Option BlockId)
  (content : BlockId → Bytes)

-- A pointer as the encoding holds it, and the block it stands for.
abbrev asPointer : BlockId × Bytes → Bytes := Prod.snd

abbrev asBlock (pointer : BlockId × Bytes) : Bytes := content pointer.1

-- The lengths that compute_real_lengths has found are looked up by the position of a
-- field: those between two positions are those of the fields there.
def Covers (realLengths : Dict Nat RealLength) (marks : List Mark) (first next : Nat) : Prop :=
  ∀ p, first ≤ p → p < next → realLengths.lookup p = (marks.map realLengthOf).lookup p

theorem lookup_marks_eq_none {ι : Type} (fill fill' : ι → Bytes) (base : Nat) (doc : Document ι)
    (p : Nat) (h : p < base ∨ base + doc.size fill ≤ p) :
    ((doc.marks fill fill' base).map realLengthOf).lookup p = none := by
  refine Dict.lookup_eq_none _ p ?_
  rw [List.map_map]
  intro hm
  obtain ⟨mark, hmark, rfl⟩ := List.mem_map.mp hm
  have := Document.marks_bounds fill fill' base doc mark hmark
  simp only [Function.comp_apply, realLengthOf] at h
  omega

theorem Covers.append {realLengths : Dict Nat RealLength} (left right : List Mark)
    {first middle next : Nat} (h : Covers realLengths (left ++ right) first next)
    (hleft : ∀ p, middle ≤ p → (left.map realLengthOf).lookup p = none)
    (hright : ∀ p, p < middle → (right.map realLengthOf).lookup p = none)
    (hfirst : first ≤ middle) (hnext : middle ≤ next) :
    Covers realLengths left first middle ∧ Covers realLengths right middle next := by
  constructor
  · intro p hp hp'
    rw [h p hp (hp'.trans_le hnext), List.map_append, List.lookup_append, hright p hp',
      Option.or_none]
  · intro p hp hp'
    rw [h p (hfirst.trans hp) hp', List.map_append, List.lookup_append, hleft p hp,
      Option.none_or]

-- Wherever it starts and whatever it has found by then, the walk over the expanded encoding finds the
-- pointers of the message, in their order, with the positions that they have there.
def Searches (realLengths : Dict Nat RealLength) (message : Message) : Prop :=
  ∀ (pointers : List Nat) (position realPosition : Nat) (container : List (BlockId × List Nat)),
    Covers realLengths ((message.document pointer?).marks asPointer (asBlock content) position)
      position (position + message.byteSize) →
    (∀ pointer ∈ (message.document pointer?).holes,
      (parse pointer.2).map Prod.snd = some pointer.2.length) →
    (∀ pointer ∈ (message.document pointer?).holes,
      getBlockLength registry pointer.1 = .ok (content pointer.1).length) →
    searchRealLoop registry parse pointer? realLengths message pointers [] position realPosition
        container =
      .ok (container ++ ((message.document pointer?).chains (asBlock content) realPosition).map
        fun entry => (entry.1.1, pointers ++ entry.2))

section Fields

variable {registry parse pointer? content} {realLengths : Dict Nat RealLength}

theorem marks_below {ι : Type} (fill fill' : ι → Bytes) (doc : Document ι) (base : Nat) :
    ∀ p, p < base → ((doc.marks fill fill' base).map realLengthOf).lookup p = none :=
  fun p hp => lookup_marks_eq_none fill fill' base doc p (Or.inl hp)

theorem message_byteSize {number : Nat} (hnumber : number ≤ 15) (value rest : Message)
    (position : Nat) : position + (Message.message number value rest).byteSize =
      position + 1 + width value.byteSize + value.byteSize + rest.byteSize := by
  have ht := Message.tag_length hnumber
  simp [Message.byteSize, Message.serializeToString, ht, delimited_length, width]
  omega

-- Without a pointer inside it a field moves both positions by its size.
theorem searches_pointless {number : Nat} {value rest : Message}
    (hplain : (Message.message number value rest).Plain)
    (hb : (value.document pointer?).holes = [])
    (hrest : Searches registry parse pointer? content realLengths rest) :
    Searches registry parse pointer? content realLengths (.message number value rest) := by
  intro pointers position realPosition container hcovers hparse hblocks
  have ht := Message.tag_length hplain.1
  have hw : 0 < width value.byteSize := Varint.encode_length_pos _
  have hsize := Message.document_size pointer? value
  have hd : ∀ base, base + (tag number 2).length + Document.delimitedSize value.byteSize =
      base + 1 + width value.byteSize + value.byteSize := by
    intro base
    simp [ht, Document.delimitedSize, width, Nat.add_assoc]
  rw [message_byteSize hplain.1] at hcovers
  simp only [Message.document, Document.marks, hsize, hd, if_pos hb] at hcovers
  obtain ⟨hnone, hcoversRest⟩ := Covers.append [] _ hcovers (fun _ _ => rfl)
    (marks_below _ _ _ _) (by omega) (by omega)
  have hlookup : realLengths.lookup (position + 1) = none :=
    (hnone (position + 1) (by omega) (by omega)).trans rfl
  have hreal : realPosition + (tag number 2).length +
      Document.delimitedSize ((value.document pointer?).size (asBlock content)) =
      realPosition + 1 + width value.byteSize + value.byteSize := by
    rw [← size_eq_of_holes_nil asPointer (asBlock content) _ hb, hsize, hd]
  have hnil : (value.document pointer?).chains (asBlock content)
      (realPosition + (tag number 2).length + (Varint.encode
        ((value.document pointer?).size (asBlock content))).length) = [] := by
    rw [← List.map_eq_nil_iff (f := Prod.fst), Document.chains_holes, hb]
  rw [searchRealLoop, hlookup]
  simp only
  rw [hrest pointers _ _ container hcoversRest
      (fun pointer hm => hparse pointer (List.mem_append_right _ hm))
      (fun pointer hm => hblocks pointer (List.mem_append_right _ hm)),
    Message.document, Document.chains_sub, hnil, hreal, List.map_nil, List.nil_append]

-- With one inside it is entered, behind its length in both encodings.
theorem searches_message {number : Nat} {value rest : Message}
    (hplain : (Message.message number value rest).Plain)
    (hb : (value.document pointer?).holes ≠ [])
    (hvalue : Searches registry parse pointer? content realLengths value)
    (hrest : Searches registry parse pointer? content realLengths rest) :
    Searches registry parse pointer? content realLengths (.message number value rest) := by
  intro pointers position realPosition container hcovers hparse hblocks
  have ht := Message.tag_length hplain.1
  have hw : 0 < width value.byteSize := Varint.encode_length_pos _
  have hsize := Message.document_size pointer? value
  have hd : position + (tag number 2).length + Document.delimitedSize value.byteSize =
      position + 1 + width value.byteSize + value.byteSize := by
    simp [ht, Document.delimitedSize, width, Nat.add_assoc]
  rw [message_byteSize hplain.1] at hcovers
  simp only [Message.document, Document.marks, hsize, hd, if_neg hb, List.cons_append] at hcovers
  have hlookup : realLengths.lookup (position + 1) =
      some ((value.document pointer?).size (asBlock content), value.byteSize, false) := by
    rw [hcovers (position + 1) (by omega) (by omega), List.map_cons, realLengthOf]
    simp [ht]
  have hinside : ∀ p, position + 1 + width value.byteSize ≤ p →
      p < position + 1 + width value.byteSize + value.byteSize + rest.byteSize →
      realLengths.lookup p = (((value.document pointer?).marks asPointer (asBlock content)
        (position + 1 + width value.byteSize) ++ (rest.document pointer?).marks asPointer
        (asBlock content) (position + 1 + width value.byteSize + value.byteSize)).map
          realLengthOf).lookup p := by
    intro p hp hp'
    rw [hcovers p (by omega) hp', List.map_cons, realLengthOf, List.lookup_cons,
      beq_false_of_ne (by simp only [ht]; omega)]
    simp only [ht, width]
  obtain ⟨hcoversValue, hcoversRest⟩ := Covers.append _ _ hinside
    (fun p hp => lookup_marks_eq_none _ _ _ _ p (Or.inr (by rw [hsize]; exact hp)))
    (marks_below _ _ _ _) (by omega) (by omega)
  rw [searchRealLoop, hlookup]
  simp only
  rw [hplain.2.1.unknownFields, hvalue _ _ _ container hcoversValue
      (fun pointer hm => hparse pointer (List.mem_append_left _ hm))
      (fun pointer hm => hblocks pointer (List.mem_append_left _ hm)), ok_bind,
    hrest pointers _ _ _ hcoversRest
      (fun pointer hm => hparse pointer (List.mem_append_right _ hm))
      (fun pointer hm => hblocks pointer (List.mem_append_right _ hm)), Message.document,
    Document.chains_sub, List.map_append, List.map_map, List.append_assoc]
  simp only [ht, Document.delimitedSize, width, Function.comp_def, List.append_assoc,
    List.singleton_append, Nat.add_assoc]

-- Bytes of the encoding that are no pointer are passed over in both.
theorem searches_raw {encoding : Bytes} {message rest : Message}
    (hdoc : message.document pointer? = .raw encoding (rest.document pointer?))
    (hsize : message.byteSize = encoding.length + rest.byteSize)
    (hstep : ∀ pointers position realPosition container,
      searchRealLoop registry parse pointer? realLengths message pointers [] position realPosition
          container =
        searchRealLoop registry parse pointer? realLengths rest pointers []
          (position + encoding.length) (realPosition + encoding.length) container)
    (hrest : Searches registry parse pointer? content realLengths rest) :
    Searches registry parse pointer? content realLengths message := by
  intro pointers position realPosition container hcovers hparse hblocks
  rw [hdoc] at hcovers hparse hblocks ⊢
  rw [hsize, ← Nat.add_assoc, Document.marks] at hcovers
  obtain ⟨-, hcoversRest⟩ := Covers.append [] _ hcovers (fun _ _ => rfl) (marks_below _ _ _ _)
    (by omega) (by omega)
  rw [hstep, hrest pointers _ _ container hcoversRest hparse hblocks, Document.chains_raw]

-- A pointer is found where it stands in the expanded encoding, with the block in its place.
theorem searches_pointer {number : Nat} {value : Bytes} {rest : Message} {id : BlockId}
    (hplain : (Message.bytes number value rest).Plain) (hpointer : pointer? value = some id)
    (hrest : Searches registry parse pointer? content realLengths rest) :
    Searches registry parse pointer? content realLengths (.bytes number value rest) := by
  intro pointers position realPosition container hcovers hparse hblocks
  have ht := Message.tag_length hplain.1
  have hw : 0 < width value.length := Varint.encode_length_pos _
  have htotal : position + (Message.bytes number value rest).byteSize =
      position + 1 + width value.length + value.length + rest.byteSize := by
    simp [Message.byteSize, Message.serializeToString, ht, delimited_length, width]
    omega
  have hdoc : (Message.bytes number value rest).document pointer? =
      .hole (tag number 2) (id, value) (rest.document pointer?) := by
    simp only [Message.document, hpointer]
  have hd : position + (tag number 2).length + Document.delimitedSize value.length =
      position + 1 + width value.length + value.length := by
    simp [ht, Document.delimitedSize, width, Nat.add_assoc]
  rw [htotal] at hcovers
  rw [hdoc] at hcovers hparse hblocks ⊢
  simp only [Document.marks, hd] at hcovers
  have hlookup : realLengths.lookup (position + 1) =
      some ((content id).length, value.length, true) := by
    rw [hcovers (position + 1) (by omega) (by omega), List.map_cons, realLengthOf]
    simp [ht]
  obtain ⟨-, hcoversRest⟩ := Covers.append [_] _ hcovers
    (fun p hp => by
      have : p ≠ position + (tag number 2).length := by omega
      simp [realLengthOf, List.lookup_cons, beq_false_of_ne this]) (marks_below _ _ _ _)
    (by omega) (by omega)
  have hblock := hblocks (id, value) (List.mem_cons_self ..)
  have hsize := hparse (id, value) (List.mem_cons_self ..)
  simp only at hblock hsize
  rw [searchRealLoop]
  simp only [hpointer, hblock, ok_bind, hlookup, hsize, Option.getD_some, ne_eq, not_true_eq_false,
    if_false]
  rw [hrest pointers _ _ _ hcoversRest
    (fun pointer hm => hparse pointer (List.mem_cons_of_mem _ hm))
    (fun pointer hm => hblocks pointer (List.mem_cons_of_mem _ hm)),
    Document.chains_hole, List.map_cons, List.append_assoc]
  simp only [ht, Document.delimitedSize, width, List.singleton_append, Nat.add_assoc]

theorem searches_bytes {number : Nat} {value : Bytes} {rest : Message}
    (hplain : (Message.bytes number value rest).Plain) (hpointer : pointer? value = none)
    (hrest : Searches registry parse pointer? content realLengths rest) :
    Searches registry parse pointer? content realLengths (.bytes number value rest) := by
  have ht := Message.tag_length hplain.1
  have hdoc : (Message.bytes number value rest).document pointer? =
      .raw (tag number 2 ++ delimited value) (rest.document pointer?) := by
    simp only [Message.document, hpointer]
  refine searches_raw hdoc ?_ (fun _ _ _ _ => ?_) hrest
  · simp only [Message.byteSize, Message.serializeToString, List.length_append, Nat.add_assoc]
  · rw [searchRealLoop]
    simp only [hpointer, List.length_append, ht, delimited_length, width, Nat.add_assoc]

theorem searches_string {number : Nat} {value : List Char} {rest : Message}
    (hplain : (Message.string number value rest).Plain)
    (hrest : Searches registry parse pointer? content realLengths rest) :
    Searches registry parse pointer? content realLengths (.string number value rest) := by
  have ht := Message.tag_length hplain.1
  have hu := Message.utf8_length hplain.2.1
  refine searches_raw rfl ?_ (fun _ _ _ _ => ?_) hrest
  · simp only [Message.byteSize, Message.serializeToString, List.length_append, Nat.add_assoc]
  · rw [searchRealLoop]
    simp only [List.length_append, ht, hu, delimited_length, width, Nat.add_assoc]

theorem searches_other (encoding : Bytes) {rest : Message}
    (hrest : Searches registry parse pointer? content realLengths rest) :
    Searches registry parse pointer? content realLengths (.other encoding rest) :=
  searches_raw rfl (by simp [Message.byteSize, Message.serializeToString]) (fun _ _ _ _ => rfl) hrest

end Fields

-- Both walks come to the same pointers; this one counts in the expanded encoding too.
theorem searchRealLoop_plain (message : Message) (hplain : message.Plain)
    (pointers : List Nat) (position realPosition : Nat) (container : List (BlockId × List Nat))
    (realLengths : Dict Nat RealLength)
    (hcovers : Covers realLengths ((message.document pointer?).marks asPointer
      (asBlock content) position) position (position + message.byteSize))
    (hparse : ∀ pointer ∈ (message.document pointer?).holes,
      ((parse pointer.2).map Prod.snd) = some pointer.2.length)
    (hblocks : ∀ pointer ∈ (message.document pointer?).holes,
      getBlockLength registry pointer.1 = .ok (content pointer.1).length) :
    searchRealLoop registry parse pointer? realLengths message pointers [] position realPosition
        container =
      .ok (container ++ ((message.document pointer?).chains (asBlock content) realPosition).map
        fun entry => (entry.1.1, pointers ++ entry.2)) := by
  suffices hsearches : Searches registry parse pointer? content realLengths message from
    hsearches pointers position realPosition container hcovers hparse hblocks
  clear hcovers hparse hblocks
  induction message with
  | unknown fields =>
      intro pointers position realPosition container _ _ _
      simp [searchRealLoop, Message.document, Document.chains, Document.spine]
  | group number value rest _ _ => exact hplain.elim
  | message number value rest ihValue ihRest =>
      by_cases hb : (value.document pointer?).holes = []
      · exact searches_pointless hplain hb (ihRest hplain.2.2)
      · exact searches_message hplain hb (ihValue hplain.2.1) (ihRest hplain.2.2)
  | bytes number value rest ih =>
      cases hpointer : pointer? value with
      | none => exact searches_bytes hplain hpointer (ih hplain.2)
      | some id => exact searches_pointer hplain hpointer (ih hplain.2)
  | string number value rest ih => exact searches_string hplain (ih hplain.2.2)
  | other encoding rest ih => exact searches_other encoding (ih hplain)

end Real

end BeeRpc
