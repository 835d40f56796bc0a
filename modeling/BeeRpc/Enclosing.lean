import BeeRpc.Split
import BeeRpc.Wire.Relength

namespace BeeRpc

open Wire Naming

section Sizes

variable {δ φ : Type} (shouldSplit : φ → Nat → Bool) (pointer : Bytes → Bytes)

-- What compute_wbp_lengths takes the fields around a message to lose by it.
def losses : Fields φ → Int
  | .nil => 0
  | .plain _ _ rest => losses rest
  | .payload _ _ content field rest =>
      (if Fields.taken shouldSplit field content.length then
        lost content.length (pointer content).length else 0) + losses rest
  | .message _ _ body rest =>
      (if body.divided shouldSplit then lost body.size (body.size - losses body).toNat else 0) +
        losses rest

-- What it lets a message around a pointer state.
def statedSize (fields : Fields φ) : Nat := (fields.size - losses shouldSplit pointer fields).toNat

-- The bytes that the lengths around the pointers take beyond the shortest spelling, those inside a
-- message apart.
def slack : Fields φ → Nat
  | .nil => 0
  | .plain _ _ rest => slack rest
  | .payload _ length content field rest =>
      (if Fields.taken shouldSplit field content.length then
        length.length - (Varint.encode content.length).length else 0) + slack rest
  | .message _ length body rest =>
      (if body.divided shouldSplit then length.length - (Varint.encode body.size).length else 0) +
        slack rest

variable {shouldSplit} {types : Descriptors δ φ} {descriptor : Option δ}

attribute [local simp] losses statedSize slack Fields.Tight

theorem lost_le (old new : Nat) : lost old new ≤ old + (Varint.encode old).length := by
  unfold lost
  omega

-- No field loses more than it has.
theorem losses_le {fields : Fields φ} (h : fields.Encodes types descriptor) :
    losses shouldSplit pointer fields ≤ fields.size := by
  induction fields generalizing descriptor with
  | nil => exact Int.le_refl _
  | plain tag value rest ih =>
      have hrest := ih h.2
      simp only [losses, Fields.size, Fields.render, List.length_append] at hrest ⊢
      omega
  | payload tag length content field rest ih =>
      obtain ⟨-, -, hlength, hrest⟩ := h
      have hrest := ih hrest
      have hshort := hlength.states.shortest.1
      have hlost := lost_le content.length (pointer content).length
      simp only [losses, Fields.size, Fields.render, List.length_append] at hrest ⊢
      split <;> omega
  | message tag length body rest _ ihRest =>
      obtain ⟨-, hlength, hrest⟩ := h
      have hrest := ihRest hrest
      have hshort := hlength.states.shortest.1
      have hlost := lost_le body.size (body.size - losses shouldSplit pointer body).toNat
      simp only [losses, Fields.size, Fields.render, List.length_append] at hrest hshort hlost ⊢
      split <;> omega

theorem statedSize_eq {fields : Fields φ} (h : fields.Encodes types descriptor) :
    (statedSize shouldSplit pointer fields : Int) =
      fields.size - losses shouldSplit pointer fields := by
  have hle : losses shouldSplit pointer fields ≤ fields.size := losses_le pointer h
  unfold statedSize
  omega

-- The bytes that are written are as many as are taken to be left, less those that the lengths took
-- beyond the shortest spelling.
theorem written_length {fields : Fields φ} (h : fields.Encodes types descriptor)
    (hexact : fields.Exact shouldSplit pointer (statedSize shouldSplit pointer)) :
    ((fields.written shouldSplit pointer (statedSize shouldSplit pointer)).length : Int) =
      fields.size - losses shouldSplit pointer fields - slack shouldSplit fields := by
  induction fields generalizing descriptor with
  | nil => rfl
  | plain tag value rest ih =>
      have hrest := ih h.2 hexact
      simp only [Fields.written, losses, slack, Fields.size, Fields.render,
        List.length_append] at hrest ⊢
      omega
  | payload tag length content field rest ih =>
      obtain ⟨-, -, hlength, hencodes⟩ := h
      have hrest := ih hencodes hexact
      have hshort := hlength.states.shortest.1
      simp only [Fields.written, losses, slack, Fields.size, Fields.render,
        List.length_append] at hrest ⊢
      split
      · rw [delimited_length]
        unfold lost
        omega
      · rw [List.length_append]
        omega
  | message tag length body rest ihBody ihRest =>
      obtain ⟨⟨field, inner, -, -, hbody⟩, hlength, hencodes⟩ := h
      obtain ⟨hstated, hexactBody, hexactRest⟩ := hexact
      have hrest := ihRest hencodes hexactRest
      have hshort := hlength.states.shortest.1
      simp only [Fields.written, losses, slack, Fields.size, Fields.render,
        List.length_append] at hrest hshort ⊢
      cases hdivided : body.divided shouldSplit with
      | true =>
          have hsize : statedSize shouldSplit pointer body =
              (body.render.length - losses shouldSplit pointer body).toNat := rfl
          simp only [if_true, ← hstated hdivided, hsize]
          unfold lost
          omega
      | false =>
          rw [Fields.written_of_not_divided hdivided]
          simp only [Bool.false_eq_true, if_false]
          omega

theorem slack_eq_zero_of_not_divided {fields : Fields φ} (h : fields.divided shouldSplit = false) :
    fields.Tight shouldSplit true ∧ slack shouldSplit fields = 0 := by
  induction fields with
  | nil => exact ⟨trivial, rfl⟩
  | plain tag value rest ih => exact ih h
  | payload tag length content field rest ih =>
      obtain ⟨htaken, hrest⟩ := Bool.or_eq_false_iff.mp h
      refine ⟨⟨fun _ h => absurd (htaken.symm.trans h) Bool.false_ne_true, (ih hrest).1⟩, ?_⟩
      simp [htaken, (ih hrest).2]
  | message tag length body rest _ ihRest =>
      obtain ⟨hbody, hrest⟩ := Bool.or_eq_false_iff.mp h
      refine ⟨⟨fun h => absurd (hbody.symm.trans h) Bool.false_ne_true, (ihRest hrest).1⟩, ?_⟩
      simp [hbody, (ihRest hrest).2]

-- Inside a message the outermost lengths have to be tight too.
theorem tight_inside_iff {fields : Fields φ} (h : fields.Encodes types descriptor) :
    fields.Tight shouldSplit true ↔
      fields.Tight shouldSplit false ∧ slack shouldSplit fields = 0 := by
  induction fields generalizing descriptor with
  | nil => exact ⟨fun _ => ⟨trivial, rfl⟩, fun _ => trivial⟩
  | plain tag value rest ih => exact ih h.2
  | payload tag length content field rest ih =>
      obtain ⟨-, -, hlength, hrest⟩ := h
      have hshort := hlength.states.shortest
      simp only [Fields.Tight, slack, ih hrest]
      cases htaken : Fields.taken shouldSplit field content.length with
      | false => simp
      | true =>
          simp only [if_true, forall_const, Bool.false_eq_true, false_imp_iff, true_and]
          constructor
          · rintro ⟨rfl, hfalse, hzero⟩
            exact ⟨hfalse, by omega⟩
          · rintro ⟨hfalse, hzero⟩
            exact ⟨hshort.2 (by omega), hfalse, by omega⟩
  | message tag length body rest _ ihRest =>
      obtain ⟨-, hlength, hrest⟩ := h
      have hshort := hlength.states.shortest
      simp only [Fields.Tight, slack, ihRest hrest]
      cases hdivided : body.divided shouldSplit with
      | false => simp
      | true =>
          simp only [if_true, forall_const, Bool.false_eq_true, false_imp_iff, true_and]
          constructor
          · rintro ⟨⟨rfl, hbody⟩, hfalse, hzero⟩
            exact ⟨⟨hbody, hfalse⟩, by omega⟩
          · rintro ⟨⟨hbody, hfalse⟩, hzero⟩
            exact ⟨⟨hshort.2 (by omega), hbody⟩, hfalse, by omega⟩

-- What is stated of the messages is right where the lengths inside them are tight.
theorem exact_iff_tight {fields : Fields φ} (h : fields.Encodes types descriptor) :
    fields.Exact shouldSplit pointer (statedSize shouldSplit pointer) ↔
      fields.Tight shouldSplit false := by
  induction fields generalizing descriptor with
  | nil => exact Iff.rfl
  | plain tag value rest ih => exact ih h.2
  | payload tag length content field rest ih =>
      simp only [Fields.Exact, Fields.Tight, Bool.false_eq_true, false_imp_iff, true_and]
      exact ih h.2.2.2
  | message tag length body rest ihBody ihRest =>
      obtain ⟨⟨field, inner, -, -, hbody⟩, -, hrest⟩ := h
      simp only [Fields.Exact, Fields.Tight, Bool.false_eq_true, false_imp_iff, true_and,
        ihBody hbody, ihRest hrest]
      cases hdivided : body.divided shouldSplit with
      | false =>
          have htight := (slack_eq_zero_of_not_divided hdivided).1
          have hloose := ((tight_inside_iff hbody).mp htight).1
          simp [hloose]
      | true =>
          simp only [forall_const, ← and_assoc, and_congr_left_iff]
          intro _
          rw [tight_inside_iff hbody, and_comm, and_congr_right_iff]
          intro hloose
          have hwritten := written_length pointer hbody ((ihBody hbody).mpr hloose)
          have hstated : (statedSize shouldSplit pointer body : Int) =
              body.size - losses shouldSplit pointer body := statedSize_eq pointer hbody
          omega

end Sizes

section Collect

variable {δ φ : Type} (shouldSplit : φ → Nat → Bool) (pointer : Bytes → Bytes)

-- The entries that compute_wbp_lengths makes for the fields of a block.
def pointerEntries (base : Nat) : Fields φ → List WbpLength
  | .nil => []
  | .plain tag value rest => pointerEntries (base + tag.length + value.length) rest
  | .payload tag length content field rest =>
      let old := content.length
      let new := (pointer content).length
      (if Fields.taken shouldSplit field content.length then
          [(base + tag.length, (new : Int), lost old new)] else []) ++
        pointerEntries (base + tag.length + length.length + content.length) rest
  | .message tag length body rest =>
      let new := statedSize shouldSplit pointer body
      (if body.divided shouldSplit then
          (pointerEntries (base + tag.length + length.length) body).map
              (fun entry => (entry.1, entry.2.1, 0)) ++
            [(base + tag.length, (new : Int), lost body.size new)] else []) ++
        pointerEntries (base + tag.length + length.length + body.size) rest

-- What the length computations read about these fields.
def ReadableFields (env : Enviroment) (registry : Registry) (fileList : List Path)
    (pointerLengths : Dict Nat Nat) (base : Nat) : Fields φ → Prop
  | .nil => True
  | .plain tag value rest =>
      ReadableFields env registry fileList pointerLengths (base + tag.length + value.length) rest
  | .payload tag length content field rest =>
      (Fields.taken shouldSplit field content.length = true →
        getVarintAtPosition registry (base + tag.length) fileList = .ok content.length ∧
        pointerLengths.lookup (base + tag.length) = some (pointer content).length ∧
        registry.expansion (env.hashFactory content) = some content) ∧
      ReadableFields env registry fileList pointerLengths
        (base + tag.length + length.length + content.length) rest
  | .message tag length body rest =>
      (body.divided shouldSplit = true →
        getVarintAtPosition registry (base + tag.length) fileList = .ok body.size) ∧
      ReadableFields env registry fileList pointerLengths (base + tag.length + length.length) body ∧
      ReadableFields env registry fileList pointerLengths
        (base + tag.length + length.length + body.size) rest

variable {shouldSplit} {types : Descriptors δ φ} {descriptor : Option δ}

attribute [local simp] losses pointerEntries

theorem sum_inside (entries : List WbpLength) :
    ((entries.map fun entry => (entry.1, entry.2.1, (0 : Int))).map fun entry => entry.2.2).sum =
      0 := by
  rw [List.map_map]
  exact List.sum_map_zero

theorem pointerEntries_sum (base : Nat) (fields : Fields φ) :
    ((pointerEntries shouldSplit pointer base fields).map fun entry => entry.2.2).sum =
      losses shouldSplit pointer fields := by
  induction fields generalizing base with
  | nil => rfl
  | plain tag value rest ih => exact ih _
  | payload tag length content field rest ih =>
      by_cases htaken : Fields.taken shouldSplit field content.length = true
      · simp [htaken, ih]
      · simp [htaken, ih]
  | message tag length body rest _ ihRest =>
      simp only [pointerEntries, losses, List.map_append, List.sum_append, ihRest]
      split
      · rw [List.map_append, List.sum_append, sum_inside]
        simp only [List.map_cons, List.map_nil, List.sum_cons, List.sum_nil, zero_add, add_zero,
          statedSize]
      · rfl

-- They are those of the lengths that are told apart.
theorem pointerEntries_marks {ι : Type} (name : Bytes → ι) {fill : ι → Bytes} (base : Nat)
    {fields : Fields φ}
    (hfill : ∀ hole ∈ fields.chains shouldSplit base, fill (name hole.1) = hole.1) :
    ((pointerEntries shouldSplit pointer base fields).map fun entry => (entry.1, entry.2.1)).Perm
      ((Slot.marks fill base (fields.slots shouldSplit pointer (statedSize shouldSplit pointer)
        name)).map fun mark => (mark.1, (mark.2 : Int))) := by
  induction fields generalizing base with
  | nil => exact .nil
  | plain tag value rest ih => exact ih _ hfill
  | payload tag length content field rest ih =>
      rw [Fields.chains_payload] at hfill
      have hrest := ih _ fun hole hmem => hfill hole (List.mem_append_right _ hmem)
      by_cases htaken : Fields.taken shouldSplit field content.length = true
      · have hname : fill (name content) = content :=
          hfill (content, [base + tag.length]) (by rw [if_pos htaken]; exact List.mem_cons_self ..)
        simp only [pointerEntries, Fields.slots, if_pos htaken, List.cons_append, List.nil_append,
          Slot.marks, Piece.render, hname, List.map_cons]
        exact hrest.cons _
      · simp only [pointerEntries, Fields.slots, if_neg htaken, List.cons_append, List.nil_append,
          Slot.marks, Piece.render]
        exact hrest
  | message tag length body rest ihBody ihRest =>
      rw [Fields.chains_message] at hfill
      have hfillBody : ∀ hole ∈ body.chains shouldSplit (base + tag.length + length.length),
          fill (name hole.1) = hole.1 := fun hole hmem =>
        hfill (hole.1, (base + tag.length) :: hole.2)
          (List.mem_append_left _ (List.mem_map_of_mem hmem))
      have hbody := ihBody _ hfillBody
      have hrest := ihRest _ fun hole hmem => hfill hole (List.mem_append_right _ hmem)
      have hsize := congrArg List.length (Fields.slots_render shouldSplit pointer
        (statedSize shouldSplit pointer) name hfillBody)
      cases hdivided : body.divided shouldSplit with
      | true =>
          simp only [pointerEntries, Fields.slots, hdivided, if_true, Slot.marks, Piece.render,
            Slot.marks_append, hsize, List.map_append, List.map_cons, List.map_nil, List.map_map,
            List.append_assoc]
          exact (hbody.append (hrest.cons _)).trans List.perm_middle
      | false =>
          simp only [pointerEntries, Fields.slots, hdivided, Bool.false_eq_true, if_false, Slot.marks,
            Piece.render, Slot.marks_append, hsize,
            Fields.slots_marks_of_not_divided shouldSplit pointer _ name fill _ hdivided,
            List.nil_append]
          exact hrest

theorem pointerEntries_nodup {fields : Fields φ} (h : fields.Encodes types descriptor)
    (base : Nat) : ((pointerEntries shouldSplit pointer base fields).map Prod.fst).Nodup := by
  have hname : ∀ hole ∈ fields.chains shouldSplit base, id (id hole.1) = hole.1 := fun _ _ => rfl
  have hmarks := (pointerEntries_marks pointer id base hname).map Prod.fst
  simp only [List.map_map] at hmarks
  refine hmarks.nodup_iff.mpr ?_
  rw [List.nodup_iff_pairwise_ne, List.pairwise_map]
  exact (Slot.marks_strictly_ascending id base (Fields.slots_stated shouldSplit pointer _ id h)).imp
    fun hlt => Nat.ne_of_lt hlt

theorem wbpEntry_of_le {key old : Nat} {pruned : Int} (h : pruned ≤ old) :
    wbpEntry key old pruned =
      .ok (key, ((old - pruned).toNat : Int), lost old (old - pruned).toNat) := by
  have hnew : (((old : Int) - pruned).toNat : Int) = old - pruned := by omega
  rw [wbpEntry, if_neg (Int.not_lt.mpr h)]
  simp only [lost, hnew, Except.ok.injEq, Prod.mk.injEq, true_and]
  omega

-- The recursion over the tree of the chains, in whatever order they come, makes these entries.
theorem collect_pointers {env : Enviroment} {registry : Registry} {fileList : List Path}
    {pointerLengths : Dict Nat Nat} (base : Nat) {fields : Fields φ}
    (h : fields.Encodes types descriptor)
    (hread : ReadableFields shouldSplit pointer env registry fileList pointerLengths base fields)
    {chains : List (BlockId × List Nat)}
    (hperm : chains.Perm ((fields.chains shouldSplit base).map (entryOf env))) :
    ∃ tree, LengthsTree.build .nil chains = .ok tree ∧
      ∃ all, tree.collect (wbpLeaf registry fileList pointerLengths) (wbpNode registry fileList) =
        .ok all ∧ all.flatten.Perm (pointerEntries shouldSplit pointer base fields) := by
  have hne : ∀ {base : Nat} {fields : Fields φ} {descriptor : Option δ},
      fields.Encodes types descriptor → ∀ {chains : List (BlockId × List Nat)},
        chains.Perm ((fields.chains shouldSplit base).map (entryOf env)) →
          ∀ entry ∈ chains, entry.2 ≠ [] := by
    intro base fields descriptor h chains hperm entry hmem
    obtain ⟨hole, hhole, rfl⟩ := List.mem_map.mp (hperm.mem_iff.mp hmem)
    exact (Fields.chains_bounds shouldSplit base h hole hhole).1
  have hbeyond : ∀ {p base : Nat} {fields : Fields φ} {descriptor : Option δ},
      fields.Encodes types descriptor → p < base →
        ∀ entry ∈ (fields.chains shouldSplit base).map (entryOf env), ∀ q ∈ entry.2, p < q := by
    intro p base fields descriptor h hlt entry hmem q hq
    obtain ⟨hole, hhole, rfl⟩ := List.mem_map.mp hmem
    exact hlt.trans_le ((Fields.chains_bounds shouldSplit base h hole hhole).2.2 q hq).1
  induction fields generalizing descriptor base chains with
  | nil =>
      obtain rfl := List.Perm.eq_nil hperm
      exact ⟨.nil, rfl, [], rfl, .nil⟩
  | plain tag value rest ih => exact ih _ h.2 hread hperm
  | payload tag length content field rest ih =>
      have hchains := hne h hperm
      obtain ⟨-, -, hlength, hrest⟩ := h
      obtain ⟨hreadHere, hreadRest⟩ := hread
      rw [Fields.chains_payload] at hperm
      by_cases htaken : Fields.taken shouldSplit field content.length = true
      · obtain ⟨hposition, hpointer, hcontent⟩ := hreadHere htaken
        rw [if_pos htaken, List.map_append] at hperm
        have hpos := hlength.states.length_pos
        obtain ⟨hunder, hbeside⟩ := @LengthsTree.split_key _ chains [(env.hashFactory content, [])] _
          hperm (hbeyond hrest (by omega))
        obtain ⟨others, hothers, more, hmore, hpermMore⟩ := ih _ hrest hreadRest hbeside
        have hkid : LengthsTree.enterAll none (LengthsTree.under (base + tag.length) chains) =
            .ok (some (.inl (env.hashFactory content))) := by
          rw [hunder.eq_singleton]
          rfl
        have hpruned := getPrunedBlockLength_of_expansion hcontent (pointer content).length
        have hleaf : wbpLeaf registry fileList pointerLengths (base + tag.length)
            (env.hashFactory content) = .ok [(base + tag.length, ((pointer content).length : Int),
              lost content.length (pointer content).length)] := by
          simp only [wbpLeaf, hposition, hpointer, ok_bind, hpruned, wbpEntry_eq, pure_ok]
        obtain ⟨tree, htree, all, hall, hpermAll⟩ :=
          LengthsTree.collect_split (wbpLeaf registry fileList pointerLengths)
            (wbpNode registry fileList) hchains hkid hleaf hothers hmore
        refine ⟨tree, htree, all, hall, hpermAll.flatten.trans ?_⟩
        simp only [pointerEntries, if_pos htaken, List.flatten_cons]
        exact hpermMore.append_left _
      · rw [if_neg htaken, List.nil_append] at hperm
        simp only [pointerEntries, if_neg htaken, List.nil_append]
        exact ih _ hrest hreadRest hperm
  | message tag length body rest ihBody ihRest =>
      have hchains := hne h hperm
      obtain ⟨⟨field, inner, -, -, hbody⟩, hlength, hrest⟩ := h
      obtain ⟨hreadHere, hreadBody, hreadRest⟩ := hread
      rw [Fields.chains_message] at hperm
      cases hdivided : body.divided shouldSplit with
      | true =>
          have hposition := hreadHere hdivided
          rw [List.map_append, List.map_map] at hperm
          have hpos := hlength.states.length_pos
          have hinner : ((body.chains shouldSplit (base + tag.length + length.length)).map
              (entryOf env)).map (fun entry => (entry.1, (base + tag.length) :: entry.2)) =
              (body.chains shouldSplit (base + tag.length + length.length)).map
                (entryOf env ∘ fun hole => (hole.1, (base + tag.length) :: hole.2)) :=
            List.map_map
          rw [← hinner] at hperm
          obtain ⟨hunder, hbeside⟩ := LengthsTree.split_key hperm (hbeyond hrest (by omega))
          obtain ⟨inside, hinside, first, hfirst, hpermFirst⟩ := ihBody _ hbody hreadBody hunder
          obtain ⟨others, hothers, more, hmore, hpermMore⟩ := ihRest _ hrest hreadRest hbeside
          have hsome : LengthsTree.under (base + tag.length) chains ≠ [] := by
            intro hnil
            rw [hnil, List.nil_perm, List.map_eq_nil_iff, Fields.chains_eq_nil_iff, hdivided] at hunder
            cases hunder
          have hkid : LengthsTree.enterAll none (LengthsTree.under (base + tag.length) chains) =
              .ok (some (.inr inside)) := by
            rw [LengthsTree.enterAll_none _ hsome (hne hbody hunder), hinside]
            rfl
          have hnodup : (first.flatten.map Prod.fst).Nodup :=
            (hpermFirst.map Prod.fst).nodup_iff.mpr (pointerEntries_nodup pointer hbody _)
          have hsum : (first.flatten.map fun entry => entry.2.2).sum =
              losses shouldSplit pointer body := by
            rw [(hpermFirst.map fun entry => entry.2.2).sum_eq, pointerEntries_sum]
          have hnode : LengthsTree.collectKid (wbpLeaf registry fileList pointerLengths)
              (wbpNode registry fileList) (base + tag.length) (.inr inside) =
              .ok (first.flatten.map (fun entry => (entry.1, entry.2.1, 0)) ++
                [(base + tag.length, (statedSize shouldSplit pointer body : Int),
                  lost body.size (statedSize shouldSplit pointer body))]) := by
            rw [LengthsTree.collectKid, hfirst]
            simp only [wbpNode, hposition, ok_bind, Dict.ofList_of_nodup _ hnodup, hsum,
              wbpEntry_of_le (losses_le pointer hbody), pure_ok, statedSize]
          obtain ⟨tree, htree, all, hall, hpermAll⟩ :=
            LengthsTree.collect_split (wbpLeaf registry fileList pointerLengths)
              (wbpNode registry fileList) hchains hkid hnode hothers hmore
          refine ⟨tree, htree, all, hall, hpermAll.flatten.trans ?_⟩
          simp only [pointerEntries, hdivided, if_true, List.flatten_cons]
          exact ((hpermFirst.map _).append_right _).append hpermMore
      | false =>
          rw [(Fields.chains_eq_nil_iff shouldSplit _ body).mpr hdivided, List.map_nil,
            List.nil_append] at hperm
          simp only [pointerEntries, hdivided, Bool.false_eq_true, if_false, List.nil_append]
          exact ihRest _ hrest hreadRest hperm

-- Behind a tag stands a length, and is read.
theorem length_read {registry : Registry} {fill : BlockId → Bytes} {pieces : List (Piece BlockId)}
    (pre behind : List (Piece BlockId)) {tag raw : Bytes} {base value : Nat}
    (hpieces : pieces = pre ++ .bytes tag :: .bytes raw :: behind) (hraw : Varint.States raw value)
    (hbase : base = (pre.flatMap (Piece.render fill)).length)
    (hholes : ∀ id, .hole id ∈ pieces → registry.expansion id = some (fill id)) :
    getVarintAtPosition registry (base + tag.length) ((Piece.alternate [] pieces).map Path.ofRun) =
      .ok value := by
  have hsplit : pieces = (pre ++ [.bytes tag]) ++ .bytes raw :: behind := by
    rw [hpieces, List.append_assoc]
    rfl
  have hposition : base + tag.length =
      ((pre ++ [Piece.bytes tag]).flatMap (Piece.render fill)).length := by
    simp only [List.flatMap_append, List.flatMap_singleton, Piece.render, List.length_append, hbase]
  rw [hsplit]
  refine getVarintAtPosition_piece registry fill _ behind hraw _ hposition fun id hid => hholes id ?_
  rw [hsplit]
  exact List.mem_append_left _ hid

-- What stands in the file list is read as what it is.
theorem readable_fields {env : Enviroment} {registry : Registry} {pointerLengths : Dict Nat Nat}
    {fill : BlockId → Bytes} {pieces : List (Piece BlockId)} (pre post : List (Piece BlockId))
    (base : Nat) {fields : Fields φ} (h : fields.Encodes types descriptor)
    (hpieces : pieces = pre ++ ((fields.slots shouldSplit pointer
      (statedSize shouldSplit pointer) env.hashFactory).map Slot.before ++ post))
    (hbase : base = (pre.flatMap (Piece.render fill)).length)
    (hholes : ∀ id, .hole id ∈ pieces → registry.expansion id = some (fill id))
    (hfill : ∀ hole ∈ fields.chains shouldSplit base, fill (env.hashFactory hole.1) = hole.1)
    (hpointers : ∀ hole ∈ fields.chains shouldSplit base,
      pointerLengths.lookup (hole.2.getLastD 0) = some (pointer hole.1).length) :
    ReadableFields shouldSplit pointer env registry ((Piece.alternate [] pieces).map Path.ofRun)
      pointerLengths base fields := by
  induction fields generalizing descriptor base pre post with
  | nil => trivial
  | plain tag value rest ih =>
      refine ih (pre ++ [.bytes tag, .bytes value]) post _ h.2 ?_ ?_ hfill hpointers
      · rw [hpieces, List.append_assoc]
        rfl
      · simp only [List.flatMap_append, List.flatMap_cons, List.flatMap_nil, Piece.render,
          List.length_append, List.append_nil, hbase, Nat.add_assoc]
  | payload tag length content field rest ih =>
      obtain ⟨-, -, hlength, hrest⟩ := h
      rw [Fields.chains_payload] at hfill hpointers
      simp only [Fields.slots, List.map_cons, List.map_append, Slot.before] at hpieces
      have hrestFill := fun hole hmem => hfill hole (List.mem_append_right _ hmem)
      have hrestPointers := fun hole hmem => hpointers hole (List.mem_append_right _ hmem)
      by_cases htaken : Fields.taken shouldSplit field content.length = true
      · rw [if_pos htaken] at hfill hpointers hpieces
        have hhere := List.mem_append_left
          (rest.chains shouldSplit (base + tag.length + length.length + content.length))
          (List.mem_cons_self (a := (content, [base + tag.length])) (l := []))
        have hname : fill (env.hashFactory content) = content := hfill _ hhere
        refine ⟨fun _ => ⟨?_, hpointers _ hhere, ?_⟩, ?_⟩
        · exact length_read pre _ hpieces hlength.states hbase hholes
        · rw [hholes, hname]
          rw [hpieces]
          simp [Slot.before]
        · refine ih (pre ++ [.bytes tag, .bytes length, .hole (env.hashFactory content)]) post _
            hrest ?_ ?_ hrestFill hrestPointers
          · rw [hpieces, List.append_assoc]
            rfl
          · simp only [List.flatMap_append, List.flatMap_cons, List.flatMap_nil, Piece.render,
              List.length_append, List.append_nil, hbase, hname, Nat.add_assoc]
      · rw [if_neg htaken] at hpieces
        refine ⟨fun h => absurd h htaken, ?_⟩
        refine ih (pre ++ [.bytes tag, .bytes length, .bytes content]) post _ hrest ?_ ?_ hrestFill
          hrestPointers
        · rw [hpieces, List.append_assoc]
          rfl
        · simp only [List.flatMap_append, List.flatMap_cons, List.flatMap_nil, Piece.render,
            List.length_append, List.append_nil, hbase, Nat.add_assoc]
  | message tag length body rest ihBody ihRest =>
      obtain ⟨⟨field, inner, -, -, hbody⟩, hlength, hrest⟩ := h
      rw [Fields.chains_message] at hfill hpointers
      have hslot : ((if body.divided shouldSplit then
          .length length body.size (statedSize shouldSplit pointer body)
        else .piece (.bytes length) : Slot BlockId)).before = .bytes length := by
        split <;> rfl
      simp only [Fields.slots, List.map_cons, List.map_append, hslot] at hpieces
      simp only [Slot.before] at hpieces
      have hfillBody : ∀ hole ∈ body.chains shouldSplit (base + tag.length + length.length),
          fill (env.hashFactory hole.1) = hole.1 := fun hole hmem =>
        hfill (hole.1, (base + tag.length) :: hole.2)
          (List.mem_append_left _ (List.mem_map_of_mem hmem))
      have hsize := congrArg List.length (Fields.slots_render shouldSplit pointer
        (statedSize shouldSplit pointer) env.hashFactory hfillBody)
      refine ⟨fun _ => ?_, ?_, ?_⟩
      · exact length_read pre _ hpieces hlength.states hbase hholes
      · refine ihBody (pre ++ [.bytes tag, .bytes length]) ((rest.slots shouldSplit pointer
          (statedSize shouldSplit pointer) env.hashFactory).map Slot.before ++ post) _ hbody ?_ ?_
          hfillBody ?_
        · rw [hpieces]
          simp only [List.cons_append, List.nil_append, List.append_assoc]
        · simp only [List.flatMap_append, List.flatMap_cons, List.flatMap_nil, Piece.render,
            List.length_append, List.append_nil, hbase, Nat.add_assoc]
        · intro hole hmem
          have hpointer := hpointers (hole.1, (base + tag.length) :: hole.2)
            (List.mem_append_left _ (List.mem_map_of_mem hmem))
          rwa [Fields.getLastD_cons_of_ne_nil
            (Fields.chains_bounds shouldSplit _ hbody hole hmem).1] at hpointer
      · refine ihRest (pre ++ .bytes tag :: .bytes length :: (body.slots shouldSplit pointer
          (statedSize shouldSplit pointer) env.hashFactory).map Slot.before) post _ hrest ?_ ?_
          (fun hole hmem => hfill hole (List.mem_append_right _ hmem))
          fun hole hmem => hpointers hole (List.mem_append_right _ hmem)
        · rw [hpieces, List.append_assoc]
          simp only [List.cons_append, List.append_assoc]
        · simp only [List.flatMap_append, List.flatMap_cons, Piece.render, List.length_append,
            hsize, hbase, Fields.size, Nat.add_assoc]

end Collect

section Wbp

variable {env : Enviroment} {δ φ : Type} {types : Descriptors δ φ} {shouldSplit : φ → Nat → Bool}
  {descriptor : Option δ}

-- What takes the place of a content.
def contentPointer (env : Enviroment) (omitTypes : Bool) (content : Bytes) : Bytes :=
  blockPointerBytes env (env.hashFactory content) omitTypes

-- The block a content becomes, with the position of its length.
def leafOf (env : Enviroment) (hole : Bytes × List Nat) : BlockId × Nat :=
  (env.hashFactory hole.1, hole.2.getLastD 0)

theorem blocks_weave (index : Nat) (blocks : List (BlockId × List Nat)) (directory : Directory) :
    Directory.blocks { directory with json := weave index blocks } = blocks := by
  induction blocks generalizing index with
  | nil => rfl
  | cons block blocks ih =>
      have hrest := ih (index + 1)
      unfold Directory.blocks at hrest ⊢
      simpa [weave] using hrest

theorem runs_rewritten {directory : Directory} {fields : Fields φ}
    (hjson : directory.json = weave 1 ((fields.splits shouldSplit).map (entryOf env)))
    (hparts : directory.parts =
      numbered 1 ((Piece.cut [] (fields.pieces shouldSplit 0 [])).1 ++
        [(Piece.cut [] (fields.pieces shouldSplit 0 [])).2])) :
    directory.runs directory.json = some (Piece.alternate []
      ((fields.pieces shouldSplit 0 []).map (Piece.map fun hole => env.hashFactory hole.1))) := by
  rw [hjson]
  refine runs_weave (fields.pieces shouldSplit 0 []) [] 1 fun k content h => ?_
  rw [Directory.part, hparts]
  exact lookup_numbered h

-- What generate_wbp_file loads of the directory that was written.
theorem load_rewritten {directory : Directory} {fields : Fields φ}
    (hencodes : fields.Encodes types descriptor)
    (hjson : directory.json = weave 1 ((fields.splits shouldSplit).map (entryOf env)))
    (hparts : directory.parts =
      numbered 1 ((Piece.cut [] (fields.pieces shouldSplit 0 [])).1 ++
        [(Piece.cut [] (fields.pieces shouldSplit 0 [])).2])) (omitTypes : Bool) :
    directory.json.foldlM (loadEntry env directory omitTypes) {} = .ok
      { blocks := Dict.group ((fields.splits shouldSplit).map (entryOf env))
        pointerLengths := Dict.ofList ((fields.splits shouldSplit).map fun hole =>
          (hole.2.getLastD 0, (contentPointer env omitTypes hole.1).length))
        buffer := Piece.alternate []
          ((fields.pieces shouldSplit 0 []).map (Piece.map fun hole => env.hashFactory hole.1)) } := by
  have hruns := runs_rewritten hjson hparts
  have hblocks : directory.blocks = (fields.splits shouldSplit).map (entryOf env) := by
    have h := blocks_weave 1 ((fields.splits shouldSplit).map (entryOf env)) directory
    rwa [← hjson] at h
  have hbounds := Fields.chains_bounds shouldSplit 0 hencodes
  have hlasts : ((fields.splits shouldSplit).map (entryOf env)).map
      (fun entry => (entry.1, entry.2.getLast?)) =
      ((fields.splits shouldSplit).map (leafOf env)).map fun leaf => (leaf.1, some leaf.2) := by
    rw [List.map_map, List.map_map]
    refine List.map_congr_left fun hole hmem => ?_
    obtain ⟨hne, -⟩ := hbounds hole hmem
    simp only [Function.comp_apply, entryOf, leafOf, List.getLastD_eq_getLast?,
      List.getLast?_eq_getLast_of_ne_nil hne, Option.getD_some]
  have hsorted : ∀ entry ∈ directory.blocks, entry.2.IsChain (· ≤ ·) := by
    intro entry hentry
    rw [hblocks] at hentry
    obtain ⟨hole, hmem, rfl⟩ := List.mem_map.mp hentry
    exact ((hbounds hole hmem).2.1.imp Nat.le_of_lt).isChain
  have hload := foldlM_loadEntry env omitTypes directory.json _
    ((fields.splits shouldSplit).map (leafOf env)) {} hruns (hblocks ▸ hlasts) hsorted
  rw [hload]
  simp only [List.map_map, List.nil_append]
  rw [show Directory.blocks { directory with json := directory.json } = _ from hblocks]
  rfl

-- What is written is what stands in `wbp.bin`.
theorem wbp_rewritten {registry : Registry} {directory finished : Directory} {fields : Fields φ}
    {inherited : Option (List Bytes)} (hencodes : fields.Encodes types descriptor)
    (hjson : directory.json = weave 1 ((fields.splits shouldSplit).map (entryOf env)))
    (hparts : directory.parts =
      numbered 1 ((Piece.cut [] (fields.pieces shouldSplit 0 [])).1 ++
        [(Piece.cut [] (fields.pieces shouldSplit 0 [])).2]))
    (hcontents : ∀ split ∈ fields.splits shouldSplit,
      registry.expansion (env.hashFactory split.1) = some split.1)
    (hwbp : generateWbpFile env registry directory inherited = .ok finished) :
    finished.wbp = some (fields.written shouldSplit (contentPointer env inherited.isSome)
      (statedSize shouldSplit (contentPointer env inherited.isSome))) := by
  obtain ⟨wbp, hbytes, hfinished⟩ := bind_eq_ok.mp hwbp
  obtain rfl := Except.ok.inj hfinished
  have hruns := runs_rewritten hjson hparts
  have hload := load_rewritten hencodes hjson hparts inherited.isSome
  have hchains := Dict.ungroup_group ((fields.splits shouldSplit).map (entryOf env))
  simp only [wbpBytes, parts_present _ _ hruns, Bool.false_eq_true, if_false, ok_bind, hload] at hbytes
  obtain ⟨-, -, hbytes⟩ := bind_eq_ok.mp hbytes
  obtain ⟨tree, htree, hbytes⟩ := bind_eq_ok.mp hbytes
  obtain ⟨lengths, hlengths, hbytes⟩ := bind_eq_ok.mp hbytes
  let pointer := contentPointer env inherited.isSome
  let fill := fun id => (registry.expansion id).getD []
  let slots := fields.slots shouldSplit pointer (statedSize shouldSplit pointer) env.hashFactory
  have hpieces : (fields.pieces shouldSplit 0 []).map (Piece.map fun hole => env.hashFactory hole.1) =
      slots.map Slot.before := (Fields.slots_before ..).symm
  have hfill : ∀ hole ∈ fields.chains shouldSplit 0, fill (env.hashFactory hole.1) = hole.1 := by
    intro hole hmem
    show (registry.expansion (env.hashFactory hole.1)).getD [] = hole.1
    rw [hcontents hole hmem, Option.getD_some]
  have hholes : ∀ id, .hole id ∈ slots.map Slot.before → registry.expansion id = some (fill id) := by
    intro id hid
    rw [← hpieces] at hid
    obtain ⟨piece, hpiece, hmap⟩ := List.mem_map.mp hid
    cases piece with
    | bytes b => cases hmap
    | hole hole =>
        obtain rfl := Piece.hole.inj hmap
        have hmem : hole ∈ fields.chains shouldSplit 0 := List.mem_filterMap.mpr ⟨_, hpiece, rfl⟩
        rw [hfill hole hmem, hcontents hole hmem]
  have hkeys : (((fields.splits shouldSplit).map fun hole =>
      (hole.2.getLastD 0, (pointer hole.1).length)).map Prod.fst).Nodup := by
    rw [List.map_map, List.nodup_iff_pairwise_ne, List.pairwise_map]
    exact (Fields.chains_last shouldSplit 0 hencodes).imp Nat.ne_of_lt
  have hread : ReadableFields shouldSplit pointer env registry
      ((Piece.alternate [] (slots.map Slot.before)).map Path.ofRun) (Dict.ofList
        ((fields.splits shouldSplit).map fun hole => (hole.2.getLastD 0, (pointer hole.1).length))) 0
      fields := by
    refine readable_fields pointer [] [] 0 hencodes (List.append_nil _).symm rfl hholes hfill ?_
    intro hole hmem
    rw [Dict.ofList_of_nodup _ hkeys]
    exact Dict.lookup_of_nodup _ hkeys _ _ (List.mem_map_of_mem hmem)
  have hmarks : lengths.Perm ((Slot.marks fill 0 slots).map fun mark => (mark.1, (mark.2 : Int))) := by
    obtain ⟨tree', htree', all, hall, hperm⟩ := collect_pointers pointer 0 hencodes hread hchains
    obtain rfl := Except.ok.inj (htree.symm.trans htree')
    have hnodup : (all.flatten.map Prod.fst).Nodup :=
      (hperm.map Prod.fst).nodup_iff.mpr (pointerEntries_nodup pointer hencodes 0)
    simp only [computeWbpLengths, WbpInput.fileList, hpieces] at hlengths
    have hcollect := hall
    simp only [pointer] at hcollect
    rw [hcollect, ok_bind, Dict.ofList_of_nodup _ hnodup] at hlengths
    obtain rfl := Except.ok.inj hlengths
    exact (hperm.map _).trans (pointerEntries_marks pointer env.hashFactory 0 hfill)
  have hsorted : ((Slot.marks fill 0 slots).map fun mark => (mark.1, (mark.2 : Int))).Pairwise
      fun a b => a.1 < b.1 :=
    List.pairwise_map.mpr (Slot.marks_strictly_ascending fill 0
      (Fields.slots_stated shouldSplit pointer _ env.hashFactory hencodes))
  have hpatch := foldrM_slots registry fill slots 0 [] rfl
    (Fields.slots_stated shouldSplit pointer _ env.hashFactory hencodes) (by simp) hholes
  rw [regenerateBuffer, Dict.descending_eq hmarks hsorted, List.foldlM_reverse, List.foldrM_map,
    hpieces] at hbytes
  simp only [Int.toNat_natCast, List.nil_append] at hbytes hpatch
  rw [hpatch, ok_bind] at hbytes
  obtain rfl := Except.ok.inj hbytes
  refine congrArg some ?_
  show (Piece.alternate [] (slots.map Slot.after)).flatMap
    (fun run => run.elim id fun block => blockPointerBytes env block inherited.isSome) = _
  rw [Piece.alternate_render, List.nil_append]
  exact Fields.slots_after shouldSplit pointer (statedSize shouldSplit pointer) env.hashFactory
    (fun content => rfl) fields

end Wbp

-- Where a split comes to its end, its `wbp.bin` is the block with pointers in the places of the
-- payloads, every length around one that of what is behind it, just where no such length is spelled
-- longer than it has to be inside a message. What is written is reckoned with the shortest spelling;
-- what it takes the place of is as the block spells it.
theorem splitBlock_states_lengths_iff (env : Enviroment) (faults : SplitStep → Option Err)
    {δ φ : Type} (types : Descriptors δ φ) (shouldSplit : φ → Nat → Bool) (registry : Registry)
    (id : BlockId) (descriptor : δ) (inherited : Option (List Bytes)) (limit : Int)
    (fields : Fields φ) (stream : Yielded (Bytes ⊕ Block))
    (haddressed : registry.ContentAddressed env)
    (hencodes : fields.Encodes types (some descriptor))
    (hinjective : Set.InjOn env.hashFactory (registry.involved fields.render))
    (hstream : contentOf stream.items = fields.render) (w : Splitting)
    (hresult : splitBlockFrom env faults types shouldSplit stream id descriptor inherited limit
      { registry := registry } = .ok true w) :
    ∃ directory wbp, w.registry.lookup id = some (.dir directory) ∧ directory.wbp = some wbp ∧
      (fields.Relengthed shouldSplit (contentPointer env inherited.isSome) wbp ↔
        fields.Tight shouldSplit false) := by
  have hends := (@splitBlockFrom_ends env δ φ types shouldSplit registry id descriptor inherited limit
    faults stream).of_ok hresult
  rcases hends with ⟨h, -⟩ | ⟨-, fields', s, directory, hread, -, hrewritten, hw⟩
  · cases h
  · obtain rfl := Fields.encodes_unique hrewritten.encodes hencodes (hread.symm.trans hstream)
    obtain ⟨unfinished, hjson, hparts, hwbp⟩ := hrewritten.wbp
    have hwritten := wbp_rewritten hencodes (hjson.trans hrewritten.json)
      (hparts.trans hrewritten.parts) (rewritten_payloads haddressed hinjective hrewritten) hwbp
    refine ⟨directory, _, ?_, hwritten, ?_⟩
    · rw [hw]
      exact Registry.lookup_store_self ..
    · rw [Fields.relengthed_written_iff, exact_iff_tight _ hencodes]

theorem splitBlock_states_lengths_iff_sample :
    let fields : Fields Bool := .sample
    let shouldSplit : Bool → Nat → Bool := fun _ length => decide (3 ≤ length)
    let id : BlockId := 1 :: fields.render
    let w : Splitting :=
      { registry := .split
        reader :=
          { chunks := .pure [], hashed := fields.render, buffer := fields.render, offset := 9, position := 9 }
        writer := { entries := [.part 1, .block [1, 7, 8, 9] [1, 3], .part 2], blocks := 1 } }
    ∃ directory wbp, w.registry.lookup id = some (.dir directory) ∧ directory.wbp = some wbp ∧
      (fields.Relengthed shouldSplit (contentPointer .sample false) wbp ↔
        fields.Tight shouldSplit false) := by
  exact splitBlock_states_lengths_iff .sample (fun _ => none) .sample
    (fun _ length => decide (3 ≤ length)) .flat (1 :: Fields.sample.render) () none 8 .sample
    (readBlock .sample .flat (1 :: Fields.sample.render)) flat_contentAddressed
    Fields.sample_encodes (sample_injective _) (by decide) _ (by decide +kernel)

-- The same payload, its length spelled with a byte more.
def loose : Fields Bool := .message [10] [6] (.payload [18] [131, 0] [7, 8, 9] (some false) .nil) .nil

theorem loose_encodes : loose.Encodes Descriptors.sample (some ()) := by
  have htag : ∀ byte n, Varint.decode? [byte] = some n → Varint.span? [byte] = some 1 →
      Varint.Spells [byte] n := fun byte n h h' => ⟨h, h', by simp⟩
  exact ⟨⟨true, (), ⟨10, htag 10 10 rfl rfl, rfl, rfl⟩, rfl, ⟨18, htag 18 18 rfl rfl, rfl, rfl⟩, rfl,
    ⟨rfl, rfl, by decide⟩, trivial⟩, htag 6 6 rfl rfl, trivial⟩

theorem splitBlock_misstates_length :
    let shouldSplit : Bool → Nat → Bool := fun _ length => decide (3 ≤ length)
    let id : BlockId := 1 :: loose.render
    let registry : Registry := [(id, .file loose.render)]
    loose.Encodes Descriptors.sample (some ()) ∧ registry.expansion id = some loose.render ∧
      ∃ w directory wbp, splitBlockFrom .sample (fun _ => none) .sample shouldSplit
          (readBlock .sample registry id) id () none 7 { registry := registry } = .ok true w ∧
        w.registry.lookup id = some (.dir directory) ∧ directory.wbp = some wbp ∧
        wbp = [10, 14, 18, 11, 10, 9, 10, 1, 1, 18, 4, 1, 7, 8, 9] ∧
        ¬loose.Relengthed shouldSplit (contentPointer .sample false) wbp := by
  intro shouldSplit id registry
  have hwritten : [10, 14, 18, 11, 10, 9, 10, 1, 1, 18, 4, 1, 7, 8, 9] =
      loose.written shouldSplit (contentPointer .sample false)
        (statedSize shouldSplit (contentPointer .sample false)) := by
    decide +kernel
  have hloose : ¬loose.Tight shouldSplit false := by
    rintro ⟨h, -⟩
    have hlength := (h rfl).2.1 rfl rfl
    revert hlength
    decide
  refine ⟨loose_encodes, by decide +kernel,
    { registry :=
        [(id, .dir {
            parts := [(1, [10, 6, 18, 131, 0]), (2, [])]
            json := [.part 1, .block [1, 7, 8, 9] [1, 3], .part 2]
            wbp := some [10, 14, 18, 11, 10, 9, 10, 1, 1, 18, 4, 1, 7, 8, 9] }),
          ([1, 7, 8, 9], .file [7, 8, 9])]
      reader :=
        { chunks := .pure [], hashed := loose.render, buffer := loose.render, offset := 8, position := 8 }
      writer := { entries := [.part 1, .block [1, 7, 8, 9] [1, 3], .part 2], blocks := 1 } },
    _, _, by decide +kernel, rfl, rfl, rfl, ?_⟩
  rw [hwritten, Fields.relengthed_written_iff, exact_iff_tight _ loose_encodes]
  exact hloose

end BeeRpc
