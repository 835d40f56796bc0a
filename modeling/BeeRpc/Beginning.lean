import BeeRpc.Framing
import BeeRpc.Wire.Partial

namespace BeeRpc

open Wire Naming

-- The length varint is a run of its own in the encoding, where the mark has it.
def Located (fill : BlockId → Bytes) (pieces : List (Piece BlockId)) (mark : Mark) : Prop :=
  ∃ pre post, pieces = pre ++ .bytes (Varint.encode mark.old) :: post ∧
    (pre.flatMap (Piece.render fill)).length = mark.position

section

variable (env : Enviroment) (registry : Registry) {fill : BlockId → Bytes}

-- Every length of a document is in front of its last hole.
theorem located_front {fill' : BlockId → Bytes} {doc : Document BlockId}
    {front back : List (Piece BlockId)} (hpieces : doc.pieces fill = front ++ back)
    (hback : back.filterMap Piece.hole? = []) (more : List (Piece BlockId)) :
    ∀ mark ∈ doc.marks fill fill' 0, Located fill (front ++ more) mark := by
  intro mark hmark
  obtain ⟨pre, post, hsplit, hposition, hbehind⟩ := Document.marks_located fill fill' 0 doc mark hmark
  rw [Nat.zero_add] at hposition
  rw [hpieces] at hsplit
  rcases List.append_eq_append_iff.mp hsplit with ⟨between, rfl, hright⟩ | ⟨between, rfl, hright⟩
  · rw [hright, List.filterMap_append, List.append_eq_nil_iff] at hback
    exact absurd hback.2 hbehind
  · cases between with
    | nil =>
        rw [List.nil_append] at hright
        rw [← hright] at hback
        exact absurd hback hbehind
    | cons piece between =>
        obtain ⟨rfl, rfl⟩ := List.cons.inj hright
        exact ⟨pre, between ++ more, by simp, hposition⟩

theorem located_read {pieces : List (Piece BlockId)} {mark : Mark}
    (h : Located fill pieces mark)
    (hholes : ∀ id, .hole id ∈ pieces → registry.expansion id = some (fill id)) :
    getVarintAtPosition registry mark.position ((Piece.alternate [] pieces).map Path.ofRun) =
      .ok mark.old := by
  obtain ⟨pre, post, rfl, hposition⟩ := h
  exact getVarintAtPosition_piece registry fill pre post (Varint.states_encode mark.old) _
    hposition.symm fun id hid => hholes id (List.mem_append_left _ hid)

-- Lengths that stand apart are all rewritten, and nothing in front of the first of them.
theorem foldrM_located {pieces : List (Piece BlockId)}
    (hholes : ∀ id, .hole id ∈ pieces → registry.expansion id = some (fill id)) (marks : List Mark)
    (hsorted : marks.Pairwise fun mark other => mark.position < other.position)
    (hlocated : ∀ mark ∈ marks, Located fill pieces mark) :
    ∃ pieces', marks.foldrM
        (fun mark buffer => setVarintValue registry mark.position buffer mark.new)
        (Piece.alternate [] pieces) = .ok (Piece.alternate [] pieces') ∧
      ∀ pre piece post, pieces = pre ++ piece :: post →
        (∀ mark ∈ marks, (pre.flatMap (Piece.render fill)).length < mark.position) →
          ∃ post', pieces' = pre ++ piece :: post' := by
  induction marks with
  | nil => exact ⟨pieces, rfl, fun pre piece post h _ => ⟨post, h⟩⟩
  | cons mark marks ih =>
      obtain ⟨hfirst, hsorted⟩ := List.pairwise_cons.mp hsorted
      obtain ⟨pieces', hfold, hkeeps⟩ := ih hsorted fun other hother =>
        hlocated other (List.mem_cons_of_mem _ hother)
      obtain ⟨pre, post, hsplit, hposition⟩ := hlocated mark (List.mem_cons_self ..)
      obtain ⟨post', rfl⟩ := hkeeps pre _ post hsplit fun other hother =>
        hposition ▸ hfirst other hother
      have hset := setVarintValue_piece registry fill pre post' (Varint.states_encode mark.old)
        mark.new mark.position
        hposition.symm fun id hid => hholes id (hsplit ▸ List.mem_append_left _ hid)
      refine ⟨pre ++ .bytes (Varint.encode mark.new) :: post', ?_, ?_⟩
      · rw [List.foldrM_cons, hfold]
        exact hset
      · intro front piece behind hother hbefore
        have hless := hbefore mark (List.mem_cons_self ..)
        rw [← hposition] at hless
        rw [hsplit] at hother
        rcases List.append_eq_append_iff.mp hother with ⟨between, rfl, hright⟩ | ⟨between, rfl, hright⟩
        · rw [List.flatMap_append, List.length_append] at hless
          omega
        · cases between with
          | nil =>
              rw [List.append_nil] at hless
              exact absurd hless (Nat.lt_irrefl _)
          | cons first between =>
              obtain ⟨rfl, -⟩ := List.cons.inj hright
              exact ⟨between ++ .bytes (Varint.encode mark.new) :: post', by simp⟩

-- What is behind the last block of a directory does not decide whether generate_wbp_file takes it.
theorem wbpBytes_front {directory : Directory} {doc : Document BlockId}
    {front back : List (Piece BlockId)} (hpieces : doc.pieces fill = front ++ back)
    (hback : back.filterMap Piece.hole? = []) {last : Bytes}
    (hruns : directory.runs directory.json = some (Piece.alternate [] (front ++ [.bytes last])))
    (hchains : directory.blocks = doc.chains fill 0)
    (hfill : ∀ id ∈ doc.holes, registry.expansion id = some (fill id))
    (inherited : Option (List Bytes)) :
    ∃ wbp, wbpBytes env registry directory inherited = .ok wbp := by
  generalize hfill' : (fun id => blockPointerBytes env id inherited.isSome) = fill'
  have hlengths' : ∀ id, blockPointerLength env id inherited.isSome = (fill' id).length :=
    fun id => by rw [← hfill']; rfl
  have hload : directory.json.foldlM (loadEntry env directory inherited.isSome) {} =
      .ok ⟨Dict.group directory.blocks, Dict.ofList ((doc.leaves fill 0).map fun leaf =>
        (leaf.2, blockPointerLength env leaf.1 inherited.isSome)),
        Piece.alternate [] (front ++ [.bytes last])⟩ :=
    foldlM_loadEntry env inherited.isSome directory.json _ (doc.leaves fill 0) {} hruns
      (by rw [← Document.chains_leaves, ← hchains])
      (fun entry he => chains_sorted entry (hchains ▸ he))
  have hkeys : ((((doc.leaves fill 0).map fun leaf =>
      (leaf.2, blockPointerLength env leaf.1 inherited.isSome))).map Prod.fst).Nodup := by
    rw [List.map_map]
    exact Document.leaves_nodup fill 0 doc
  have hholes : ∀ id, .hole id ∈ front ++ [.bytes last] → registry.expansion id = some (fill id) := by
    intro id hid
    have hfront : Piece.hole id ∈ front := by simpa using hid
    apply hfill
    rw [← Document.mem_pieces fill, hpieces]
    exact List.mem_append_left _ hfront
  have hlocated : ∀ mark ∈ doc.marks fill fill' 0, Located fill (front ++ [.bytes last]) mark :=
    located_front hpieces hback _
  have hread : Readable registry
      ((Piece.alternate [] (front ++ [.bytes last])).map Path.ofRun)
      ((doc.leaves fill 0).map fun leaf =>
        (leaf.2, blockPointerLength env leaf.1 inherited.isSome))
      fill fill' 0 doc := by
    refine ⟨fun mark hmark => located_read registry (hlocated mark hmark) hholes, ?_, hfill⟩
    intro leaf hleaf
    rw [← hlengths']
    exact Dict.lookup_of_nodup _ hkeys _ _ (List.mem_map_of_mem hleaf)
  have hgroup : (Dict.ungroup (Dict.group (doc.chains fill 0))).Perm (doc.chains fill 0) :=
    Dict.ungroup_group _
  rw [hchains, Dict.ofList_of_nodup _ hkeys] at hload
  obtain ⟨tree, lengths, htree, hlengths, hperm⟩ :=
    computeWbpLengths_chains registry _ _ _ hread _ hgroup
  have hvalid := validateLengthsTree_ok registry
    ⟨Dict.group (doc.chains fill 0), (doc.leaves fill 0).map fun leaf =>
      (leaf.2, blockPointerLength env leaf.1 inherited.isSome),
      Piece.alternate [] (front ++ [Piece.bytes last])⟩ fill' hread hgroup
  have hsorted : ((doc.marks fill fill' 0).map
      fun mark => (mark.position, (mark.new : Int))).Pairwise fun a b => a.1 < b.1 :=
    List.pairwise_map.mpr (Document.marks_strictly_ascending fill _ 0 doc)
  obtain ⟨pieces', hfold, -⟩ := foldrM_located registry hholes _
    (Document.marks_strictly_ascending fill fill' 0 doc) hlocated
  refine ⟨(Piece.alternate [] pieces').flatMap fun run => run.elim id fill', ?_⟩
  simp only [wbpBytes, parts_present _ _ hruns, Bool.false_eq_true, if_false, ok_bind,
    hload, hvalid, htree, WbpInput.fileList, hlengths]
  rw [regenerateBuffer, Dict.descending_eq hperm hsorted, List.foldlM_reverse, List.foldrM_map]
  simp only [Int.toNat_natCast, hfold, ok_bind, pure_ok]
  rw [← hfill']

end

-- A forest whose blocks are laid out as the first ones of some encoding.
def Forest.Opens (registry : Registry) (forest : Forest) : Prop :=
  ∃ (doc : Document BlockId) (front back : List (Piece BlockId)) (last : Bytes),
    doc.pieces registry.content = front ++ back ∧ back.filterMap Piece.hole? = [] ∧
      forest.layout [] = Piece.alternate [] (front ++ [.bytes last]) ∧
        forest.blocks = doc.chains registry.content 0

section

variable {registry : Registry}

-- The layout of a forest does not end before that of what follows begins.
theorem layout_append (forest : Forest) (current : Bytes) :
    ∃ left last, left.length = 2 * forest.blocks.length ∧
      ∀ more, (forest.append more).layout current = left ++ more.layout last := by
  induction forest generalizing current with
  | nil => exact ⟨[], current, rfl, fun more => rfl⟩
  | chunk skip content rest ih => exact ih (current ++ content)
  | block id positions body rest ihBody ihRest =>
      obtain ⟨left, last, hlength, hlayout⟩ := ihRest []
      refine ⟨.inl current :: .inr id :: left, last, ?_, fun more => ?_⟩
      · simp only [List.length_cons, hlength, Forest.blocks]
        omega
      · rw [Forest.append, Forest.layout, hlayout]
        rfl

theorem Forest.Laid.opens {forest more : Forest} (h : (forest.append more).Laid registry)
    (hblocks : forest.blocks ≠ []) : forest.Opens registry := by
  obtain ⟨doc, hlayout, hchains⟩ := h
  obtain ⟨left, last, hlength, happend⟩ := layout_append forest []
  rw [append_blocks] at hchains
  have hcount : doc.holes.length = forest.blocks.length + more.blocks.length := by
    rw [← Document.chains_holes registry.content 0, ← hchains, List.length_map, List.length_append]
  obtain ⟨n, hn⟩ := Nat.exists_eq_succ_of_ne_zero fun h => hblocks (List.length_eq_zero_iff.mp h)
  obtain ⟨front, i, tail, back, hpieces, hkeep, hback, hfront⟩ :=
    Document.pieces_keep registry.content n doc (by omega)
  obtain ⟨runs, hruns, hsplit⟩ := Piece.alternate_hole [] front i
  have hwhole : left ++ more.layout last = runs ++ Piece.alternate [] tail := by
    rw [← happend, hlayout, hpieces, hsplit]
  have hsame : left = runs := by
    apply List.append_inj_left hwhole
    rw [hlength, hruns, hfront, hn]
    omega
  refine ⟨doc.keep registry.content (n + 1), front ++ [.hole i], back, last, ?_, hback, ?_, ?_⟩
  · rw [hkeep, List.append_assoc]
    rfl
  · have hnil := happend .nil
    rw [append_nil, Forest.layout] at hnil
    rw [hnil, hsame, List.append_assoc]
    exact (hsplit [.bytes last]).symm
  · rw [Document.chains_keep, ← hchains, List.take_left' hn]

theorem Forest.Laid.opens_self {forest : Forest} (h : forest.Laid registry)
    (hblocks : forest.blocks ≠ []) : forest.Opens registry := by
  have hself : (forest.append .nil).Laid registry := by rwa [append_nil]
  exact hself.opens hblocks

-- However far the stream of a forest has come, with all of its open blocks.
theorem Cut.Begins.opens {cut : Cut} {forest : Forest} (h : cut.Begins forest)
    (hlaid : forest.blocks ≠ [] → forest.Laid registry) (hblocks : cut.close.blocks ≠ []) :
    cut.close.Opens registry := by
  cases cut with
  | last nearer =>
      obtain ⟨more, rfl⟩ := h
      have hlaid := hlaid (by
        rw [append_blocks]
        exact List.append_ne_nil_of_left_ne_nil hblocks _)
      exact hlaid.opens hblocks
  | inside before id positions inner =>
      obtain ⟨body, more, rfl, -⟩ := h
      have hlaid := hlaid (by simp [append_blocks, Forest.blocks])
      obtain ⟨left, last, -, happend⟩ := layout_append before []
      have hclosed : ((Cut.inside before id positions inner).close.append more).Laid registry := by
        obtain ⟨doc, hlayout, hchains⟩ := hlaid
        refine ⟨doc, ?_, ?_⟩
        · rw [← hlayout, Cut.close, append_assoc, happend, happend]
          rfl
        · rw [← hchains, Cut.close, append_assoc, append_blocks, append_blocks before]
          rfl
      exact hclosed.opens hblocks

end

end BeeRpc
