import BeeRpc.BuildMultiblock

namespace BeeRpc

open Wire Naming

-- protobuf's ParseFromString for a Buffer: the fields of what it makes of the bytes, `none` where it
-- raises DecodeError.
abbrev ParseBuffer := Bytes → Option Message

-- The lengths that get_recursive_block_length has found. `none` is its -1: the block is being
-- measured.
abbrev LengthCache := Dict BlockId (Option Nat)

section

variable (env : Enviroment) (registry : Registry) (parse : ParseBlock) (parseBuffer : ParseBuffer)

-- traverse_tree of compute_real_lengths_recursive, with the cache that `length` fills.
def traverseCached (length : BlockId → LengthCache → Except Err (Nat × LengthCache)) (buffer : Bytes)
    (pointerLengths : Dict Nat Nat) :
    LengthsTree → LengthCache → Except Err (List RealKid × LengthCache)
  | .nil, cache => .ok ([], cache)
  | .leaf key id rest, cache =>
      match pointerLengths.lookup key with
      | none => .error (.noPointerLength key)
      | some bLength => do
          let (realLength, cache) ← length id cache
          let (more, cache) ← traverseCached length buffer pointerLengths rest cache
          return (realKid key realLength bLength true [] :: more, cache)
  | .node key children rest, cache => do
      let initialLength ← getPositionLength key buffer
      let (kids, cache) ← traverseCached length buffer pointerLengths children cache
      let (subtreeLength, subLengths) ← closeTree initialLength kids
      let (more, cache) ← traverseCached length buffer pointerLengths rest cache
      return (realKid key subtreeLength initialLength false subLengths :: more, cache)

def computeRealLengthsRecursive (length : BlockId → LengthCache → Except Err (Nat × LengthCache))
    (tree : LengthsTree) (buffer : Bytes) (cache : LengthCache) (pointerLengths : Dict Nat Nat) :
    Except Err (Dict Nat RealLength × LengthCache) := do
  let (kids, cache) ← traverseCached length buffer pointerLengths tree cache
  let (_, realLengths) ← closeTree buffer.length kids
  return (Dict.ascending realLengths, cache)

-- Every call inside another has one more block of the registry marked, and one that is marked is
-- refused, so with a round more than there are names the rounds never run out.
def recursiveLengthLoop : Nat → BlockId → LengthCache → Except Err (Nat × LengthCache)
  | 0, _, _ => .error .recursionLimit
  | fuel + 1, id, cache =>
      match cache.lookup id with
      | some none => .error (.recursiveLoop id)
      | some (some length) => .ok (length, cache)
      | none =>
          let marked := Dict.set id none cache
          match registry.lookup id with
          | none => .error (.blockNotFound id)
          | some (.dir _) => do
              let length ← getExpandedBlockLength registry id
              return (length, Dict.set id (some length) marked)
          | some (.file content) =>
              match parseBuffer content with
              | none => .ok (content.length, Dict.set id (some content.length) marked)
              | some inner => do
                  let search := searchOnMessage env parse [] none inner
                  let tree ← createLengthsTree search.container
                  let (innerLengths, cache) ← computeRealLengthsRecursive (recursiveLengthLoop fuel)
                    tree content marked search.pointerLengths
                  let length := (innerLengths.map fun entry => entry.2.1 + width entry.2.1 + 1).sum
                  return (length, Dict.set id (some length) cache)

def getRecursiveBlockLength (id : BlockId) (cache : LengthCache) :
    Except Err (Nat × LengthCache) :=
  recursiveLengthLoop env registry parse parseBuffer (registry.length + 1) id cache

def buildMultiblockFractal (message : Message) (blocks : List BlockId)
    (inherited : Option (List Bytes) := none) : Except Err (Bytes × Directory) := do
  let search := searchOnMessage env parse blocks inherited message
  let missing := blocks.filter fun id => id ∉ search.container.map Prod.fst
  if missing ≠ [] then .error (.inconsistentBlockState missing)
  let tree ← createLengthsTree search.container
  let buffer := message.serializeToString
  let (realLengths, _) ← computeRealLengthsRecursive
    (getRecursiveBlockLength env registry parse parseBuffer) tree buffer [] search.pointerLengths
  let newBuff := generateBuffer buffer realLengths
  let containerRealLengths ← searchRealLoop registry parse (pointerOf env parse blocks inherited)
    realLengths message [] message.unknownFields 0 0 []
  let objectId ← generateId env registry newBuff (containerRealLengths.map Prod.fst)
  let (parts, json) ← layOut 1 newBuff containerRealLengths
  return (objectId, { parts, json, wbp := some buffer })

-- What the fractal builder takes for the length of a block: a file that reads as a Buffer has none.
def measuredLength (id : BlockId) : Except Err Nat :=
  match registry.lookup id with
  | none => .error (.blockNotFound id)
  | some (.file content) => .ok (if (parseBuffer content).isSome then 0 else content.length)
  | some (.dir _) => getExpandedBlockLength registry id

-- The block is not a file with content that reads as a Buffer.
def Unmistakable (id : BlockId) : Prop :=
  ∀ content, registry.lookup id = some (.file content) → parseBuffer content ≠ none → content = []

-- What is in the cache is what would be measured again.
def LengthCache.Sound (cache : LengthCache) : Prop :=
  ∀ id entry, cache.lookup id = some entry →
    ∃ length, entry = some length ∧ measuredLength registry parseBuffer id = .ok length

end

section Cached

variable {env : Enviroment} {registry : Registry} {parse : ParseBlock} {parseBuffer : ParseBuffer}

-- The mark of a block that is being measured is gone once its length is there.
theorem LengthCache.Sound.set {cache : LengthCache} (h : cache.Sound registry parseBuffer)
    {id : BlockId} {length : Nat} (hlength : measuredLength registry parseBuffer id = .ok length) :
    LengthCache.Sound registry parseBuffer (Dict.set id (some length) (Dict.set id none cache)) := by
  intro j entry hentry
  rw [Dict.lookup_set] at hentry
  by_cases hj : j = id
  · subst hj
    rw [if_pos rfl] at hentry
    exact ⟨length, (Option.some.inj hentry).symm, hlength⟩
  · rw [if_neg hj, Dict.lookup_set, if_neg hj] at hentry
    exact h j entry hentry

-- Looking for pointers to no blocks finds none.
theorem searchOnMessage_nil (inherited : Option (List Bytes)) (message : Message) :
    searchOnMessage env parse [] inherited message = {} := by
  have hnone : pointerOf env parse [] inherited = fun _ => none := by
    funext value
    have hblock : isBlock env parse [] inherited value = false := by
      rw [isBlock]
      cases parse value with
      | none => rfl
      | some parsed =>
          simp only
          cases blockIdFromPointer env parsed.1 inherited <;> simp
    rw [pointerOf, hblock]
    rfl
  have hfound : message.found (fun _ => none) message.unknownFields 0 = [] := by
    have hholes : (message.document fun _ => none).holes = [] := by
      refine List.eq_nil_iff_forall_not_mem.mpr fun pointer hp => ?_
      cases pointerOf_holes message (fun _ => none) pointer hp
    have h := (Message.foundChains_eq_nil _ message message.unknownFields 0).mpr hholes
    exact List.map_eq_nil_iff.mp h
  rw [searchOnMessage, hnone, Message.searchLoop_eq, hfound]
  rfl

theorem recursiveLengthLoop_measured (fuel : Nat) {id : BlockId} {cache : LengthCache}
    (h : cache.Sound registry parseBuffer) {length : Nat}
    (hlength : measuredLength registry parseBuffer id = .ok length) :
    ∃ cache', recursiveLengthLoop env registry parse parseBuffer (fuel + 1) id cache =
        .ok (length, cache') ∧ cache'.Sound registry parseBuffer := by
  rw [recursiveLengthLoop]
  cases hc : cache.lookup id with
  | some entry =>
      obtain ⟨cached, rfl, hcached⟩ := h id entry hc
      obtain rfl := Except.ok.inj (hcached.symm.trans hlength)
      exact ⟨cache, rfl, h⟩
  | none =>
      have hset := h.set hlength
      rw [measuredLength] at hlength
      cases hl : registry.lookup id with
      | none =>
          rw [hl] at hlength
          cases hlength
      | some stored =>
          rw [hl] at hlength
          cases stored with
          | dir directory =>
              simp only at hlength
              simp only [hlength, ok_bind, pure_ok]
              exact ⟨_, rfl, hset⟩
          | file content =>
              obtain rfl := Except.ok.inj hlength
              simp only
              cases hp : parseBuffer content with
              | none =>
                  rw [hp] at hset
                  exact ⟨_, rfl, hset⟩
              | some inner =>
                  -- no pointer is looked for, so nothing is added up
                  rw [hp] at hset
                  simp only [searchOnMessage_nil]
                  exact ⟨_, rfl, hset⟩

-- What traverse_tree makes of a pointer, whoever measures its block.
def leafBy (measure : BlockId → Except Err Nat) (pointerLengths : Dict Nat Nat) (key : Nat)
    (id : BlockId) : Except Err RealKid :=
  match pointerLengths.lookup key with
  | none => .error (.noPointerLength key)
  | some bLength => do
      let realLength ← measure id
      return realKid key realLength bLength true []

-- Where the blocks under a tree are measured the same, the cache changes nothing in what is found.
theorem traverseCached_of_collect {length : BlockId → LengthCache → Except Err (Nat × LengthCache)}
    {measure : BlockId → Except Err Nat} {P : LengthCache → Prop} {buffer : Bytes}
    {pointerLengths : Dict Nat Nat} (tree : LengthsTree)
    (hlength : ∀ id ∈ tree.leafIds, ∀ n cache, P cache → measure id = .ok n →
      ∃ cache', length id cache = .ok (n, cache') ∧ P cache')
    {kids : List RealKid} {cache : LengthCache} (hcache : P cache)
    (h : tree.collect (leafBy measure pointerLengths) (realNode buffer) = .ok kids) :
    ∃ cache', traverseCached length buffer pointerLengths tree cache = .ok (kids, cache') ∧
      P cache' := by
  induction tree generalizing kids cache with
  | nil =>
      obtain rfl := Except.ok.inj h
      exact ⟨cache, rfl, hcache⟩
  | leaf key id rest ih =>
      obtain ⟨first, hfirst, h⟩ := bind_eq_ok.mp h
      obtain ⟨more, hmore, h⟩ := bind_eq_ok.mp h
      obtain rfl := Except.ok.inj h
      rw [leafBy] at hfirst
      rw [traverseCached]
      cases hl : pointerLengths.lookup key with
      | none =>
          rw [hl] at hfirst
          cases hfirst
      | some bLength =>
          rw [hl] at hfirst
          obtain ⟨realLength, hreal, hfirst⟩ := bind_eq_ok.mp hfirst
          obtain rfl := Except.ok.inj hfirst
          obtain ⟨next, hnext, hp⟩ := hlength id (List.mem_cons_self ..) _ cache hcache hreal
          obtain ⟨last, hlast, hp⟩ := ih
            (fun id hid => hlength id (List.mem_cons_of_mem _ hid)) hp hmore
          refine ⟨last, ?_, hp⟩
          simp only [hnext, ok_bind, hlast]
          rfl
  | node key children rest ihChildren ihRest =>
      obtain ⟨first, hfirst, h⟩ := bind_eq_ok.mp h
      obtain ⟨more, hmore, h⟩ := bind_eq_ok.mp h
      obtain rfl := Except.ok.inj h
      obtain ⟨initialLength, hinitial, hfirst⟩ := bind_eq_ok.mp hfirst
      obtain ⟨inner, hinner, hfirst⟩ := bind_eq_ok.mp hfirst
      obtain ⟨closed, hclosed, hfirst⟩ := bind_eq_ok.mp hfirst
      obtain rfl := Except.ok.inj hfirst
      obtain ⟨next, hnext, hp⟩ := ihChildren
        (fun id hid => hlength id (List.mem_append_left _ hid)) hcache hinner
      obtain ⟨last, hlast, hp⟩ := ihRest
        (fun id hid => hlength id (List.mem_append_right _ hid)) hp hmore
      refine ⟨last, ?_, hp⟩
      rw [traverseCached, hinitial, ok_bind, hnext]
      simp only [ok_bind, hclosed, hlast]
      rfl

-- So the lengths are those of the plain builder over any registry in which the blocks have the lengths
-- that are measured here.
theorem computeRealLengthsRecursive_eq {measured : Registry} {tree : LengthsTree} {buffer : Bytes}
    {pointerLengths : Dict Nat Nat} {realLengths : Dict Nat RealLength}
    (hmeasured : ∀ id ∈ tree.leafIds, ∀ n, getBlockLength measured id = .ok n →
      measuredLength registry parseBuffer id = .ok n)
    (h : computeRealLengths measured tree buffer pointerLengths = .ok realLengths) :
    ∃ cache, computeRealLengthsRecursive (getRecursiveBlockLength env registry parse parseBuffer) tree
      buffer [] pointerLengths = .ok (realLengths, cache) := by
  obtain ⟨kids, hkids, h⟩ := bind_eq_ok.mp h
  obtain ⟨closed, hclosed, h⟩ := bind_eq_ok.mp h
  obtain rfl := Except.ok.inj h
  have hlength : ∀ id ∈ tree.leafIds, ∀ n cache, LengthCache.Sound registry parseBuffer cache →
      getBlockLength measured id = .ok n →
      ∃ cache', getRecursiveBlockLength env registry parse parseBuffer id cache = .ok (n, cache') ∧
        LengthCache.Sound registry parseBuffer cache' :=
    fun id hid n cache hcache hn => recursiveLengthLoop_measured _ hcache (hmeasured id hid n hn)
  have hempty : LengthCache.Sound registry parseBuffer [] := fun id entry hentry => by cases hentry
  obtain ⟨cache, hcache, -⟩ := traverseCached_of_collect tree hlength hempty hkids
  refine ⟨cache, ?_⟩
  rw [computeRealLengthsRecursive, hcache, ok_bind]
  simp only [hclosed]
  rfl

theorem exists_measuredLength {id : BlockId} {content : Bytes}
    (h : registry.expansion id = some content) :
    ∃ n, measuredLength registry parseBuffer id = .ok n := by
  obtain ⟨stored, hl⟩ := Registry.exists_lookup_of_expansion h
  rw [measuredLength, hl]
  cases stored with
  | file bytes => exact ⟨_, rfl⟩
  | dir directory => exact ⟨_, getExpandedBlockLength_of_expansion h⟩

-- A block is measured as long as it is, unless it is mistaken.
theorem unmistakable_iff {id : BlockId} {content : Bytes} {n : Nat}
    (hc : registry.expansion id = some content)
    (hn : measuredLength registry parseBuffer id = .ok n) :
    Unmistakable registry parseBuffer id ↔ n = content.length := by
  obtain ⟨stored, hl⟩ := Registry.exists_lookup_of_expansion hc
  rw [measuredLength, hl] at hn
  cases stored with
  | dir directory =>
      rw [getExpandedBlockLength_of_expansion hc] at hn
      obtain rfl := Except.ok.inj hn
      exact iff_of_true (fun bytes hbytes => by rw [hl] at hbytes; cases hbytes) rfl
  | file bytes =>
      rw [Registry.expansion_file hl] at hc
      obtain rfl := Option.some.inj hc
      obtain rfl := Except.ok.inj hn
      unfold Unmistakable
      simp only [hl, Option.some.injEq, Stored.file.injEq, forall_eq']
      cases parseBuffer bytes with
      | none => simp
      | some inner =>
          simp only [ne_eq, reduceCtorEq, not_false_eq_true, forall_const, Option.isSome_some, if_true]
          rw [@eq_comm _ 0, List.length_eq_zero_iff, eq_comm]

theorem measuredLength_of_getBlockLength {id : BlockId} {n : Nat}
    (h : getBlockLength registry id = .ok n) (hid : Unmistakable registry parseBuffer id) :
    measuredLength registry parseBuffer id = .ok n := by
  rw [getBlockLength] at h
  split at h
  · obtain ⟨content, hc⟩ := expansion_of_getExpandedBlockLength h
    obtain ⟨m, hm⟩ := @exists_measuredLength registry parseBuffer id content hc
    rw [getExpandedBlockLength_of_expansion hc] at h
    obtain rfl := Except.ok.inj h
    rw [hm, (unmistakable_iff hc hm).mp hid]
  · cases h

end Cached

section Remeasured

variable (env : Enviroment) (registry : Registry) (parse : ParseBlock) (parseBuffer : ParseBuffer)

-- The blocks as the fractal builder sees them: each a file of the length that it measures.
def Registry.remeasured : Registry :=
  registry.map fun entry => (entry.1,
    .file (List.replicate ((measuredLength registry parseBuffer entry.1).toOption.getD 0) 0))

theorem lookup_map_names (entries : Registry) (stored : BlockId → Stored) (id : BlockId) :
    List.lookup id (entries.map fun entry => (entry.1, stored entry.1)) =
      (entries.lookup id).map fun _ => stored id := by
  induction entries with
  | nil => rfl
  | cons entry entries ih =>
      obtain ⟨name, old⟩ := entry
      by_cases hid : id = name
      · subst hid
        simp
      · simp only [List.map_cons, List.lookup_cons, beq_false_of_ne hid, ih]

theorem expansion_remeasured {id : BlockId} {n : Nat}
    (h : ∃ content, registry.expansion id = some content)
    (hn : measuredLength registry parseBuffer id = .ok n) :
    (registry.remeasured parseBuffer).expansion id = some (List.replicate n 0) := by
  obtain ⟨content, hc⟩ := h
  obtain ⟨stored, hl⟩ := Registry.exists_lookup_of_expansion hc
  apply Registry.expansion_file
  rw [Registry.remeasured, lookup_map_names registry fun name => Stored.file (List.replicate
    ((measuredLength registry parseBuffer name).toOption.getD 0) 0), hl, hn]
  rfl

end Remeasured

section Agree

variable (env : Enviroment) (registry : Registry) (parse : ParseBlock) (parseBuffer : ParseBuffer)
  (blocks : List BlockId) (inherited : Option (List Bytes)) (message : Message)

theorem layOut_parts (index : Nat) (buffers : List Bytes) (chains : List (BlockId × List Nat))
    {parts : List (Nat × Bytes)} {json : List JsonEntry}
    (h : layOut index buffers chains = .ok (parts, json)) : parts.map Prod.snd = buffers := by
  induction buffers generalizing index chains parts json with
  | nil =>
      cases chains with
      | nil =>
          obtain ⟨rfl, -⟩ := Prod.mk.inj (Except.ok.inj h)
          rfl
      | cons chain chains => cases h
  | cons buffer buffers ih =>
      cases chains with
      | nil =>
          obtain ⟨⟨more, moreJson⟩, hmore, h⟩ := bind_eq_ok.mp h
          obtain ⟨rfl, -⟩ := Prod.mk.inj (Except.ok.inj h)
          rw [List.map_cons, ih _ _ hmore]
      | cons chain chains =>
          obtain ⟨⟨more, moreJson⟩, hmore, h⟩ := bind_eq_ok.mp h
          obtain ⟨rfl, -⟩ := Prod.mk.inj (Except.ok.inj h)
          rw [List.map_cons, ih _ _ hmore]

-- Whatever the message: the fractal builder makes the same of it where it can be misled by none of
-- the blocks.
theorem buildMultiblockFractal_of_unmistakable {built : Bytes × Directory}
    (hbuilt : buildMultiblock env registry parse message blocks inherited = .ok built)
    (h : ∀ pointer ∈ (objectDocument env parse blocks inherited message).holes,
      Unmistakable registry parseBuffer pointer.1) :
    buildMultiblockFractal env registry parse parseBuffer message blocks inherited = .ok built := by
  have hnames : ∀ id ∈ ((searchOnMessage env parse blocks inherited message).container.ungroup.map
      Prod.fst), Unmistakable registry parseBuffer id := by
    intro id hid
    rw [searchOnMessage_container] at hid
    have hid := ((Dict.ungroup_group _).map Prod.fst).mem_iff.mp hid
    rw [Message.foundChains_names] at hid
    obtain ⟨pointer, hp, rfl⟩ := List.mem_map.mp hid
    exact h pointer hp
  simp only [buildMultiblock] at hbuilt
  simp only [buildMultiblockFractal]
  split at hbuilt
  · cases hbuilt
  · rename_i hmissing
    rw [if_neg hmissing]
    obtain ⟨tree, htree, hbuilt⟩ := bind_eq_ok.mp hbuilt
    obtain ⟨realLengths, hlengths, hbuilt⟩ := bind_eq_ok.mp hbuilt
    have hleaves : ∀ id ∈ tree.leafIds, Unmistakable registry parseBuffer id := by
      intro id hid
      rcases LengthsTree.mem_leafIds_build _ htree hid with hin | hin
      · exact hnames id hin
      · exact absurd hin List.not_mem_nil
    obtain ⟨cache, hcache⟩ := @computeRealLengthsRecursive_eq env registry parse parseBuffer _ _ _ _ _
      (fun id hid n hn => measuredLength_of_getBlockLength hn (hleaves id hid)) hlengths
    simp only [htree, ok_bind, hcache]
    exact hbuilt

variable {message}

-- The parts that the fractal builder writes have the lengths in them that it has measured.
theorem buildMultiblockFractal_parts
    (hbalanced : message.Balanced (pointerOf env parse blocks inherited) message.unknownFields 0)
    (hcomplete : ∀ pointer ∈ (objectDocument env parse blocks inherited message).holes,
      ∃ content, registry.expansion pointer.1 = some content) {objectId : Bytes}
    {directory : Directory}
    (h : buildMultiblockFractal env registry parse parseBuffer message blocks inherited =
      .ok (objectId, directory)) :
    directory.parts.map Prod.snd =
      objectParts env (registry.remeasured parseBuffer) parse blocks inherited message := by
  have hsearch := searchOnMessage_balanced env parse blocks inherited hbalanced
  obtain ⟨tree, htree, hlengths⟩ := computeRealLengths_marks (registry.remeasured parseBuffer)
    Prod.fst asPointer (asBlock (registry.remeasured parseBuffer).content) _ _
    (Message.document_render _ message ▸ measured_of_complete env (registry.remeasured parseBuffer)
      parse blocks inherited fun pointer hp => by
        obtain ⟨content, hc⟩ := hcomplete pointer hp
        obtain ⟨n, hn⟩ := @exists_measuredLength registry parseBuffer _ _ hc
        exact ⟨_, expansion_remeasured registry parseBuffer ⟨content, hc⟩ hn⟩)
    _ (Dict.ungroup_group (LengthsTree.chainsOf Prod.fst asPointer 0
      (objectDocument env parse blocks inherited message)))
  have hbuffers := generateBuffer_cut asPointer (asBlock (registry.remeasured parseBuffer).content)
    (objectDocument env parse blocks inherited message)
  rw [Message.document_render] at hlengths hbuffers
  have hmeasured : ∀ id ∈ tree.leafIds, ∀ n, getBlockLength (registry.remeasured parseBuffer) id =
      .ok n → measuredLength registry parseBuffer id = .ok n := by
    intro id hid n hn
    rcases LengthsTree.mem_leafIds_build _ htree hid with hin | hin
    · have hin := ((Dict.ungroup_group _).map Prod.fst).mem_iff.mp hin
      rw [chainsOf_fst] at hin
      obtain ⟨pointer, hp, rfl⟩ := List.mem_map.mp hin
      obtain ⟨content, hc⟩ := hcomplete pointer hp
      obtain ⟨m, hm⟩ := @exists_measuredLength registry parseBuffer _ _ hc
      have hexpansion := expansion_remeasured registry parseBuffer ⟨content, hc⟩ hm
      rw [getBlockLength_of_expansion _ ⟨_, hexpansion⟩, Registry.content, hexpansion] at hn
      obtain rfl := Except.ok.inj hn
      rw [hm, Option.getD_some, List.length_replicate]
    · exact absurd hin List.not_mem_nil
  obtain ⟨cache, hcache⟩ := @computeRealLengthsRecursive_eq env registry parse parseBuffer _ _ _ _ _
    hmeasured hlengths
  simp only [buildMultiblockFractal, hsearch] at h
  split at h
  · cases h
  · simp only [htree, ok_bind, hcache, hbuffers] at h
    obtain ⟨container, -, h⟩ := bind_eq_ok.mp h
    obtain ⟨id, -, h⟩ := bind_eq_ok.mp h
    obtain ⟨⟨parts, json⟩, hlay, h⟩ := bind_eq_ok.mp h
    obtain ⟨-, rfl⟩ := Prod.mk.inj (Except.ok.inj h)
    exact layOut_parts 1 _ _ hlay

theorem buildMultiblock_parts
    (hbalanced : message.Balanced (pointerOf env parse blocks inherited) message.unknownFields 0)
    {objectId : Bytes} {directory : Directory}
    (h : buildMultiblock env registry parse message blocks inherited = .ok (objectId, directory)) :
    directory.parts.map Prod.snd = objectParts env registry parse blocks inherited message := by
  obtain ⟨hcovers, hcomplete⟩ :=
    complete_of_buildMultiblock env registry parse blocks inherited hbalanced h
  rw [buildMultiblock_walk env registry parse blocks inherited hbalanced hcovers hcomplete] at h
  obtain ⟨container, -, h⟩ := bind_eq_ok.mp h
  obtain ⟨id, -, h⟩ := bind_eq_ok.mp h
  obtain ⟨⟨parts, json⟩, hlay, h⟩ := bind_eq_ok.mp h
  obtain ⟨-, rfl⟩ := Prod.mk.inj (Except.ok.inj h)
  exact layOut_parts 1 _ _ hlay

-- What the plain builder accepts the fractal one makes the same of, wherever it mistakes none of the
-- blocks that are pointed at; and where the positions in the message are true, only there.
theorem buildMultiblockFractal_agrees_iff {built : Bytes × Directory}
    (hbuilt : buildMultiblock env registry parse message blocks inherited = .ok built) :
    ((∀ pointer ∈ (objectDocument env parse blocks inherited message).holes,
        Unmistakable registry parseBuffer pointer.1) →
      buildMultiblockFractal env registry parse parseBuffer message blocks inherited = .ok built) ∧
      (message.Balanced (pointerOf env parse blocks inherited) message.unknownFields 0 →
        (buildMultiblockFractal env registry parse parseBuffer message blocks inherited = .ok built ↔
          ∀ pointer ∈ (objectDocument env parse blocks inherited message).holes,
            Unmistakable registry parseBuffer pointer.1)) := by
  have hsame := buildMultiblockFractal_of_unmistakable env registry parse parseBuffer blocks inherited
    message hbuilt
  refine ⟨hsame, fun hbalanced => ⟨fun hfractal pointer hp => ?_, hsame⟩⟩
  obtain ⟨objectId, directory⟩ := built
  obtain ⟨-, hcomplete⟩ :=
    complete_of_buildMultiblock env registry parse blocks inherited hbalanced hbuilt
  have hparts := buildMultiblock_parts env registry parse blocks inherited hbalanced hbuilt
  rw [buildMultiblockFractal_parts env registry parse parseBuffer blocks inherited hbalanced hcomplete
    hfractal] at hparts
  have hcut := List.append_inj' hparts rfl
  have hlengths := (Document.cut_pieces_holes (asBlock (registry.remeasured parseBuffer).content)
    (asBlock registry.content) (objectDocument env parse blocks inherited message) [] [] [] (by
      rw [List.append_nil, List.append_nil]
      exact Prod.ext hcut.1 (List.cons.inj hcut.2).1)).1 pointer hp
  have hc := Registry.content_eq (hcomplete pointer hp)
  obtain ⟨n, hn⟩ := @exists_measuredLength registry parseBuffer _ _ hc
  rw [unmistakable_iff hc hn, ← hlengths, asBlock, Registry.content,
    expansion_remeasured registry parseBuffer ⟨_, hc⟩ hn, Option.getD_some, List.length_replicate]

end Agree

section Mistaken

-- A file that holds a Buffer with an empty chunk.
def Registry.mistaken : Registry := [([1, 10, 0], .file [10, 0])]

def ParseBuffer.sample : ParseBuffer := fun content =>
  if content = [] then some (.unknown [])
  else if content = [10, 0] then some (.bytes 1 [] (.unknown []))
  else none

def ParseBlock.mistaken : ParseBlock := fun value =>
  if value = blockPointerBytes .sample [1, 10, 0] then
    some (blockPointer .sample [1, 10, 0], value.length)
  else none

theorem buildMultiblockFractal_agrees_iff_sample :
    ((∀ pointer ∈ (objectDocument .sample .sample Message.sampleBlocks none .sample).holes,
        Unmistakable .sample .sample pointer.1) →
      buildMultiblockFractal .sample .sample .sample .sample .sample Message.sampleBlocks none =
        .ok ([1, 10, 4, 18, 2, 5, 6, 26, 1, 97, 34, 4, 10, 2, 5, 6], Directory.sample)) ∧
      (Message.sample.Balanced (pointerOf .sample .sample Message.sampleBlocks none)
          Message.sample.unknownFields 0 →
        (buildMultiblockFractal .sample .sample .sample .sample .sample Message.sampleBlocks none =
            .ok ([1, 10, 4, 18, 2, 5, 6, 26, 1, 97, 34, 4, 10, 2, 5, 6], Directory.sample) ↔
          ∀ pointer ∈ (objectDocument .sample .sample Message.sampleBlocks none .sample).holes,
            Unmistakable .sample .sample pointer.1)) :=
  buildMultiblockFractal_agrees_iff .sample .sample .sample .sample Message.sampleBlocks none
    sample_built

-- The file is taken to have no length, which the second walk notices.
theorem buildMultiblockFractal_mistakes :
    let message := Message.bytes 1 (blockPointerBytes .sample [1, 10, 0]) (.unknown [])
    (∃ built, buildMultiblock .sample .mistaken .mistaken message [[1, 10, 0]] none = .ok built) ∧
      buildMultiblockFractal .sample .mistaken .mistaken .sample message [[1, 10, 0]] none =
        .error (.realLengthMismatch 1 0 2) :=
  ⟨⟨([1, 10, 2, 10, 0], {
    parts := [(1, [10, 2]), (2, [])]
    json := [.part 1, .block [1, 10, 0] [1], .part 2]
    wbp := some ([10, 10] ++ blockPointerBytes .sample [1, 10, 0]) }), by rfl⟩, by rfl⟩

end Mistaken

end BeeRpc
