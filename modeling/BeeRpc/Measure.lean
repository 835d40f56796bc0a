import BeeRpc.Registry

namespace BeeRpc

open Wire

-- An entry of a file list: a part file of some directory, `none` where the file is
-- missing, or a block by its name.
inductive Path where
  | part (content : Option Bytes)
  | block (id : BlockId)
  deriving Repr, DecidableEq

def Directory.path (directory : Directory) : JsonEntry → Path
  | .part index => .part (directory.part index)
  | .block id _ => .block id

-- utils.entries_of_multiblock_directory
def Directory.paths (directory : Directory) : List Path := directory.json.map directory.path

-- The sum that utils.getsize makes over a `_.json`.
def sizeOfEntries (directory : Directory) (blockLength : BlockId → Except Err Nat) :
    List JsonEntry → Except Err Nat
  | [] => .ok 0
  | .part index :: rest =>
      match directory.part index with
      | none => .error .fileNotFound
      | some content => do
          let more ← sizeOfEntries directory blockLength rest
          return content.length + more
  | .block id _ :: rest => do
      let length ← blockLength id
      let more ← sizeOfEntries directory blockLength rest
      return length + more

-- `seen` holds the blocks around this one. Each is another name of the registry, so
-- with as much fuel as there are names the fuel never ends the recursion.
def expandedLengthLoop (registry : Registry) : Nat → List BlockId → BlockId → Except Err Nat
  | 0, seen, id =>
      if id ∈ seen then .error (.recursiveLoop id) else
        match registry.lookup id with
        | none => .error .fileNotFound
        | some (.file content) => .ok content.length
        | some (.dir _) => .error .recursionLimit
  | fuel + 1, seen, id =>
      if id ∈ seen then .error (.recursiveLoop id) else
        match registry.lookup id with
        | none => .error .fileNotFound
        | some (.file content) => .ok content.length
        | some (.dir directory) =>
            sizeOfEntries directory (expandedLengthLoop registry fuel (id :: seen)) directory.json

def getExpandedBlockLength (registry : Registry) (id : BlockId) : Except Err Nat :=
  expandedLengthLoop registry registry.length [] id

def getPrunedBlockLength (registry : Registry) (id : BlockId) (pointerLength : Nat) :
    Except Err Int := do
  let length ← getExpandedBlockLength registry id
  return length - pointerLength

def getsize (registry : Registry) : Path → Except Err Nat
  | .part content => .ok (content.getD []).length
  | .block id =>
      match registry.lookup id with
      | none => .ok 0
      | some (.file content) => .ok content.length
      | some (.dir directory) =>
          sizeOfEntries directory (getExpandedBlockLength registry) directory.json

-- The walk of utils.seek_expanded_position over one file list. A file that has a
-- byte at the position is there, so `[]` is never read in place of a missing part.
def seekEntries (size : Path → Except Err Nat) (enter : BlockId → Nat → Except Err (Bytes × Nat))
    (position : Nat) : Nat → List Path → Except Err (Bytes × Nat)
  | _, [] => .error (.outOfBufferRange position)
  | remaining, path :: rest => do
      let length ← size path
      if remaining < length then
        match path with
        | .part content => return (content.getD [], remaining)
        | .block id => enter id remaining
      else seekEntries size enter position (remaining - length) rest

def seekLoop (registry : Registry) : Nat → Nat → List Path → Except Err (Bytes × Nat)
  | 0, _, _ => .error .recursionLimit
  | fuel + 1, position, fileList =>
      seekEntries (getsize registry)
        (fun id remaining =>
          match registry.lookup id with
          | none => .error .fileNotFound
          | some (.file content) => .ok (content, remaining)
          | some (.dir directory) => seekLoop registry fuel remaining directory.paths)
        position position fileList

-- utils.seek_expanded_position, with the content of the file in place of its path. Only
-- a directory that has been measured is entered, and each lies inside the one before.
def seekExpandedPosition (registry : Registry) (position : Nat) (fileList : List Path) :
    Except Err (Bytes × Nat) :=
  seekLoop registry (registry.length + 1) position fileList

def getVarintAtPosition (registry : Registry) (position : Nat) (fileList : List Path) :
    Except Err Nat := do
  let (content, offset) ← seekExpandedPosition registry position fileList
  return Varint.decodeUpToEnd (content.drop offset)

theorem sizeOfEntries_of_expand (directory : Directory) (sub : BlockId → Option Bytes)
    (blockLength : BlockId → Except Err Nat)
    (h : ∀ id content, sub id = some content → blockLength id = .ok content.length)
    (entries : List JsonEntry) (content : Bytes)
    (hc : directory.expandEntries sub entries = some content) :
    sizeOfEntries directory blockLength entries = .ok content.length := by
  induction entries generalizing content with
  | nil =>
      obtain rfl := Option.some.inj hc
      rfl
  | cons entry rest ih =>
      cases entry with
      | part index =>
          obtain ⟨head, more, hhead, hmore, rfl⟩ := Directory.expandEntries_part_eq_some.mp hc
          simp only [sizeOfEntries, hhead, ih more hmore, List.length_append, ok_bind, pure_ok]
      | block id positions =>
          obtain ⟨head, more, hhead, hmore, rfl⟩ := Directory.expandEntries_block_eq_some.mp hc
          simp only [sizeOfEntries, h id head hhead, ih more hmore, List.length_append, ok_bind,
            pure_ok]

-- A block around this one is not among those whose values come as early: no block
-- that expands is met inside itself.
theorem expandedLengthLoop_of_within (registry : Registry) (n : Nat) :
    ∀ fuel seen id content, n ≤ fuel → registry.contents.within n id = some content →
      (∀ other ∈ seen, registry.contents.within n other = none) →
      expandedLengthLoop registry fuel seen id = .ok content.length := by
  induction n with
  | zero => intro fuel seen id content _ hc; simp [Naming.System.within] at hc
  | succ n ih =>
      intro fuel seen id content hfuel hc hseen
      have hearlier : ∀ other ∈ seen, registry.contents.within n other = none := by
        intro other ho
        cases hw : registry.contents.within n other with
        | none => rfl
        | some value =>
            have := registry.contents.within_succ n other value hw
            rw [hseen other ho] at this
            cases this
      cases hw : registry.contents.within n id with
      | some value =>
          have : value = content :=
            Option.some.inj ((registry.contents.within_succ n id value hw).symm.trans hc)
          subst this
          exact ih fuel seen id value (by omega) hw hearlier
      | none =>
          have hnot : id ∉ seen := by
            intro hm
            rw [hseen id hm] at hc
            cases hc
          obtain ⟨fuel, rfl⟩ : ∃ m, fuel = m + 1 := ⟨fuel - 1, by omega⟩
          simp only [expandedLengthLoop, if_neg hnot]
          cases hl : registry.lookup id with
          | none =>
              rw [Registry.within_missing hl] at hc
              cases hc
          | some stored =>
              cases stored with
              | file bytes =>
                  rw [Registry.within_file hl] at hc
                  obtain rfl := Option.some.inj hc
                  rfl
              | dir directory =>
                  rw [Registry.within_dir hl] at hc
                  refine sizeOfEntries_of_expand directory _ _ ?_ _ content hc
                  intro sub bytes hsub
                  refine ih fuel (id :: seen) sub bytes (by omega) hsub ?_
                  intro other ho
                  rcases List.mem_cons.mp ho with rfl | ho
                  · exact hw
                  · exact hearlier other ho

theorem getExpandedBlockLength_of_expansion {registry : Registry} {id : BlockId}
    {content : Bytes} (h : registry.expansion id = some content) :
    getExpandedBlockLength registry id = .ok content.length :=
   expandedLengthLoop_of_within registry _ _ [] id content (Nat.le_refl _)
    (Registry.within_length h) (by simp)

theorem expand_of_sizeOfEntries (directory : Directory) (sub : BlockId → Option Bytes)
    (blockLength : BlockId → Except Err Nat)
    (h : ∀ id n, blockLength id = .ok n → ∃ content, sub id = some content)
    (entries : List JsonEntry) (n : Nat) (hn : sizeOfEntries directory blockLength entries = .ok n) :
    ∃ content, directory.expandEntries sub entries = some content := by
  induction entries generalizing n with
  | nil => exact ⟨[], rfl⟩
  | cons entry rest ih =>
      cases entry with
      | part index =>
          simp only [sizeOfEntries] at hn
          cases hp : directory.part index with
          | none => rw [hp] at hn; cases hn
          | some head =>
              rw [hp] at hn
              obtain ⟨m, hm, _⟩ := bind_eq_ok.mp hn
              obtain ⟨more, hmore⟩ := ih m hm
              exact ⟨_, Directory.expandEntries_part_eq_some.mpr ⟨head, more, hp, hmore, rfl⟩⟩
      | block id positions =>
          simp only [sizeOfEntries] at hn
          obtain ⟨length, hlength, hn⟩ := bind_eq_ok.mp hn
          obtain ⟨m, hm, _⟩ := bind_eq_ok.mp hn
          obtain ⟨head, hhead⟩ := h id length hlength
          obtain ⟨more, hmore⟩ := ih m hm
          exact ⟨_, Directory.expandEntries_block_eq_some.mpr ⟨head, more, hhead, hmore, rfl⟩⟩

-- Only what is all there can be measured.
theorem within_of_expandedLengthLoop (registry : Registry) (fuel : Nat) : ∀ seen id n,
    expandedLengthLoop registry fuel seen id = .ok n →
      ∃ content, registry.contents.within (fuel + 1) id = some content := by
  induction fuel with
  | zero =>
      intro seen id n h
      simp only [expandedLengthLoop] at h
      split at h
      · cases h
      · cases hl : registry.lookup id with
        | none => simp only [hl, reduceCtorEq] at h
        | some stored =>
            cases stored with
            | file content => exact ⟨content, Registry.within_file hl 0⟩
            | dir directory => simp only [hl, reduceCtorEq] at h
  | succ fuel ih =>
      intro seen id n h
      simp only [expandedLengthLoop] at h
      split at h
      · cases h
      · cases hl : registry.lookup id with
        | none => simp only [hl, reduceCtorEq] at h
        | some stored =>
            cases stored with
            | file content => exact ⟨content, Registry.within_file hl _⟩
            | dir directory =>
                simp only [hl] at h
                rw [Registry.within_dir hl]
                exact expand_of_sizeOfEntries directory _ _ (fun sub m hm => ih _ sub m hm) _ n h

theorem expansion_of_getExpandedBlockLength {registry : Registry} {id : BlockId} {n : Nat}
    (h : getExpandedBlockLength registry id = .ok n) :
    ∃ content, registry.expansion id = some content := by
  obtain ⟨content, hc⟩ := within_of_expandedLengthLoop registry _ _ id n h
  exact ⟨content, registry.contents.value_of_within _ id content hc⟩

theorem getPrunedBlockLength_of_expansion {registry : Registry} {id : BlockId}
    {content : Bytes} (h : registry.expansion id = some content) (pointerLength : Nat) :
    getPrunedBlockLength registry id pointerLength = .ok (content.length - pointerLength) := by
  simp only [getPrunedBlockLength, getExpandedBlockLength_of_expansion h, ok_bind, pure_ok]

theorem getsize_of_expansion {registry : Registry} {id : BlockId} {content : Bytes}
    (h : registry.expansion id = some content) :
    getsize registry (.block id) = .ok content.length := by
  obtain ⟨stored, hl⟩ := Registry.exists_lookup_of_expansion h
  cases stored with
  | file bytes =>
      rw [Registry.expansion_file hl] at h
      obtain rfl := Option.some.inj h
      simp only [getsize, hl]
  | dir directory =>
      rw [Registry.expansion_dir hl] at h
      simp only [getsize, hl]
      exact sizeOfEntries_of_expand directory _ _
        (fun _ _ => getExpandedBlockLength_of_expansion) _ content h

-- The contents of a file list, its parts spelled out.
def Path.ofRun : Bytes ⊕ BlockId → Path
  | .inl content => .part (some content)
  | .inr id => .block id

theorem getsize_ofRun {registry : Registry} {fill : BlockId → Bytes} (run : Bytes ⊕ BlockId)
    (h : ∀ id, run = .inr id → registry.expansion id = some (fill id)) :
    getsize registry (Path.ofRun run) = .ok (run.elim id fill).length := by
  cases run with
  | inl content => rfl
  | inr id => exact getsize_of_expansion (h id rfl)

theorem seekEntries_run {registry : Registry} {fill : BlockId → Bytes}
    (enter : BlockId → Nat → Except Err (Bytes × Nat)) (position : Nat)
    (left right : List (Bytes ⊕ BlockId)) (content : Bytes) (offset : Nat)
    (hleft : ∀ id, .inr id ∈ left → registry.expansion id = some (fill id))
    (hoffset : offset < content.length) :
    seekEntries (getsize registry) enter position
      ((left.flatMap fun run => run.elim id fill).length + offset)
      ((left ++ .inl content :: right).map Path.ofRun) = .ok (content, offset) := by
  induction left with
  | nil =>
      simp only [List.flatMap_nil, List.length_nil, Nat.zero_add, List.nil_append, List.map_cons,
        seekEntries, Path.ofRun, getsize, Option.getD_some]
      exact if_pos hoffset
  | cons run left ih =>
      have hrun := getsize_ofRun run fun id he => hleft id (he ▸ List.mem_cons_self ..)
      have hrest := ih fun id hm => hleft id (List.mem_cons_of_mem _ hm)
      simp only [List.flatMap_cons, List.length_append, List.cons_append, List.map_cons,
        seekEntries, hrun, ok_bind]
      rw [if_neg (by omega)]
      convert hrest using 2
      omega

-- Inside a part, whatever the blocks before it expand to, the read is in that part.
theorem getVarintAtPosition_run {registry : Registry} {fill : BlockId → Bytes}
    (left right : List (Bytes ⊕ BlockId)) (front back : Bytes) {raw : Bytes} {value : Nat}
    (hraw : Varint.States raw value)
    (hleft : ∀ id, .inr id ∈ left → registry.expansion id = some (fill id)) :
    getVarintAtPosition registry
      ((left.flatMap fun run => run.elim id fill).length + front.length)
      ((left ++ .inl (front ++ raw ++ back) :: right).map Path.ofRun) = .ok value := by
  have hlt : front.length < (front ++ raw ++ back).length := by
    have := hraw.length_pos
    simp only [List.length_append]
    omega
  simp only [getVarintAtPosition, seekExpandedPosition, seekLoop]
  rw [seekEntries_run _ _ left right _ _ hleft hlt]
  simp only [ok_bind, pure_ok, List.append_assoc, List.drop_left, hraw.decodeUpToEnd]

end BeeRpc
