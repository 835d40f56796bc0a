import BeeRpc.Message
import BeeRpc.Reader
import Mathlib.Logic.Function.Basic

namespace BeeRpc

open Wire

-- The block directory as it lies there, whatever has happened to it: any file may have been cut
-- or changed or be missing, and the `_.json` of a directory may be one that json.load refuses.
structure AtRest where
  registry : Registry
  unloadable : BlockId → Bool := fun _ => false

namespace AtRest

variable (env : Enviroment) (rest : AtRest)

-- reader.read_block for bytes alone
def readBlockLoop : Nat → BlockId → Yielded (Bytes ⊕ Block)
  | 0, _ => .raise .recursionLimit
  | fuel + 1, id =>
      match rest.registry.lookup id with
      | none => .raise (.readingBlock id)
      | some (.file content) =>
          -- _verify_single_file_block
          let digest := env.hashFactory content
          if digest ≠ id then .raise (.corruptBlock id digest content.length)
          else .pure ((readFileByChunks content).map .inl)
      | some (.dir directory) =>
          if rest.unloadable id then .raise .fileNotFound
          else readEntries env (fun _ _ => readBlockLoop fuel) directory true 1 directory.json

def readBlock (id : BlockId) : Yielded (Bytes ⊕ Block) :=
  rest.readBlockLoop env (rest.registry.length + 1) id

-- What is left of a directory: a part that is missing is no bytes.
def leftEntries (directory : Directory) (sub : BlockId → Option Bytes) :
    List JsonEntry → Option Bytes
  | [] => some []
  | .part index :: entries => do
      let more ← leftEntries directory sub entries
      return (directory.part index).getD [] ++ more
  | .block id _ :: entries => do
      let content ← sub id
      let more ← leftEntries directory sub entries
      return content ++ more

def leftRule (id : BlockId) (sub : BlockId → Option Bytes) : Option Bytes :=
  match rest.registry.lookup id with
  | none => none
  | some (.file content) => if env.hashFactory content ≠ id then none else some content
  | some (.dir directory) =>
      if rest.unloadable id then none else leftEntries directory sub directory.json

theorem leftEntries_mono (directory : Directory) {sub more : BlockId → Option Bytes}
    (h : ∀ id content, sub id = some content → more id = some content)
    (entries : List JsonEntry) (content : Bytes)
    (hs : leftEntries directory sub entries = some content) :
    leftEntries directory more entries = some content := by
  induction entries generalizing content with
  | nil => exact hs
  | cons entry entries ih =>
      cases entry with
      | part index =>
          simp only [leftEntries, Option.bind_eq_bind, Option.bind_eq_some_iff] at hs ⊢
          obtain ⟨tail, htail, hcontent⟩ := hs
          exact ⟨tail, ih tail htail, hcontent⟩
      | block id positions =>
          simp only [leftEntries, Option.bind_eq_bind, Option.bind_eq_some_iff] at hs ⊢
          obtain ⟨head, hhead, tail, htail, hcontent⟩ := hs
          exact ⟨head, h id head hhead, tail, ih tail htail, hcontent⟩

-- Where everything is there it is all left.
theorem leftEntries_of_expand (directory : Directory) (sub : BlockId → Option Bytes)
    (entries : List JsonEntry) (content : Bytes)
    (h : directory.expandEntries sub entries = some content) :
    leftEntries directory sub entries = some content := by
  induction entries generalizing content with
  | nil => exact h
  | cons entry entries ih =>
      cases entry with
      | part index =>
          obtain ⟨head, more, hhead, hmore, rfl⟩ := Directory.expandEntries_part_eq_some.mp h
          simp only [leftEntries, hhead, ih more hmore]
          rfl
      | block id positions =>
          obtain ⟨head, more, hhead, hmore, rfl⟩ := Directory.expandEntries_block_eq_some.mp h
          simp only [leftEntries, hhead, ih more hmore]
          rfl

-- What is left of the blocks: a file as long as it is what its name says, a directory as long as
-- its entries can be gone through.
def left : Naming.System BlockId Bytes where
  names := rest.registry.map Prod.fst
  rule := rest.leftRule env
  named id sub content h := by
    cases hl : rest.registry.lookup id with
    | none => simp only [leftRule, hl, reduceCtorEq] at h
    | some stored => exact Registry.mem_names_of_lookup hl
  monotone id sub more hsub content h := by
    cases hl : rest.registry.lookup id with
    | none => simp only [leftRule, hl, reduceCtorEq] at h
    | some stored =>
        cases stored with
        | file bytes => simpa only [leftRule, hl] using h
        | dir directory =>
            simp only [leftRule, hl] at h ⊢
            split at h
            · cases h
            · rename_i hloads
              rw [if_neg hloads]
              exact leftEntries_mono directory hsub _ content h

end AtRest

-- The content of what was read to its end.
def Yielded.whole (read : Yielded (Bytes ⊕ Block)) : Option Bytes :=
  match read.raised with
  | some _ => none
  | none => some (contentOf read.items)

section

variable {env : Enviroment} {rest : AtRest}

theorem whole_andThen (first second : Yielded (Bytes ⊕ Block)) :
    (first.andThen second).whole =
      first.whole.bind fun head => second.whole.map fun more => head ++ more := by
  obtain ⟨items, raised⟩ := first
  cases raised with
  | some e => rfl
  | none =>
      obtain ⟨more, raised⟩ := second
      cases raised with
      | some e => rfl
      | none => exact congrArg some (contentOf_append items more)

theorem whole_pieces (content : Bytes) :
    (Yielded.pure ((readFileByChunks content).map Sum.inl) : Yielded (Bytes ⊕ Block)).whole =
      some content := by
  rw [Yielded.whole, Yielded.pure, contentOf_pieces, readFileByChunks_flatten]

theorem readEntries_whole {read : Bool → Nat → BlockId → Yielded (Bytes ⊕ Block)}
    {sub : BlockId → Option Bytes} (h : ∀ id, (read true 1 id).whole = sub id)
    (directory : Directory) (depth : Nat) (entries : List JsonEntry) :
    (readEntries env read directory true depth entries).whole =
      AtRest.leftEntries directory sub entries := by
  induction entries with
  | nil => rfl
  | cons entry entries ih =>
      cases entry with
      | part index =>
          rw [readEntries, whole_andThen, whole_pieces, ih, AtRest.leftEntries]
          cases AtRest.leftEntries directory sub entries <;> rfl
      | block id positions =>
          rw [readEntries, if_pos rfl, whole_andThen, ih, h, AtRest.leftEntries]
          cases sub id with
          | none => rfl
          | some head => cases AtRest.leftEntries directory sub entries <;> rfl

-- As deep as the recursion goes, it reads what is left within as many rounds.
theorem readBlockLoop_whole (fuel : Nat) (id : BlockId) :
    (rest.readBlockLoop env fuel id).whole = (rest.left env).within fuel id := by
  induction fuel generalizing id with
  | zero => rfl
  | succ fuel ih =>
      have hrule : (rest.left env).within (fuel + 1) id =
          rest.leftRule env id ((rest.left env).within fuel) := rfl
      rw [hrule, AtRest.leftRule, AtRest.readBlockLoop]
      cases rest.registry.lookup id with
      | none => rfl
      | some stored =>
          cases stored with
          | file content =>
              simp only
              split
              · rfl
              · exact whole_pieces content
          | dir directory =>
              simp only
              split
              · rfl
              · exact readEntries_whole (fun id => ih id) directory 1 _

theorem readBlock_whole (id : BlockId) : (rest.readBlock env id).whole = (rest.left env).value id := by
  rw [AtRest.readBlock, readBlockLoop_whole]
  have hlength : (rest.left env).names.length = rest.registry.length := List.length_map ..
  cases hvalue : (rest.left env).value id with
  | some content =>
      refine (rest.left env).within_mono (Nat.le_succ _) id content ?_
      rwa [Naming.System.value, hlength] at hvalue
  | none =>
      cases hwithin : (rest.left env).within (rest.registry.length + 1) id with
      | none => rfl
      | some content =>
          rw [(rest.left env).value_of_within _ id content hwithin] at hvalue
          cases hvalue

-- The reader of the other operations is this one where every `_.json` can be loaded.
theorem readBlockLoop_loaded (h : ∀ id, rest.unloadable id = false) (fuel depth : Nat)
    (id : BlockId) :
    rest.readBlockLoop env fuel id = readBlockLoop env rest.registry fuel true depth id := by
  induction fuel generalizing id depth with
  | zero => rfl
  | succ fuel ih =>
      rw [AtRest.readBlockLoop, readBlockLoop]
      cases rest.registry.lookup id with
      | none => rfl
      | some stored =>
          cases stored with
          | file content => rfl
          | dir directory =>
              simp only [h id, Bool.false_eq_true, if_false]
              induction directory.json with
              | nil => rfl
              | cons entry entries ihEntries =>
                  cases entry with
                  | part index => rw [readEntries, readEntries, ihEntries]
                  | block sub positions =>
                      rw [readEntries, readEntries, if_pos rfl, if_pos rfl, ihEntries, ih 1 sub]

theorem readBlock_loaded (h : ∀ id, rest.unloadable id = false) (id : BlockId) :
    rest.readBlock env id = readBlock env rest.registry id :=
  readBlockLoop_loaded h _ 1 id

end

-- The second half of reader.block_exists with is_dir.
def Registry.isMultiblock (registry : Registry) (id : BlockId) : Bool :=
  match registry.lookup id with
  | some (.dir _) => true
  | _ => false

-- What may stand at a path.
inductive Node where
  | file (content : Bytes)
  | directory
  deriving Repr, DecidableEq

abbrev Files := String → Option Node

-- `os.remove` where the path exists; what it raises is caught.
def Files.remove (files : Files) (path : String) : Files :=
  match files path with
  | some (.file _) => Function.update files path none
  | _ => files

-- client.get_hash_from_block with internal_block
def internalHash (block : Block) : Option BlockId :=
  match block.hashes with
  | [hash] => if hash.type = [] then some hash.value else none
  | _ => none

section

variable (env : Enviroment) (parse : ParseBlock)

-- The block that the bytes of a field point to.
def pointedBlock (buffer : Bytes) (inherited : Option (List Bytes)) : Option BlockId :=
  (parse buffer).bind fun parsed =>
    match truthy (blockIdFromPointer env parsed.1 inherited) with
    | some id => some id
    | none => truthy (internalHash parsed.1)

def temporarySibling (directory : String) (random : Nat) : String :=
  directory ++ (".beeblk-" ++ toString random)

-- client.copy_block_if_exists, with the number that randint gives. `writable` says where a file
-- can be made.
def copyBlockIfExists (rest : AtRest) (writable : String → Bool) (buffer : Bytes)
    (directory : String) (inherited : Option (List Bytes)) (random : Nat) (files : Files) :
    Bool × Files :=
  match pointedBlock env parse buffer inherited with
  | none => (false, files)
  | some blockId =>
      let isMultiblock := rest.registry.isMultiblock blockId
      let source := rest.readBlock env blockId
      let tmp := temporarySibling directory random
      if writable tmp && files tmp ≠ some .directory then
        let content := contentOf source.items
        let written : Files := Function.update files tmp (some (.file content))
        if source.raised.isSome then (false, written.remove tmp)
        else if !isMultiblock && env.hashFactory content ≠ blockId then (false, written.remove tmp)
        -- os.replace does not replace a directory by a file
        else if files directory = some .directory then (false, written.remove tmp)
        else (true, Function.update (Function.update written tmp none) directory
          (some (.file content)))
      else (false, files.remove tmp)

-- Where the destination is kept as it was: at most the temporary sibling is gone.
def Files.Kept (files after : Files) (tmp : String) : Prop :=
  ∀ path, after path = files path ∨ path = tmp ∧ after path = none

end

theorem temporarySibling_ne (directory : String) (random : Nat) :
    temporarySibling directory random ≠ directory := by
  intro h
  have hlength := congrArg String.length h
  rw [temporarySibling, String.length_append, String.length_append] at hlength
  have hprefix : ".beeblk-".length = 8 := rfl
  omega

theorem update_kept (files : Files) (tmp : String) :
    files.Kept (Function.update files tmp none) tmp := by
  intro path
  by_cases hpath : path = tmp
  · subst hpath
    exact Or.inr ⟨rfl, Function.update_self ..⟩
  · exact Or.inl (Function.update_of_ne hpath ..)

theorem remove_kept (files : Files) (tmp : String) : files.Kept (files.remove tmp) tmp := by
  cases hnode : files tmp with
  | none => exact fun path => Or.inl (by simp only [Files.remove, hnode])
  | some node =>
      cases node with
      | file content =>
          have hremove : files.remove tmp = Function.update files tmp none := by
            simp only [Files.remove, hnode]
          rw [hremove]
          exact update_kept files tmp
      | directory => exact fun path => Or.inl (by simp only [Files.remove, hnode])

theorem remove_written (files : Files) (tmp : String) (content : Bytes) :
    Files.remove (Function.update files tmp (some (.file content))) tmp =
      Function.update files tmp none := by
  simp only [Files.remove, Function.update_self, Function.update_idem]

theorem whole_eq_none {read : Yielded (Bytes ⊕ Block)} :
    read.whole = none ↔ read.raised.isSome = true := by
  obtain ⟨items, raised⟩ := read
  cases raised <;> simp [Yielded.whole]

theorem whole_eq_some {read : Yielded (Bytes ⊕ Block)} {content : Bytes} :
    read.whole = some content ↔ read.raised.isSome = false ∧ contentOf read.items = content := by
  obtain ⟨items, raised⟩ := read
  cases raised <;> simp [Yielded.whole]

section

variable (env : Enviroment) (parse : ParseBlock) (rest : AtRest) (writable : String → Bool)
  (buffer : Bytes) (directory : String) (inherited : Option (List Bytes)) (random : Nat)
  (files : Files)

-- What it does with a pointer, by what is left of the block.
theorem copyBlockIfExists_eq {id : BlockId}
    (hpointed : pointedBlock env parse buffer inherited = some id) :
    copyBlockIfExists env parse rest writable buffer directory inherited random files =
      let tmp := temporarySibling directory random
      if writable tmp && files tmp ≠ some .directory then
        match (rest.left env).value id with
        | none => (false, Function.update files tmp none)
        | some content =>
            if !rest.registry.isMultiblock id && env.hashFactory content ≠ id then
              (false, Function.update files tmp none)
            else if files directory = some .directory then (false, Function.update files tmp none)
            else (true, Function.update (Function.update files tmp none) directory
              (some (.file content)))
      else (false, files.remove tmp) := by
  simp only [copyBlockIfExists, hpointed, remove_written, Function.update_idem]
  congr 1
  cases hvalue : (rest.left env).value id with
  | none =>
      rw [← readBlock_whole, whole_eq_none] at hvalue
      rw [if_pos hvalue]
  | some content =>
      rw [← readBlock_whole, whole_eq_some] at hvalue
      rw [hvalue.1, hvalue.2, if_neg Bool.false_ne_true]

-- The destination holds what the pointer names, or it is as it was and nothing is left beside it.
structure FailsClosed (outcome : Bool × Files) : Prop where
  published : outcome.1 = true → ∃ id content, pointedBlock env parse buffer inherited = some id ∧
    outcome.2 directory = some (.file content) ∧ env.hashFactory content = id
  kept : outcome.1 = false → outcome.2 directory = files directory ∧
    files.Kept outcome.2 (temporarySibling directory random)

theorem failsClosed_of_kept {after : Files}
    (h : files.Kept after (temporarySibling directory random)) :
    FailsClosed env parse buffer directory inherited random files (false, after) where
  published h := by cases h
  kept _ := ⟨(h directory).resolve_right fun hpath => temporarySibling_ne directory random hpath.1.symm, h⟩

theorem failsClosed_published {id : BlockId} {content : Bytes} {after : Files}
    (hpointed : pointedBlock env parse buffer inherited = some id)
    (hafter : after directory = some (.file content)) :
    FailsClosed env parse buffer directory inherited random files (true, after) ↔
      env.hashFactory content = id := by
  constructor
  · intro h
    obtain ⟨other, found, hother, hfound, hdigest⟩ := h.published rfl
    rw [hpointed] at hother
    have hfound := hafter.symm.trans hfound
    obtain rfl := Option.some.inj hother
    obtain rfl := Node.file.inj (Option.some.inj hfound)
    exact hdigest
  · exact fun h => ⟨fun _ => ⟨id, content, hpointed, hafter, h⟩, fun hfalse => by cases hfalse⟩

-- A directory block whose `_.json` can be loaded and whose blocks can be read though it is no
-- longer what its name says, and nothing that keeps it from being put in the destination's place.
def Unchecked (id : BlockId) : Prop :=
  (rest.registry.isMultiblock id = true ∧
      ∃ content, (rest.left env).value id = some content ∧ env.hashFactory content ≠ id) ∧
    (writable (temporarySibling directory random) = true ∧
      files (temporarySibling directory random) ≠ some .directory) ∧
    files directory ≠ some .directory

-- It fails closed exactly where no such directory block is pointed to.
theorem copyBlockIfExists_failsClosed_iff :
    FailsClosed env parse buffer directory inherited random files
        (copyBlockIfExists env parse rest writable buffer directory inherited random files) ↔
      ∀ id, pointedBlock env parse buffer inherited = some id →
        ¬ Unchecked env rest writable directory random files id := by
  cases hpointed : pointedBlock env parse buffer inherited with
  | none =>
      have houtcome : copyBlockIfExists env parse rest writable buffer directory inherited random
          files = (false, files) := by simp only [copyBlockIfExists, hpointed]
      rw [houtcome]
      refine iff_of_true (failsClosed_of_kept _ _ _ _ _ _ _ fun path => Or.inl rfl) ?_
      exact fun id h => by cases h
  | some id =>
      have hkept := failsClosed_of_kept env parse buffer directory inherited random files
        (update_kept files (temporarySibling directory random))
      rw [copyBlockIfExists_eq env parse rest writable buffer directory inherited random files
        hpointed]
      simp only [Option.some.injEq, forall_eq', Unchecked]
      by_cases hopens : (writable (temporarySibling directory random) &&
          files (temporarySibling directory random) ≠ some .directory) = true
      · rw [if_pos hopens]
        simp only [ne_eq, Bool.and_eq_true, decide_eq_true_eq] at hopens
        cases hleft : (rest.left env).value id with
        | none => exact iff_of_true hkept fun ⟨⟨_, _, h, _⟩, _⟩ => by cases h
        | some content =>
            simp only [Option.some.injEq, exists_eq_left']
            by_cases hrefused : (!rest.registry.isMultiblock id &&
                decide (env.hashFactory content ≠ id)) = true
            · rw [if_pos hrefused]
              refine iff_of_true hkept fun h => ?_
              simp [h.1.1] at hrefused
            · rw [if_neg hrefused]
              by_cases hdirectory : files directory = some .directory
              · rw [if_pos hdirectory]
                exact iff_of_true hkept fun h => h.2.2 hdirectory
              · rw [if_neg hdirectory, failsClosed_published _ _ _ _ _ _ _ hpointed
                  (Function.update_self ..)]
                constructor
                · exact fun hdigest h => h.1.2 hdigest
                · intro h
                  by_contra hdigest
                  refine h ⟨⟨?_, hdigest⟩, hopens, hdirectory⟩
                  simpa [hdigest] using hrefused
      · rw [if_neg hopens]
        refine iff_of_true (failsClosed_of_kept _ _ _ _ _ _ _ (remove_kept files _)) fun h => ?_
        simp only [ne_eq, Bool.and_eq_true, decide_eq_true_eq] at hopens
        exact hopens h.2.1

end

-- The directory block of the sample registry without its first part file.
def AtRest.missingPart : AtRest where
  registry := [([1, 5, 6], .file [5, 6]),
    ([1, 10, 2, 5, 6], .dir {
      parts := [(2, [])]
      json := [.part 1, .block [1, 5, 6] [1], .part 2] })]

-- It is taken for the block all the same.
theorem copyBlockIfExists_missing_part :
    let pointer := blockPointerBytes .sample [1, 10, 2, 5, 6]
    let parse : ParseBlock := fun buffer =>
      if buffer = pointer then some (blockPointer .sample [1, 10, 2, 5, 6], buffer.length) else none
    let outcome := copyBlockIfExists .sample parse .missingPart (fun _ => true) pointer "out" none 7
      fun _ => none
    outcome.1 = true ∧ outcome.2 "out" = some (.file [5, 6]) ∧
      Enviroment.sample.hashFactory [5, 6] ≠ [1, 10, 2, 5, 6] ∧
      ¬ FailsClosed .sample parse pointer "out" none 7 (fun _ => none) outcome := by
  intro pointer parse outcome
  have htrue : outcome.1 = true := by decide
  have hout : outcome.2 "out" = some (.file [5, 6]) := by decide
  refine ⟨htrue, hout, by decide, fun h => ?_⟩
  have hpointed : pointedBlock .sample parse pointer none = some [1, 10, 2, 5, 6] := by decide
  have hdigest := (failsClosed_published .sample parse pointer "out" none 7 _ hpointed hout).mp
    (by rw [← htrue]; exact h)
  exact absurd hdigest (by decide)

end BeeRpc
