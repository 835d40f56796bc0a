import BeeRpc.Buffer
import Mathlib.Data.List.Basic

namespace BeeRpc

open Wire

-- What `modify_env` sets. A hasher is what it has been fed: `hashFactory` is the digest
-- of those bytes, any function of them.
structure Enviroment where
  hashFactory : Bytes → Bytes
  blockDepth : Nat := 1
  skipWbpGeneration : Bool := false

namespace Enviroment

variable (env : Enviroment)

-- The identifier of an algorithm is the algorithm over the empty input.
def hashType : Bytes := env.hashFactory []

-- An algorithm to run examples with, which tells all contents apart.
def sample : Enviroment := { hashFactory := fun content => 1 :: content }

-- No algorithm has an empty digest.
def Digests : Prop := ∀ content, env.hashFactory content ≠ []

end Enviroment

def resolveLoop (inherited : List Bytes) : Nat → List Hash → Except Err (List Bytes)
  | _, [] => .ok []
  | index, hash :: rest => do
      let type ←
        if hash.type ≠ [] then .ok hash.type
        else match inherited[index]? with
          | some type =>
              if type ≠ [] then .ok type
              else .error (.undeducibleHashType index inherited.length)
          | none => .error (.undeducibleHashType index inherited.length)
      let types ← resolveLoop inherited (index + 1) rest
      return type :: types

def resolveHashTypes (block : Block) (inherited : Option (List Bytes) := none) :
    Except Err (List Bytes) :=
  resolveLoop (inherited.getD []) 0 block.hashes

section

variable (env : Enviroment)

def blockIdFromPointer (block : Block) (inherited : Option (List Bytes) := none) :
    Option BlockId :=
  match resolveHashTypes block inherited with
  | .error _ => none
  | .ok types =>
      ((block.hashes.zip types).find? fun entry => entry.2 = env.hashType).map (·.1.value)

-- client.get_hash_from_block, as the stream asks it: no types are inherited there.
def getHashFromBlock (block : Block) : Option BlockId :=
  (block.hashes.find? fun hash => hash.type = env.hashType).map (·.value)

def blockPointer (id : BlockId) (omitTypes : Bool := false) : Block where
  hashes := [{ type := if omitTypes then [] else env.hashType, value := id }]
  previousLengthsPosition := []

def blockPointerBytes (id : BlockId) (omitTypes : Bool := false) : Bytes :=
  (blockPointer env id omitTypes).serializeToString

def blockPointerLength (id : BlockId) (omitTypes : Bool := false) : Nat :=
  (blockPointerBytes env id omitTypes).length

end

-- An empty hash value is as good as none: `if block_hash` is false for both.
def truthy (id : Option BlockId) : Option BlockId := id.filter (· ≠ [])

theorem truthy_eq_some {id : Option BlockId} {value : BlockId} :
    truthy id = some value ↔ id = some value ∧ value ≠ [] := by
  cases id with
  | none => simp [truthy]
  | some id =>
      by_cases h : id = []
      · subst h
        simp only [truthy, Option.filter_some]
        constructor
        · intro he
          simp at he
        · rintro ⟨he, hv⟩
          exact absurd (Option.some.inj he).symm hv
      · simp only [truthy, Option.filter_some, decide_true, h, ne_eq, not_false_eq_true, ite_true]
        constructor
        · intro he
          exact ⟨he, Option.some.inj he ▸ h⟩
        · exact fun he => he.1

-- Where every hash states its type, the types are the stated ones.
theorem resolveLoop_stated (inherited : List Bytes) (index : Nat) (hashes : List Hash)
    (types : List Bytes) (hall : ∀ hash ∈ hashes, hash.type ≠ [] ∨ inherited = [])
    (hok : resolveLoop inherited index hashes = .ok types) : types = hashes.map (·.type) := by
  induction hashes generalizing index types with
  | nil =>
      simp only [resolveLoop, Except.ok.injEq] at hok
      simp [← hok]
  | cons hash rest ih =>
      by_cases ht : hash.type = []
      · have hnone : inherited = [] := (hall hash (by simp)).resolve_left (fun h => h ht)
        subst hnone
        simp [resolveLoop, ht, bind, Except.bind] at hok
      · simp only [resolveLoop, ht, ne_eq, not_false_eq_true, ite_true, bind, Except.bind] at hok
        split at hok
        · cases hok
        · rename_i more hmore
          have hrest := ih (index + 1) more (fun h hm => hall h (List.mem_cons_of_mem _ hm)) hmore
          simp only [pure, Except.pure, Except.ok.injEq] at hok
          simp [← hok, hrest]

theorem find_zip_map {α β : Type} (l : List α) (f : α → β) (p : β → Bool) :
    ((l.zip (l.map f)).find? fun entry => p entry.2).map Prod.fst = l.find? fun a => p (f a) := by
  induction l with
  | nil => rfl
  | cons a l ih =>
      simp only [List.map_cons, List.zip_cons_cons, List.find?_cons]
      cases p (f a) <;> simp [ih]

section

variable (env : Enviroment)

-- Without a context the two resolvers agree wherever the first one answers.
theorem getHashFromBlock_of_pointer (block : Block) (id : BlockId)
    (h : blockIdFromPointer env block none = some id) : getHashFromBlock env block = some id := by
  simp only [blockIdFromPointer] at h
  split at h
  · simp at h
  · rename_i types htypes
    have hstated := resolveLoop_stated [] 0 block.hashes types (fun _ _ => Or.inr rfl) htypes
    subst hstated
    have hz := find_zip_map block.hashes (·.type) (fun type => decide (type = env.hashType))
    simp only [getHashFromBlock, ← hz, Option.map_map]
    exact h

theorem blockIdFromPointer_blockPointer (hd : env.Digests) (id : BlockId)
    (positions : List Nat) :
    blockIdFromPointer env
      { blockPointer env id with previousLengthsPosition := positions } none = some id := by
  have hne : env.hashType ≠ [] := hd []
  simp [blockIdFromPointer, resolveHashTypes, resolveLoop, blockPointer, hne, bind, Except.bind,
    pure, Except.pure]

theorem getHashFromBlock_blockPointer (hd : env.Digests) (id : BlockId) (positions : List Nat) :
    getHashFromBlock env
      { blockPointer env id with previousLengthsPosition := positions } = some id :=
  getHashFromBlock_of_pointer env _ id (blockIdFromPointer_blockPointer env hd id positions)

end

end BeeRpc
