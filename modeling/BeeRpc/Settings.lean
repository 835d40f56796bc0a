import BeeRpc.Registry
import BeeRpc.Naming.Dict
import BeeRpc.Effect.Outcome
import Mathlib.Logic.Function.Basic

namespace BeeRpc

open Wire Naming Effect

-- What `factory()` makes of a content that it is fed.
abbrev HashFactory := Bytes → Bytes

-- utils._HASH_ALGORITHMS
abbrev HashAlgorithms := Dict Bytes HashFactory

def hashTypeOf (factory : HashFactory) : Bytes := factory []

-- What is raised by the functions that have to do with a process's own settings and blocks.
inductive HostErr where
  -- utils.hasher_for: HashTypeError
  | unknownHashType (hashType : Bytes)
  -- open of a file that is not there
  | fileNotFound
  -- move_to_block_dir and copy_to_block_dir, around what a file operation raises
  | creatingBlock
  -- block_builder.create_block
  | couldNotBeMoved
  deriving Repr, DecidableEq

def registerHashAlgorithm (factory : HashFactory) (algorithms : HashAlgorithms) : HashAlgorithms :=
  Dict.set (hashTypeOf factory) factory algorithms

def hasherFor (algorithms : HashAlgorithms) (hashType : Bytes) : Except HostErr HashFactory :=
  match algorithms.lookup hashType with
  | some factory => .ok factory
  | none => .error (.unknownHashType hashType)

-- The class attributes of Enviroment, `μ` being what a memory manager is.
structure Settings (μ : Type) where
  cacheDir : String
  blockDir : String
  blockDepth : Nat := 1
  skipWbpGeneration : Bool := false
  memManager : μ
  hashFactory : HashFactory
  hashType : Bytes

def Settings.env {μ : Type} (settings : Settings μ) : Enviroment where
  hashFactory := settings.hashFactory
  blockDepth := settings.blockDepth
  skipWbpGeneration := settings.skipWbpGeneration

-- A process with what it finds on the disk: the directories of blocks and the other files.
structure Host (μ : Type) where
  settings : Settings μ
  algorithms : HashAlgorithms
  dirs : String → Option Registry
  files : String → Option Bytes

abbrev HostM (μ : Type) := EStateM HostErr (Host μ)

-- The arguments of modify_env.
structure EnvArgs (μ : Type) where
  cacheDir : Option String := none
  memManager : Option μ := none
  hashType : Option Bytes := none
  hashFactory : Option HashFactory := none
  blockDepth : Option Nat := none
  blockDir : Option String := none
  skipWbpGeneration : Bool := false

-- `if value:`, where an empty value is as good as None.
def given {α : Type} [DecidableEq α] (empty : α) (value : Option α) : Option α :=
  value.filter (· ≠ empty)

section

variable {μ : Type}

-- The algorithm that the arguments name: one that they bring is registered, one that they
-- only give the type of must be.
def selectAlgorithm (args : EnvArgs μ) : HostM μ (Option HashFactory) :=
  match args.hashFactory with
  | some factory => do
      modify fun n => { n with algorithms := registerHashAlgorithm factory n.algorithms }
      return some factory
  | none =>
      match given [] args.hashType with
      | some hashType => do
          let n ← get
          match hasherFor n.algorithms hashType with
          | .ok factory => return some factory
          | .error e => throw e
      | none => return none

-- With another algorithm the blocks that are there can no longer be named.
def useAlgorithm (factory : HashFactory) : HostM μ Unit := modify fun n =>
  if hashTypeOf factory ≠ n.settings.hashType then
    { n with
      settings := { n.settings with hashFactory := factory, hashType := hashTypeOf factory }
      dirs := Function.update n.dirs n.settings.blockDir none }
  else n

def modifyEnv (args : EnvArgs μ) : HostM μ Unit := do
  modify fun n =>
    { n with
      settings :=
        { n.settings with
          cacheDir := ((given "" args.cacheDir).map (· ++ "grpcbigbuffer/")).getD n.settings.cacheDir
          memManager := args.memManager.getD n.settings.memManager } }
  match ← selectAlgorithm args with
  | some factory => useAlgorithm factory
  | none => pure ()
  modify fun n =>
    { n with
      settings :=
        { n.settings with
          blockDepth := (given 0 args.blockDepth).getD n.settings.blockDepth
          blockDir := (given "" args.blockDir).getD n.settings.blockDir
          skipWbpGeneration := args.skipWbpGeneration } }

namespace Host

variable (n : Host μ)

-- The blocks in `Enviroment.block_dir`, if that is there.
def registry? : Option Registry := n.dirs n.settings.blockDir

def blockExists (id : BlockId) : Bool := (n.registry?.getD []).blockExists id

-- What a type is registered under is its own.
structure Typed : Prop where
  hashType : n.settings.hashType = hashTypeOf n.settings.hashFactory
  labelled : ∀ hashType factory, n.algorithms.lookup hashType = some factory →
    hashTypeOf factory = hashType
  registered : ∃ factory, n.algorithms.lookup n.settings.hashType = some factory

-- The blocks in use are under the names that the algorithm in use gives them.
def Addressed : Prop :=
  ∀ registry, n.registry? = some registry → registry.ContentAddressed n.settings.env

end Host

namespace EnvArgs

variable (args : EnvArgs μ) (n : Host μ)

-- The algorithm that the arguments name, if any.
def named : Except HostErr (Option HashFactory) :=
  match args.hashFactory, given [] args.hashType with
  | some factory, _ => .ok (some factory)
  | none, some hashType => (hasherFor n.algorithms hashType).map some
  | none, none => .ok none

-- Whether they are another algorithm's, and which one is used from then on.
def changes : Bool :=
  match args.named n with
  | .ok (some factory) => decide (hashTypeOf factory ≠ n.settings.hashType)
  | _ => false

def algorithm : HashFactory :=
  match args.named n with
  | .ok (some factory) =>
      if hashTypeOf factory ≠ n.settings.hashType then factory else n.settings.hashFactory
  | _ => n.settings.hashFactory

end EnvArgs

variable {n : Host μ}

theorem lookup_register (factory : HashFactory) (algorithms : HashAlgorithms) (hashType : Bytes) :
    (registerHashAlgorithm factory algorithms).lookup hashType =
      if hashType = hashTypeOf factory then some factory else algorithms.lookup hashType :=
  Dict.lookup_set ..

-- A new algorithm takes its own type, and leaves the others theirs.
theorem Host.Typed.register (h : n.Typed) (factory : HashFactory) :
    Host.Typed { n with algorithms := registerHashAlgorithm factory n.algorithms } := by
  refine ⟨h.hashType, fun hashType other hl => ?_, ?_⟩
  · rw [lookup_register] at hl
    split at hl
    · rename_i heq
      obtain rfl := Option.some.inj hl
      exact heq.symm
    · exact h.labelled hashType other hl
  · simp only [lookup_register]
    split
    · exact ⟨factory, rfl⟩
    · exact h.registered

theorem selectAlgorithm_ends (args : EnvArgs μ) (h : n.Typed) :
    Ends (selectAlgorithm args) n
      (fun factory n' => args.named n = .ok factory ∧ n'.settings = n.settings ∧ n'.dirs = n.dirs ∧
        n'.files = n.files ∧ n'.Typed ∧
        ∀ chosen, factory = some chosen → ∃ own, n'.algorithms.lookup (hashTypeOf chosen) = some own)
      fun e n' => args.named n = .error e ∧ n' = n := by
  unfold selectAlgorithm EnvArgs.named
  cases hfactory : args.hashFactory with
  | some factory =>
      refine ⟨rfl, rfl, rfl, rfl, h.register factory, ?_⟩
      rintro chosen hchosen
      obtain rfl := Option.some.inj hchosen
      exact ⟨factory, by rw [lookup_register, if_pos rfl]⟩
  | none =>
      cases htype : given [] args.hashType with
      | none => exact ⟨rfl, rfl, rfl, rfl, h, fun chosen hchosen => by cases hchosen⟩
      | some hashType =>
          simp only [ends_bind, ends_get, hasherFor]
          cases hl : n.algorithms.lookup hashType with
          | none => exact ⟨rfl, rfl⟩
          | some factory =>
              refine ⟨rfl, rfl, rfl, rfl, h, ?_⟩
              rintro chosen hchosen
              obtain rfl := Option.some.inj hchosen
              rw [h.labelled hashType factory hl]
              exact ⟨factory, hl⟩

theorem useAlgorithm_changes {factory : HashFactory}
    (h : hashTypeOf factory ≠ n.settings.hashType) : useAlgorithm factory n = .ok ⟨⟩
      { n with
        settings := { n.settings with hashFactory := factory, hashType := hashTypeOf factory }
        dirs := Function.update n.dirs n.settings.blockDir none } :=
  congrArg (EStateM.Result.ok PUnit.unit) (if_pos h)

theorem useAlgorithm_keeps {factory : HashFactory}
    (h : ¬ hashTypeOf factory ≠ n.settings.hashType) : useAlgorithm factory n = .ok ⟨⟩ n :=
  congrArg (EStateM.Result.ok PUnit.unit) (if_neg h)

-- What modify_env comes to. Where it raises, only what is set before the algorithm has been set.
theorem modifyEnv_ends (args : EnvArgs μ) (h : n.Typed) :
    Ends (modifyEnv args) n
      (fun _ n' => (∃ factory, args.named n = .ok factory) ∧ n'.Typed ∧
        n'.settings.hashFactory = args.algorithm n ∧
        n'.settings.blockDir = (given "" args.blockDir).getD n.settings.blockDir ∧
        n'.files = n.files ∧
        n'.dirs = if args.changes n = true then Function.update n.dirs n.settings.blockDir none
          else n.dirs)
      fun e n' => args.named n = .error e ∧ n'.Typed ∧
        n'.settings.hashFactory = n.settings.hashFactory ∧
        n'.settings.blockDir = n.settings.blockDir ∧ n'.files = n.files ∧ n'.dirs = n.dirs := by
  unfold modifyEnv
  simp only [ends_bind, ends_modify]
  -- the cache directory and the memory manager are set whatever comes of the algorithm
  let n₀ : Host μ := { n with settings := { n.settings with
    cacheDir := ((given "" args.cacheDir).map (· ++ "grpcbigbuffer/")).getD n.settings.cacheDir
    memManager := args.memManager.getD n.settings.memManager } }
  have h₀ : n₀.Typed := ⟨h.hashType, h.labelled, h.registered⟩
  refine (selectAlgorithm_ends args h₀).mono (fun factory n₁ h₁ => ?_) fun e n₁ h₁ => ?_
  · obtain ⟨hok, hsettings, hdirs, hfiles, htyped, hown⟩ := h₁
    change args.named n = _ at hok
    have htype : n₁.settings.hashType = n.settings.hashType := by rw [hsettings]
    have hfactory : n₁.settings.hashFactory = n.settings.hashFactory := by rw [hsettings]
    have hdir : n₁.settings.blockDir = n.settings.blockDir := by rw [hsettings]
    have hgiven : (given "" args.blockDir).getD n₁.settings.blockDir =
        (given "" args.blockDir).getD n.settings.blockDir := by rw [hdir]
    cases factory with
    | none =>
        refine ⟨⟨none, hok⟩, ⟨htyped.hashType, htyped.labelled, htyped.registered⟩, ?_,
          hgiven, hfiles, ?_⟩
        · simp only [EnvArgs.algorithm, hok, hfactory]
        · simp only [EnvArgs.changes, hok, Bool.false_eq_true, if_false]
          exact hdirs
    | some factory =>
        simp only [ends_bind]
        by_cases hchanges : hashTypeOf factory ≠ n₁.settings.hashType
        · refine ends_of_ok (useAlgorithm_changes hchanges) ?_
          rw [htype] at hchanges
          refine ⟨⟨_, hok⟩, ⟨rfl, htyped.labelled, hown factory rfl⟩, ?_, hgiven, hfiles, ?_⟩
          · simp only [EnvArgs.algorithm, hok, if_pos hchanges]
          · simp only [EnvArgs.changes, hok, hchanges, decide_true, if_true, hdirs, hdir,
              ne_eq, not_false_eq_true]
            rfl
        · refine ends_of_ok (useAlgorithm_keeps hchanges) ?_
          rw [htype] at hchanges
          refine ⟨⟨_, hok⟩, ⟨htyped.hashType, htyped.labelled, htyped.registered⟩, ?_,
            hgiven, hfiles, ?_⟩
          · simp only [EnvArgs.algorithm, hok, if_neg hchanges, hfactory]
          · simp only [EnvArgs.changes, hok, hchanges, decide_false, Bool.false_eq_true, if_false]
            exact hdirs
  · obtain ⟨herror, rfl⟩ := h₁
    exact ⟨herror, ⟨h.hashType, h.labelled, h.registered⟩, rfl, rfl, rfl, rfl⟩

end

end BeeRpc
