import BeeRpc.Acts
import BeeRpc.Interleaving.Run
import BeeRpc.Settings
import BeeRpc.StoreInvariant

namespace BeeRpc

open Wire Naming Effect Interleaving

-- The loop of get_file_hash, over what has been fed to the hasher so far.
def hashLoop : Nat → Bytes → Bytes → Bytes
  | 0, _, fed => fed
  | fuel + 1, rest, fed =>
      let chunk := rest.take 1024
      if chunk = [] then fed else hashLoop fuel (rest.drop 1024) (fed ++ chunk)

section

variable {μ : Type}

def getFileHash (path : String) : HostM μ Bytes := do
  let n ← get
  match n.files path with
  | some content => return n.settings.hashFactory (hashLoop (content.length + 1) content [])
  | none => throw .fileNotFound

-- A file that is put into the block directory under a block's name.
def Host.put (n : Host μ) (registry : Registry) (id : BlockId) (content : Bytes) : Host μ :=
  { n with
    dirs := Function.update n.dirs n.settings.blockDir (some (registry.store id (.file content))) }

-- client.move_to_block_dir
def moveToBlockDir (fileHash : BlockId) (path : String) : HostM μ Bool := do
  let n ← get
  match n.blockExists fileHash, n.files path with
  | false, some content =>
      match n.registry? with
      | none => throw .creatingBlock
      | some registry => do
          set { n.put registry fileHash content with files := Function.update n.files path none }
          return true
  | _, _ => return false

-- client.copy_to_block_dir
def copyToBlockDir (fileHash : BlockId) (path : String) : HostM μ Bool := do
  let n ← get
  match n.blockExists fileHash, n.files path with
  | false, some content =>
      match n.registry? with
      | none => throw .creatingBlock
      | some registry => do
          set (n.put registry fileHash content)
          return true
  | _, _ => return false

def placeBlock (copy : Bool) (fileHash : BlockId) (path : String) : HostM μ Bool :=
  if copy then copyToBlockDir fileHash path else moveToBlockDir fileHash path

-- utils.hash_types_for_packing
def hashTypesForPacking (n : Host μ) : List Bytes := [n.settings.hashType]

def createBlock (path : String) (copy : Bool := false) : HostM μ (Bytes × Block) := do
  let fileHash ← getFileHash path
  let n ← get
  if n.blockExists fileHash then pure ()
  else do
    let done ← placeBlock copy fileHash path
    if done then pure () else throw .couldNotBeMoved
  let n ← get
  return (fileHash, {
    hashes := (hashTypesForPacking n).map fun type => { type, value := fileHash }
    previousLengthsPosition := [] })

-- What changes a host's settings or its disk.
inductive HostAct (μ : Type) where
  | modifyEnv (args : EnvArgs μ)
  | registerHashAlgorithm (factory : HashFactory)
  | makedirs
  | write (path : String) (content : Bytes)
  | createBlock (path : String) (copy : Bool)
  | parseFromBuffer (receiver : Receiver) (requests : List Buffer)

def HostAct.perform : HostAct μ → HostM μ Unit
  | .modifyEnv args => BeeRpc.modifyEnv args
  | .registerHashAlgorithm factory => modify fun n =>
      { n with algorithms := BeeRpc.registerHashAlgorithm factory n.algorithms }
  | .makedirs => modify fun n =>
      { n with dirs := Function.update n.dirs n.settings.blockDir (some (n.registry?.getD [])) }
  | .write path content => modify fun n =>
      { n with files := Function.update n.files path (some content) }
  | .createBlock path copy => do
      let _ ← BeeRpc.createBlock path copy
  | .parseFromBuffer receiver requests => modify fun n =>
      let outcome := BeeRpc.parseFromBuffer { receiver with env := n.settings.env }
        { registry := n.registry?.getD [], requests }
      -- the first block to be saved brings the directory with it
      if n.registry?.isSome || outcome.2.blockDir then
        { n with dirs := Function.update n.dirs n.settings.blockDir (some outcome.2.registry) }
      else n

-- Whatever is raised, the host goes on from what has been changed by then.
def Host.act (n : Host μ) (deed : HostAct μ) : Option (Host μ) :=
  match deed.perform n with
  | .ok _ n' => some n'
  | .error _ n' => some n'

-- A directory that is turned to holds nothing, or blocks of the algorithm that is then in use.
def HostAct.Allowed (n : Host μ) : HostAct μ → Prop
  | .modifyEnv args => ∀ factory dir registry, args.named n = .ok factory →
      given "" args.blockDir = some dir → n.dirs dir = some registry →
      (args.changes n = true ∧ dir = n.settings.blockDir) ∨
        registry.ContentAddressed { n.settings.env with hashFactory := args.algorithm n }
  | _ => True

end

section Creating

variable {μ : Type} {n : Host μ}

theorem hashLoop_eq (fuel : Nat) (rest fed : Bytes) (hfuel : rest.length < fuel) :
    hashLoop fuel rest fed = fed ++ rest := by
  induction fuel generalizing rest fed with
  | zero => omega
  | succ fuel ih =>
      unfold hashLoop
      by_cases hnil : rest = []
      · subst hnil
        simp
      · have hpos := List.length_pos_iff.mpr hnil
        have htake : rest.take 1024 ≠ [] := by
          apply List.ne_nil_of_length_pos
          rw [List.length_take]
          omega
        have hdrop : (rest.drop 1024).length < fuel := by
          rw [List.length_drop]
          omega
        simp only [if_neg htake]
        rw [ih _ _ hdrop, List.append_assoc, List.take_append_drop]

-- Either way a block that is not there yet comes from the file, if there is a directory for it.
theorem placeBlock_nowhere (copy : Bool) {id : BlockId} {path : String} {content : Bytes}
    (hmissing : n.blockExists id = false) (hfile : n.files path = some content)
    (hregistry : n.registry? = none) : placeBlock copy id path n = .error .creatingBlock n := by
  cases copy with
  | true =>
      simp only [placeBlock, if_true, copyToBlockDir]
      rw [bind_of_ok (m := get) rfl]
      simp only [hmissing, hfile, hregistry]
      rfl
  | false =>
      simp only [placeBlock, Bool.false_eq_true, if_false, moveToBlockDir]
      rw [bind_of_ok (m := get) rfl]
      simp only [hmissing, hfile, hregistry]
      rfl

theorem placeBlock_new (copy : Bool) {id : BlockId} {path : String} {content : Bytes}
    {registry : Registry} (hmissing : n.blockExists id = false)
    (hfile : n.files path = some content) (hregistry : n.registry? = some registry) :
    placeBlock copy id path n = .ok true
      { n.put registry id content with
        files := if copy then n.files else Function.update n.files path none } := by
  cases copy with
  | true =>
      simp only [placeBlock, if_true, copyToBlockDir]
      rw [bind_of_ok (m := get) rfl]
      simp only [hmissing, hfile, hregistry]
      rfl
  | false =>
      simp only [placeBlock, Bool.false_eq_true, if_false, moveToBlockDir]
      rw [bind_of_ok (m := get) rfl]
      simp only [hmissing, hfile, hregistry]
      rfl

theorem place_ends (copy : Bool) {id : BlockId} {path : String} {content : Bytes}
    (hmissing : n.blockExists id = false) (hfile : n.files path = some content) :
    Ends (placeBlock copy id path) n
      (fun done n' => done = true ∧ ∃ registry files, n.registry? = some registry ∧
        n' = { n.put registry id content with files })
      fun _ n' => n' = n ∧ n.registry? = none := by
  cases hregistry : n.registry? with
  | none =>
      exact ends_of_error (placeBlock_nowhere copy hmissing hfile hregistry) ⟨rfl, rfl⟩
  | some registry =>
      exact ends_of_ok (placeBlock_new copy hmissing hfile hregistry) ⟨rfl, registry, _, rfl, rfl⟩

-- create_block gives the pointer of a block that is there, and puts it there if it was not. It
-- fails only for want of the file or of the directory, and leaves everything as it was then.
theorem createBlock_ends (path : String) (copy : Bool) (h : n.Typed) :
    Ends (createBlock path copy) n
      (fun result n' => ∃ content, n.files path = some content ∧
        result = (n.settings.hashFactory content,
          blockPointer n.settings.env (n.settings.hashFactory content)) ∧
        n'.blockExists (n.settings.hashFactory content) = true ∧
        (n' = n ∨ ∃ registry files, n.registry? = some registry ∧
          registry.blockExists (n.settings.hashFactory content) = false ∧
          n' = { n.put registry (n.settings.hashFactory content) content with files }))
      fun _ n' => n' = n ∧ (n.files path = none ∨ n.registry? = none) := by
  unfold createBlock getFileHash
  simp only [ends_bind, ends_get]
  cases hfile : n.files path with
  | none => exact ⟨rfl, Or.inl rfl⟩
  | some content =>
      have hloop : hashLoop (content.length + 1) content [] = content :=
        hashLoop_eq _ content [] (Nat.lt_succ_self _)
      simp only [ends_pure, hloop]
      have hpointer : ∀ n' : Host μ, n'.settings = n.settings → ({
          hashes := (hashTypesForPacking n').map fun type =>
            { type, value := n.settings.hashFactory content }
          previousLengthsPosition := [] } : Block) =
          blockPointer n.settings.env (n.settings.hashFactory content) := by
        intro n' hsettings
        simp only [hashTypesForPacking, hsettings, h.hashType]
        rfl
      by_cases hexists : n.blockExists (n.settings.hashFactory content) = true
      · rw [if_pos hexists]
        exact ⟨content, rfl, congrArg _ (hpointer n rfl), hexists, Or.inl rfl⟩
      · have hmissing := Bool.eq_false_of_not_eq_true hexists
        rw [if_neg hexists]
        rw [ends_bind]
        refine (place_ends copy hmissing hfile).mono (fun done n' h' => ?_) fun _ n' h' => ?_
        · obtain ⟨rfl, registry, files, hregistry, rfl⟩ := h'
          have hnew : registry.blockExists (n.settings.hashFactory content) = false := by
            rw [Host.blockExists, hregistry] at hmissing
            exact hmissing
          refine ⟨content, rfl, congrArg _ (hpointer _ rfl), ?_, Or.inr ⟨registry, files, hregistry, hnew, rfl⟩⟩
          simp only [Host.blockExists, Host.registry?, Host.put, Function.update_self,
            Option.getD_some, Registry.blockExists, Registry.lookup_store_self, Option.isSome_some]
        · exact ⟨h'.1, Or.inr h'.2⟩

end Creating

section Running

variable {μ : Type} {n n' : Host μ}

theorem Registry.ContentAddressed.of_algorithm {env env' : Enviroment} {registry : Registry}
    (hsettings : env'.hashFactory = env.hashFactory) (h : registry.ContentAddressed env) :
    registry.ContentAddressed env' := by
  intro id stored hl
  rw [hsettings]
  exact h id stored hl

-- Where another algorithm is not turned to, the one in use stays.
theorem algorithm_of_changes (args : EnvArgs μ) (h : args.changes n = false) :
    args.algorithm n = n.settings.hashFactory := by
  unfold EnvArgs.changes at h
  unfold EnvArgs.algorithm
  split
  · rename_i factory hnamed
    rw [hnamed] at h
    rw [if_neg (of_decide_eq_false h)]
  · rfl

theorem parseFromBuffer_addressed (receiver : Receiver) (w : World)
    (h : w.registry.ContentAddressed receiver.env) (hscratch : w.scratch = []) :
    (parseFromBuffer receiver w).2.registry.ContentAddressed receiver.env := by
  simp only [parseFromBuffer]
  split
  · generalize (if receiver.control = true then controlReader receiver.env w.requests
      else w.requests) = requests
    have hsound : World.Sound receiver.env { w with requests } :=
      ⟨h, fun path hpath => by simp [hscratch] at hpath⟩
    exact (@mainLoop_keeps receiver (requests.length + 1) _ hsound).addressed
  · exact h

-- What a deed of a host comes to: the types stay those of the algorithms, and of the directories
-- only the one in use is touched, whose blocks stay unless another algorithm is turned to.
structure HostAct.Does (deed : HostAct μ) (n n' : Host μ) : Prop where
  typed : n'.Typed
  others : ∀ dir, dir ≠ n.settings.blockDir → n'.dirs dir = n.dirs dir
  grows : ∀ registry, n.registry? = some registry →
    (∃ registry', n'.dirs n.settings.blockDir = some registry' ∧ registry.Grows registry') ∨
      ∃ args, deed = .modifyEnv args ∧ args.changes n = true

theorem update_others {α : Type} (dirs : String → Option α) (dir : String) (value : Option α) :
    ∀ other, other ≠ dir → Function.update dirs dir value other = dirs other :=
  fun _ h => Function.update_of_ne h ..

theorem does_modifyEnv (args : EnvArgs μ) (h : n.Typed) :
    Ends (modifyEnv args) n (fun _ n' => (HostAct.modifyEnv args).Does n n')
      fun _ n' => (HostAct.modifyEnv args).Does n n' := by
  have hsame : ∀ registry, n.registry? = some registry →
      ∃ registry', n.dirs n.settings.blockDir = some registry' ∧ registry.Grows registry' :=
    fun registry hregistry => ⟨registry, hregistry, .refl _⟩
  refine (modifyEnv_ends args h).mono (fun _ n' h' => ?_) fun _ n' h' => ?_
  · obtain ⟨-, htyped, -, -, -, hdirs⟩ := h'
    by_cases hchanges : args.changes n = true
    · rw [if_pos hchanges] at hdirs
      exact ⟨htyped, fun dir hdir => by rw [hdirs, Function.update_of_ne hdir],
        fun _ _ => Or.inr ⟨args, rfl, hchanges⟩⟩
    · rw [if_neg hchanges] at hdirs
      exact ⟨htyped, fun dir _ => by rw [hdirs], fun registry hregistry => Or.inl (hdirs ▸
        hsame registry hregistry)⟩
  · obtain ⟨-, htyped, -, -, -, hdirs⟩ := h'
    exact ⟨htyped, fun dir _ => by rw [hdirs], fun registry hregistry => Or.inl (hdirs ▸
      hsame registry hregistry)⟩

-- One registry in the place of another.
theorem does_update (deed : HostAct μ) (h : n.Typed) (registry' : Registry)
    (files : String → Option Bytes)
    (hgrows : (n.registry?.getD []).Grows registry') :
    deed.Does n { n with
      dirs := Function.update n.dirs n.settings.blockDir (some registry'), files } where
  typed := ⟨h.hashType, h.labelled, h.registered⟩
  others := update_others _ _ _
  grows registry hregistry := by
    rw [hregistry] at hgrows
    exact Or.inl ⟨registry', Function.update_self .., hgrows⟩

theorem does_same (deed : HostAct μ) {algorithms : HashAlgorithms} {files : String → Option Bytes}
    (htyped : Host.Typed { n with algorithms, files }) :
    deed.Does n { n with algorithms, files } where
  typed := htyped
  others _ _ := rfl
  grows registry hregistry := Or.inl ⟨registry, hregistry, .refl _⟩

theorem perform_does (deed : HostAct μ) (h : n.Typed) :
    Ends deed.perform n (fun _ n' => deed.Does n n') fun _ n' => deed.Does n n' := by
  cases deed with
  | modifyEnv args => exact does_modifyEnv args h
  | registerHashAlgorithm factory => exact does_same _ (h.register factory)
  | makedirs => exact does_update _ h _ n.files (.refl _)
  | write path content => exact does_same _ ⟨h.hashType, h.labelled, h.registered⟩
  | createBlock path copy =>
      unfold HostAct.perform
      rw [ends_bind]
      refine (createBlock_ends path copy h).mono (fun _ n' h' => ?_) fun _ n' h' => ?_
      · obtain ⟨content, -, -, -, rfl | ⟨registry, files, hregistry, hnew, rfl⟩⟩ := h'
        · exact does_same _ h
        · refine does_update _ h _ files ?_
          rw [hregistry]
          exact .store _ (Registry.blockExists_eq_false.mp hnew)
      · obtain ⟨rfl, -⟩ := h'
        exact does_same _ h
  | parseFromBuffer receiver requests =>
      simp only [HostAct.perform, ends_modify]
      split
      · refine does_update _ h _ n.files ?_
        exact (@parseFromBuffer_acts { receiver with env := n.settings.env }
          { registry := n.registry?.getD [], requests }).grows
      · exact does_same _ h

-- Another algorithm takes the directory in use away.
theorem changed_dirs (args : EnvArgs μ) (dir : String) (registry : Registry) :
    (if args.changes n = true then Function.update n.dirs n.settings.blockDir none else n.dirs) dir =
        some registry ↔
      n.dirs dir = some registry ∧ ¬(args.changes n = true ∧ dir = n.settings.blockDir) := by
  by_cases hchanges : args.changes n = true
  · rw [if_pos hchanges]
    by_cases hdir : dir = n.settings.blockDir
    · simp [hdir, hchanges]
    · simp [hdir]
  · simp [hchanges]

-- After modify_env the blocks in use are well named just when it was allowed.
theorem addressed_modifyEnv (args : EnvArgs μ) (h : n.Typed) (ha : n.Addressed) :
    Ends (modifyEnv args) n
      (fun _ n' => n'.Addressed ↔ (HostAct.modifyEnv args).Allowed n)
      fun _ n' => n'.Addressed ∧ (HostAct.modifyEnv args).Allowed n := by
  refine (modifyEnv_ends args h).mono (fun _ n' h' => ?_) fun e n' h' => ?_
  · obtain ⟨⟨factory, hnamed⟩, -, halgorithm, hdir, -, hdirs⟩ := h'
    have hafter : ∀ registry, n'.registry? = some registry ↔
        n.dirs ((given "" args.blockDir).getD n.settings.blockDir) = some registry ∧
          ¬(args.changes n = true ∧
            (given "" args.blockDir).getD n.settings.blockDir = n.settings.blockDir) := by
      intro registry
      rw [Host.registry?, hdir, hdirs]
      exact changed_dirs args _ registry
    cases hgiven : given "" args.blockDir with
    | none =>
        rw [hgiven, Option.getD_none] at hafter
        refine iff_of_true (fun registry hr => ?_) fun _ dir _ _ hdir' => ?_
        · obtain ⟨hr, hkept⟩ := (hafter registry).mp hr
          have hchanges : args.changes n = false :=
            Bool.eq_false_of_not_eq_true fun hchanges => hkept ⟨hchanges, rfl⟩
          refine .of_algorithm ?_ (ha registry hr)
          exact halgorithm.trans (algorithm_of_changes args hchanges)
        · rw [hgiven] at hdir'
          cases hdir'
    | some dir =>
        rw [hgiven, Option.getD_some] at hafter
        constructor
        · intro haddressed _ dir' registry _ hdir' hr
          obtain rfl := Option.some.inj (hgiven.symm.trans hdir')
          by_cases hgone : args.changes n = true ∧ dir = n.settings.blockDir
          · exact Or.inl hgone
          · exact Or.inr (.of_algorithm halgorithm.symm
              (haddressed registry ((hafter registry).mpr ⟨hr, hgone⟩)))
        · intro hallowed registry hr
          obtain ⟨hr, hkept⟩ := (hafter registry).mp hr
          have hnamed' := (hallowed factory dir registry hnamed hgiven hr).resolve_left hkept
          have hsame : n'.settings.env.hashFactory =
              Enviroment.hashFactory { n.settings.env with hashFactory := args.algorithm n } :=
            halgorithm
          exact hnamed'.of_algorithm hsame
  · obtain ⟨herror, -, hfactory, hdir, -, hdirs⟩ := h'
    refine ⟨fun registry hr => ?_, fun factory _ _ hnamed => ?_⟩
    · rw [Host.registry?, hdir, hdirs] at hr
      have hsame : n'.settings.env.hashFactory = n.settings.env.hashFactory := hfactory
      exact (ha registry hr).of_algorithm hsame
    · rw [herror] at hnamed
      cases hnamed

theorem addressed_update {registry' : Registry} (files : String → Option Bytes)
    (h : registry'.ContentAddressed n.settings.env) :
    Host.Addressed { n with
      dirs := Function.update n.dirs n.settings.blockDir (some registry'), files } := by
  intro registry hr
  have hself : Function.update n.dirs n.settings.blockDir (some registry') n.settings.blockDir =
      some registry := hr
  rw [Function.update_self] at hself
  exact Option.some.inj hself ▸ h

theorem addressed_getD (ha : n.Addressed) : (n.registry?.getD []).ContentAddressed n.settings.env := by
  cases hregistry : n.registry? with
  | none => exact fun _ _ hl => (by cases hl)
  | some registry => exact ha registry hregistry

theorem perform_addressed (deed : HostAct μ) (h : n.Typed) (ha : n.Addressed) :
    Ends deed.perform n (fun _ n' => n'.Addressed ↔ deed.Allowed n)
      fun _ n' => n'.Addressed ∧ deed.Allowed n := by
  cases deed with
  | modifyEnv args => exact addressed_modifyEnv args h ha
  | registerHashAlgorithm factory => exact iff_of_true ha trivial
  | makedirs => exact iff_of_true (addressed_update n.files (addressed_getD ha)) trivial
  | write path content => exact iff_of_true ha trivial
  | createBlock path copy =>
      unfold HostAct.perform
      rw [ends_bind]
      refine (createBlock_ends path copy h).mono (fun _ n' h' => ?_) fun _ n' h' => ?_
      · refine iff_of_true ?_ trivial
        obtain ⟨content, -, -, -, rfl | ⟨registry, files, hregistry, hnew, rfl⟩⟩ := h'
        · exact ha
        · have hexp : (registry.store (n.settings.hashFactory content) (.file content)).expansion
              (n.settings.hashFactory content) = some content :=
            Registry.expansion_file (Registry.lookup_store_self ..)
          exact addressed_update files ((ha registry hregistry).store
            (Registry.blockExists_eq_false.mp hnew) hexp rfl)
      · obtain ⟨rfl, -⟩ := h'
        exact ⟨ha, trivial⟩
  | parseFromBuffer receiver requests =>
      simp only [HostAct.perform, ends_modify]
      refine iff_of_true ?_ trivial
      split
      · apply addressed_update n.files
        exact parseFromBuffer_addressed { receiver with env := n.settings.env } _ (addressed_getD ha) rfl
      · exact ha

-- A step is a deed, whichever way it ends.
theorem act_ends {deed : HostAct μ} {ok : Host μ → Prop}
    (h : Ends deed.perform n (fun _ n' => ok n') fun _ n' => ok n') (hact : n.act deed = some n') :
    ok n' := by
  unfold Host.act at hact
  split at hact
  · rename_i hok
    obtain rfl := Option.some.inj hact
    exact h.of_ok hok
  · rename_i herror
    obtain rfl := Option.some.inj hact
    exact h.of_error herror

theorem act_does {deed : HostAct μ} (h : n.Typed) (hact : n.act deed = some n') : deed.Does n n' :=
  act_ends (perform_does deed h) hact

theorem act_addressed {deed : HostAct μ} (h : n.Typed) (ha : n.Addressed)
    (hact : n.act deed = some n') : n'.Addressed ↔ deed.Allowed n :=
  act_ends ((perform_addressed deed h ha).mono (fun _ _ hok => hok) fun _ _ herror =>
    iff_of_true herror.1 herror.2) hact

-- A directory is there after a run, with the blocks it had, unless it was given up for another
-- algorithm on the way.
theorem run_keeps (deeds : List (HostAct μ)) (h : n.Typed)
    (hrun : Interleaving.run Host.act n deeds = some n') (dir : String) {registry : Registry}
    (hregistry : n.dirs dir = some registry) :
    (∃ registry', n'.dirs dir = some registry' ∧ registry.Grows registry') ∨
      ∃ before args after met, deeds = before ++ .modifyEnv args :: after ∧
        Interleaving.run Host.act n before = some met ∧ met.settings.blockDir = dir ∧
          args.changes met = true := by
  induction deeds generalizing n registry with
  | nil =>
      obtain rfl := Option.some.inj hrun
      exact Or.inl ⟨registry, hregistry, .refl _⟩
  | cons deed deeds ih =>
      obtain ⟨next, hact, hrest⟩ := run_cons hrun
      have hdoes := act_does h hact
      have hlater : ∀ registry', next.dirs dir = some registry' → registry.Grows registry' →
          (∃ registry', n'.dirs dir = some registry' ∧ registry.Grows registry') ∨
            ∃ before args after met, deed :: deeds = before ++ .modifyEnv args :: after ∧
              Interleaving.run Host.act n before = some met ∧ met.settings.blockDir = dir ∧
                args.changes met = true := by
        intro registry' hnext hgrows
        rcases ih hdoes.typed hrest hnext with ⟨last, hlast, hmore⟩ | hlost
        · exact Or.inl ⟨last, hlast, hgrows.trans hmore⟩
        · obtain ⟨before, args, after, met, rfl, hmet, hlost⟩ := hlost
          exact Or.inr ⟨deed :: before, args, after, met, rfl, run_of_step hact hmet, hlost⟩
      by_cases hdir : dir = n.settings.blockDir
      · subst hdir
        rcases hdoes.grows registry hregistry with ⟨registry', hnext, hgrows⟩ | ⟨args, rfl, hchanges⟩
        · exact hlater registry' hnext hgrows
        · exact Or.inr ⟨[], args, deeds, n, rfl, rfl, rfl, hchanges⟩
      · exact hlater registry ((hdoes.others dir hdir).trans hregistry) (.refl _)

-- A host over any run of what changes its settings, its algorithms and its blocks. The type it
-- packs with is always that of its algorithm, and can be resolved. Its blocks are under the names
-- that this algorithm gives them as long as it is only ever turned to directories that hold nothing
-- else, and no longer. A directory of blocks is only ever lost when another algorithm is turned to
-- while it is in use.
theorem host_runs (n n' : Host μ) (deeds : List (HostAct μ)) (h : n.Typed) (ha : n.Addressed)
    (hrun : Interleaving.run Host.act n deeds = some n') :
    n'.Typed ∧
      ((∀ front, front <+: deeds → ∀ met, Interleaving.run Host.act n front = some met →
          met.Addressed) ↔ Along Host.act HostAct.Allowed n deeds) ∧
      ∀ dir registry, n.dirs dir = some registry →
        (∃ registry', n'.dirs dir = some registry' ∧ registry.Grows registry') ∨
          ∃ before args after met, deeds = before ++ .modifyEnv args :: after ∧
            Interleaving.run Host.act n before = some met ∧ met.settings.blockDir = dir ∧
              args.changes met = true := by
  refine ⟨invariant_run_all (fun _ _ _ h hact => (act_does h hact).typed) deeds h hrun, ?_,
    fun dir registry hregistry => run_keeps deeds h hrun dir hregistry⟩
  have hgood : ∀ n : Host μ, n.Typed ∧ n.Addressed → n.Addressed := fun _ h => h.2
  refine along_iff_good hgood ?_ ?_ deeds ⟨h, ha⟩ hrun
  · rintro now deed next ⟨htyped, haddressed⟩ hallowed hact
    exact ⟨(act_does htyped hact).typed, (act_addressed htyped haddressed hact).mpr hallowed⟩
  · rintro now deed next ⟨htyped, haddressed⟩ hnot hact hafter
    exact hnot ((act_addressed htyped haddressed hact).mp hafter)

-- What create_block gives is a pointer of a type that the host can resolve, to a block that stays
-- in its directory until another algorithm is turned to there.
theorem created_stays (n n' met created : Host μ) (front rest : List (HostAct μ)) (path : String)
    (copy : Bool) (id : Bytes) (pointer : Block) (h : n.Typed)
    (hfront : Interleaving.run Host.act n front = some met)
    (hcreated : createBlock path copy met = .ok (id, pointer) created)
    (hrest : Interleaving.run Host.act created rest = some n') :
    (∃ content, met.files path = some content ∧ id = met.settings.hashFactory content) ∧
      pointer.hashes = [⟨hashTypeOf met.settings.hashFactory, id⟩] ∧
      (∃ factory, hasherFor created.algorithms (hashTypeOf met.settings.hashFactory) = .ok factory ∧
        hashTypeOf factory = hashTypeOf met.settings.hashFactory) ∧
      ((∃ registry, n'.dirs met.settings.blockDir = some registry ∧
          registry.blockExists id = true) ∨
        ∃ before args after now, rest = before ++ .modifyEnv args :: after ∧
          Interleaving.run Host.act created before = some now ∧
            now.settings.blockDir = met.settings.blockDir ∧ args.changes now = true) := by
  have htyped : met.Typed :=
    invariant_run_all (fun _ _ _ h hact => (act_does h hact).typed) front h hfront
  have hact : met.act (.createBlock path copy) = some created := by
    rw [Host.act, show HostAct.perform (.createBlock path copy) met = .ok ⟨⟩ created from
      (bind_of_ok hcreated).trans rfl]
  have hafter : created.Typed := (act_does htyped hact).typed
  obtain ⟨content, hfile, hresult, hexists, hchange⟩ :=
    (createBlock_ends path copy htyped).of_ok hcreated
  obtain ⟨rfl, rfl⟩ := Prod.mk.inj hresult
  have hsettings : created.settings = met.settings := by
    obtain rfl | ⟨registry, files, -, -, rfl⟩ := hchange <;> rfl
  refine ⟨⟨content, hfile, rfl⟩, rfl, ?_, ?_⟩
  · obtain ⟨factory, hfactory⟩ := hafter.registered
    rw [hsettings, htyped.hashType] at hfactory
    exact ⟨factory, by rw [hasherFor, hfactory], hafter.labelled _ factory hfactory⟩
  · cases hregistry : created.registry? with
    | none =>
        rw [Host.blockExists, hregistry] at hexists
        cases hexists
    | some registry =>
        rw [Host.blockExists, hregistry, Option.getD_some] at hexists
        rw [Host.registry?, hsettings] at hregistry
        refine (run_keeps rest hafter hrest _ hregistry).imp_left ?_
        rintro ⟨registry', hlast, hgrows⟩
        obtain ⟨stored, hl⟩ := Registry.blockExists_eq_true.mp hexists
        exact ⟨registry', hlast, Registry.blockExists_eq_true.mpr ⟨stored, hgrows _ _ hl⟩⟩

def Host.sample : Host Unit where
  settings :=
    { cacheDir := "cache/"
      blockDir := "blocks/"
      memManager := ()
      hashFactory := Enviroment.sample.hashFactory
      hashType := [1] }
  algorithms := [([1], Enviroment.sample.hashFactory)]
  dirs := fun _ => none
  files := fun _ => none

def Host.sampleReceiver : Receiver where
  env := .sample
  parse := fun _ _ => none
  indices := [(1, .message 7)]
  partitionsMessageMode := .inl false

-- A block is created, and lost when another algorithm is turned to.
def HostAct.samples : List (HostAct Unit) :=
  [.makedirs, .write "file" [7, 7], .createBlock "file" true, .parseFromBuffer Host.sampleReceiver [],
    .modifyEnv { hashFactory := some fun content => 2 :: content }, .makedirs,
    .createBlock "file" false]

theorem sample_typed : Host.sample.Typed where
  hashType := rfl
  labelled hashType factory hl := by
    simp only [Host.sample, List.lookup_cons, List.lookup_nil] at hl
    split at hl
    · rename_i heq
      obtain rfl := Option.some.inj hl
      exact (eq_of_beq heq).symm
    · cases hl
  registered := ⟨_, rfl⟩

theorem host_runs_sample :
    let n := Host.sample
    let n' := (Interleaving.run Host.act n HostAct.samples).getD n
    n'.Typed ∧
      ((∀ front, front <+: HostAct.samples → ∀ met, Interleaving.run Host.act n front = some met →
          met.Addressed) ↔ Along Host.act HostAct.Allowed n HostAct.samples) ∧
      ∀ dir registry, n.dirs dir = some registry →
        (∃ registry', n'.dirs dir = some registry' ∧ registry.Grows registry') ∨
          ∃ before args after met, HostAct.samples = before ++ .modifyEnv args :: after ∧
            Interleaving.run Host.act n before = some met ∧ met.settings.blockDir = dir ∧
              args.changes met = true := by
  have hsome : (Interleaving.run Host.act Host.sample HostAct.samples).isSome = true := by
    decide +kernel
  exact host_runs Host.sample _ HostAct.samples sample_typed (fun _ hr => by cases hr)
    ((Option.eq_some_of_isSome hsome).trans (congrArg some (Option.get_eq_getD _)))

theorem created_stays_sample :
    let met := (Interleaving.run Host.act Host.sample (HostAct.samples.take 2)).getD Host.sample
    let created := (met.act (.createBlock "file" true)).getD met
    let rest := HostAct.samples.drop 3
    let n' := (Interleaving.run Host.act created rest).getD met
    (∃ content, met.files "file" = some content ∧ [1, 7, 7] = met.settings.hashFactory content) ∧
      (blockPointer .sample [1, 7, 7]).hashes =
        [⟨hashTypeOf met.settings.hashFactory, [1, 7, 7]⟩] ∧
      (∃ factory, hasherFor created.algorithms (hashTypeOf met.settings.hashFactory) = .ok factory ∧
        hashTypeOf factory = hashTypeOf met.settings.hashFactory) ∧
      ((∃ registry, n'.dirs met.settings.blockDir = some registry ∧
          registry.blockExists [1, 7, 7] = true) ∨
        ∃ before args after now, rest = before ++ .modifyEnv args :: after ∧
          Interleaving.run Host.act created before = some now ∧
            now.settings.blockDir = met.settings.blockDir ∧ args.changes now = true) := by
  intro met created rest n'
  have hsome : (Interleaving.run Host.act created rest).isSome = true := by decide +kernel
  exact created_stays Host.sample n' met created (HostAct.samples.take 2) rest "file" true [1, 7, 7]
    (blockPointer .sample [1, 7, 7]) sample_typed rfl rfl
    ((Option.eq_some_of_isSome hsome).trans (congrArg some (Option.get_eq_getD _)))

end Running

end BeeRpc
