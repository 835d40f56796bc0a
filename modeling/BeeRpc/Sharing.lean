import BeeRpc.Interleaving.Crew
import BeeRpc.Levels
import BeeRpc.Split

namespace BeeRpc

open Wire Naming Interleaving

-- os.replace: a file takes the place of another one, a directory that of nothing else.
def Stored.replaces : Stored → Option Stored → Bool
  | _, none => true
  | .file _, some (.file _) => true
  | _, some _ => false

-- The block directory, where several threads are at work. A block is aside while a split has
-- moved its old form away and not yet the new one there. All contents are kept that have been
-- hashed to be given a name or compared with one.
structure Disk where
  registry : Registry
  aside : List BlockId := []
  hashed : List Bytes := []

-- What a reader of blocks is about to open.
inductive BlockRead.Task where
  -- read_block: block_exists, with is_dir
  | block (id : BlockId)
  -- _verify_single_file_block
  | verify (id : BlockId)
  -- read_multiblock_directory: the `_.json`
  | json (id : BlockId)
  -- read_file_by_chunks, over a block of one file and over a part
  | file (id : BlockId)
  | part (id : BlockId) (index : Nat)

def JsonEntry.task (id : BlockId) : JsonEntry → BlockRead.Task
  | .part index => .part id index
  | .block sub _ => .block sub

-- What follows for the reader, and what it gives. A path that leads to no file, or to a directory,
-- is one that is not there.
def BlockRead.Task.access (env : Enviroment) (registry : Registry) :
    BlockRead.Task → Except Err (List BlockRead.Task × Bytes)
  | .block id =>
      match registry.lookup id with
      | none => .error (.readingBlock id)
      | some (.file _) => .ok ([.verify id, .file id], [])
      | some (.dir _) => .ok ([.json id], [])
  | .verify id =>
      match registry.lookup id with
      | some (.file content) =>
          let digest := env.hashFactory content
          if digest ≠ id then .error (.corruptBlock id digest content.length) else .ok ([], [])
      | _ => .error .fileNotFound
  | .json id =>
      match registry.lookup id with
      | some (.dir directory) => .ok (directory.json.map (JsonEntry.task id), [])
      | _ => .error .fileNotFound
  -- read_file_by_chunks keeps its exceptions to itself
  | .file id =>
      match registry.lookup id with
      | some (.file content) => .ok ([], content)
      | _ => .ok ([], [])
  | .part id index =>
      match registry.lookup id with
      | some (.dir directory) => .ok ([], (directory.part index).getD [])
      | _ => .ok ([], [])

-- A block that is read with `ignore_blocks`, and what has come of it.
structure BlockRead where
  tasks : List BlockRead.Task
  given : Bytes := []
  raised : Option Err := none

def BlockRead.start (id : BlockId) : BlockRead := { tasks := [.block id] }

def BlockRead.step (env : Enviroment) (registry : Registry) (r : BlockRead) : Option BlockRead :=
  match r.raised, r.tasks with
  | none, task :: tasks =>
      match task.access env registry with
      | .error e => some { r with raised := some e }
      | .ok (more, content) => some { r with tasks := more ++ tasks, given := r.given ++ content }
  | _, _ => none

def BlockRead.Task.opened : BlockRead.Task → Option BlockId
  | .file id => some id
  | .part id _ => some id
  | _ => none

-- The blocks that a reader has found in a form which it has not read to its end.
def BlockRead.opened (r : BlockRead) : List BlockId := r.tasks.filterMap BlockRead.Task.opened

-- A block that save_block_content has begun to write, and what is still to come of it.
structure Writing where
  id : BlockId
  positions : List Nat
  part : Part := {}
  rest : Forest

inductive Receiving.Stage where
  | reading
  -- save_chunks_to_block: a block that is there is read, for the hashers of those around it
  | held (id : BlockId) (positions : List Nat) (reading : BlockRead)
  -- save_block_content: what is to be renamed, before block_exists is asked and after
  | ready (stored : Stored)
  | missing (stored : Stored)
  -- the thread has raised, the last time by itself or in os.replace
  | raised (e : Err)
  | refused

def Receiving.Stage.opened : Receiving.Stage → List BlockId
  | .held _ _ r => r.opened
  | _ => []

-- A thread that saves the blocks of a stream: those it is inside of, the innermost one first, and
-- what comes behind them.
structure Receiving where
  frames : List Writing
  outer : Forest
  stage : Receiving.Stage := .reading

namespace Receiving

variable (env : Enviroment) (d : Disk) (r : Receiving)

-- The block at hand is done, and the one around it goes on.
def close (f : Writing) : List Writing → Receiving
  | [] => { frames := [], outer := r.outer }
  | g :: gs =>
      { frames := { g with part := g.part.block f.id f.positions f.part.content } :: gs
        outer := r.outer }

-- Outside all blocks, where what is held is passed over.
def readOuter : Option (Disk × Receiving) :=
  match r.outer with
  | .nil => none
  | .chunk _ _ rest => some (d, { r with outer := rest })
  | .block id positions body rest =>
      if d.registry.blockExists id then some (d, { r with outer := rest })
      else some (d, { r with frames := [{ id, positions, rest := body }], outer := rest })

-- Inside a block, at the end of which its content is compared with its name.
def readInner (f : Writing) (fs : List Writing) : Disk × Receiving :=
  match f.rest with
  | .nil =>
      let d := { d with hashed := f.part.content :: d.hashed }
      match f.part.storedBlock env d.registry f.id with
      | .ok stored => (d, { r with stage := .ready stored })
      | .error e => (d, { r with stage := .raised e })
  | .chunk _ content rest =>
      (d, { r with frames := { f with part := f.part.chunk content, rest } :: fs })
  | .block id positions body rest =>
      if d.registry.blockExists id then
        (d, { r with frames := { f with rest } :: fs, stage := .held id positions (.start id) })
      else (d, { r with frames := { id, positions, rest := body } :: { f with rest } :: fs })

-- What is read of a block that is held is added to the one around it.
def readHeld (id : BlockId) (positions : List Nat) (reading : BlockRead) (f : Writing)
    (fs : List Writing) : Receiving :=
  match reading.step env d.registry, reading.raised with
  | some next, _ => { r with stage := .held id positions next }
  | none, some e => { r with stage := .raised e }
  | none, none =>
      { r with
        frames := { f with part := f.part.block id positions reading.given } :: fs
        stage := .reading }

-- One access to what is shared, with what the thread does by itself behind it.
def step : Option (Disk × Receiving) :=
  match r.frames with
  | [] =>
      match r.stage with
      | .reading => readOuter d r
      | _ => none
  | f :: fs =>
      match r.stage with
      | .reading => some (readInner env d r f fs)
      | .held id positions reading => some (d, readHeld env d r id positions reading f fs)
      | .ready stored =>
          if d.registry.blockExists f.id then some (d, r.close f fs)
          else some (d, { r with stage := .missing stored })
      | .missing stored =>
          if stored.replaces (d.registry.lookup f.id) then
            some ({ d with registry := d.registry.store f.id stored }, r.close f fs)
          else some (d, { r with stage := .refused })
      | .raised _ => none
      | .refused => none

end Receiving

inductive Rewriting.Stage where
  | next
  -- _store_payload: block_exists has been asked
  | missing
  -- split_block: between its two renames
  | between
  | raised (e : Err)
  | refused

-- A new form of a block, and the content that it was made of.
structure Form where
  id : BlockId
  directory : Directory
  content : Bytes

-- A thread in split_block, with the payloads that are still to be stored and then the swap.
structure Rewriting where
  payloads : List Bytes
  form : Option Form
  stage : Rewriting.Stage := .next

namespace Rewriting

variable (env : Enviroment) (d : Disk) (r : Rewriting)

-- A payload is hashed while it is copied beside the blocks.
def storeNext (content : Bytes) (rest : List Bytes) : Disk × Rewriting :=
  let d := { d with hashed := content :: d.hashed }
  if d.registry.blockExists (env.hashFactory content) then (d, { r with payloads := rest })
  else (d, { r with stage := .missing })

def storeMissing (content : Bytes) (rest : List Bytes) : Disk × Rewriting :=
  let id := env.hashFactory content
  if (Stored.file content).replaces (d.registry.lookup id) then
    ({ d with registry := d.registry.store id (.file content) },
      { r with payloads := rest, stage := .next })
  else (d, { r with stage := .refused })

-- The old form steps aside once the content has been found to have the block's name.
def retire (form : Form) : Disk × Rewriting :=
  let d := { d with hashed := form.content :: d.hashed }
  match d.registry.lookup form.id with
  | none => (d, { r with stage := .raised .fileNotFound })
  | some _ =>
      ({ d with registry := d.registry.remove form.id, aside := form.id :: d.aside },
        { r with stage := .between })

def install (form : Form) : Disk × Rewriting :=
  let aside := d.aside.filter (· ≠ form.id)
  if (Stored.dir form.directory).replaces (d.registry.lookup form.id) then
    ({ d with registry := d.registry.store form.id (.dir form.directory), aside },
      { r with form := none, stage := .next })
  else ({ d with aside }, { r with stage := .refused })

def step : Option (Disk × Rewriting) :=
  match r.payloads with
  | content :: rest =>
      match r.stage with
      | .next => some (storeNext env d r content rest)
      | .missing => some (storeMissing env d r content rest)
      | _ => none
  | [] =>
      match r.form with
      | none => none
      | some form =>
          match r.stage with
          | .next => some (retire d r form)
          | .between => some (install d r form)
          | _ => none

end Rewriting

inductive Creating.Stage where
  | hashing
  -- create_block: it has asked once, and copy_to_block_dir or move_to_block_dir asks again
  | asked
  | missing
  | created
  -- the second answer is another one: "file could not be moved"
  | unmoved
  | refused

-- A thread in create_block, with a file that nobody else has.
structure Creating where
  content : Bytes
  stage : Creating.Stage := .hashing

-- What is copied beside the blocks or moved from elsewhere is renamed in either case.
def Creating.step (env : Enviroment) (d : Disk) (c : Creating) : Option (Disk × Creating) :=
  let id := env.hashFactory c.content
  match c.stage with
  | .hashing =>
      let d := { d with hashed := c.content :: d.hashed }
      some (d, { c with stage := if d.registry.blockExists id then .created else .asked })
  | .asked => some (d, { c with stage := if d.registry.blockExists id then .unmoved else .missing })
  | .missing =>
      if (Stored.file c.content).replaces (d.registry.lookup id) then
        some ({ d with registry := d.registry.store id (.file c.content) },
          { c with stage := .created })
      else some (d, { c with stage := .refused })
  | .created => none
  | .unmoved => none
  | .refused => none

-- What a thread has to do with the block directory.
inductive Job where
  | read (id : BlockId)
  | receive (forest : Forest)
  | split (payloads : List Bytes) (form : Form)
  | create (content : Bytes)

inductive Worker where
  | reading (r : BlockRead)
  | receiving (r : Receiving)
  | rewriting (r : Rewriting)
  | creating (c : Creating)

def Job.start : Job → Worker
  | .read id => .reading (.start id)
  | .receive forest => .receiving { frames := [], outer := forest }
  | .split payloads form => .rewriting { payloads, form := some form }
  | .create content => .creating { content }

namespace Worker

def step (env : Enviroment) (d : Disk) : Worker → Option (Disk × Worker)
  | .reading r => (r.step env d.registry).map fun next => (d, .reading next)
  | .receiving r => (r.step env d).map fun after => (after.1, .receiving after.2)
  | .rewriting r => (r.step env d).map fun after => (after.1, .rewriting after.2)
  | .creating c => (c.step env d).map fun after => (after.1, .creating after.2)

def opened : Worker → List BlockId
  | .reading r => r.opened
  | .receiving r => r.stage.opened
  | _ => []

-- The block whose old form the next turn moves away.
def retires : Worker → Option BlockId
  | .rewriting { payloads := [], form := some form, stage := .next } => some form.id
  | _ => none

end Worker

-- Threads over one block directory.
abbrev Workers (ι : Type) := Crew ι Disk Worker

def Workers.start {ι : Type} (registry : Registry) (jobs : ι → Job) : Workers ι where
  shared := { registry }
  agents i := (jobs i).start

-- No block is moved away that another thread has opened.
def Workers.Spares {ι : Type} (s : Workers ι) (i : ι) : Prop :=
  ∀ j, j ≠ i → ∀ id ∈ (s.agents i).retires, id ∉ (s.agents j).opened

instance {n : Nat} (s : Workers (Fin n)) (i : Fin n) : Decidable (s.Spares i) :=
  inferInstanceAs (Decidable (∀ j, j ≠ i → ∀ id ∈ (s.agents i).retires, id ∉ (s.agents j).opened))

end BeeRpc
