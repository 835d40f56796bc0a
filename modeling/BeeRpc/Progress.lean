import BeeRpc.Alone

namespace BeeRpc

open Wire Naming Interleaving

section Reads

variable {env : Enviroment} {contents : Set Bytes} {d : Disk}

-- A reader gets behind the task, or raises.
def BlockRead.Task.Finishes (env : Enviroment) (registry : Registry) (task : BlockRead.Task) : Prop :=
  ∀ tasks given, ∃ next, BlockRead.Reaches env registry { tasks := task :: tasks, given } next ∧
    (next.raised = none → next.tasks = tasks)

theorem finishes_all {registry : Registry} (tasks : List BlockRead.Task)
    (h : ∀ task ∈ tasks, task.Finishes env registry) (rest : List BlockRead.Task) (given : Bytes) :
    ∃ next, BlockRead.Reaches env registry { tasks := tasks ++ rest, given } next ∧
      (next.raised = none → next.tasks = rest) := by
  induction tasks generalizing given with
  | nil => exact ⟨_, .refl, fun _ => rfl⟩
  | cons task tasks ih =>
      obtain ⟨⟨left, given', raised⟩, hnext, htasks⟩ := h task (List.mem_cons_self ..) (tasks ++ rest) given
      cases raised with
      | some e => exact ⟨_, hnext, fun hnone => by cases hnone⟩
      | none =>
          obtain rfl : left = tasks ++ rest := htasks rfl
          obtain ⟨last, hlast, hrest⟩ := ih (fun other hother => h other (List.mem_cons_of_mem _ hother))
            given'
          exact ⟨last, hnext.trans hlast, hrest⟩

theorem finishes_of_access {registry : Registry} {task : BlockRead.Task}
    (h : ∀ more content, task.access env registry = .ok (more, content) →
      ∀ other ∈ more, other.Finishes env registry) : task.Finishes env registry := by
  intro tasks given
  cases haccess : task.access env registry with
  | error e =>
      refine ⟨{ tasks := task :: tasks, given, raised := some e }, .single ?_, fun hnone => by cases hnone⟩
      simp only [BlockRead.step, haccess]
  | ok result =>
      obtain ⟨more, content⟩ := result
      have hstep : BlockRead.step env registry { tasks := task :: tasks, given } =
          some { tasks := more ++ tasks, given := given ++ content } := by
        simp only [BlockRead.step, haccess]
      obtain ⟨next, hnext, htasks⟩ := finishes_all more (h more content haccess) tasks (given ++ content)
      exact ⟨next, .head hstep hnext, htasks⟩

theorem finishes_of_nothing {registry : Registry} {task : BlockRead.Task}
    (h : ∀ more content, task.access env registry = .ok (more, content) → more = []) :
    task.Finishes env registry := by
  refine finishes_of_access fun more content haccess other hother => ?_
  rw [h more content haccess] at hother
  cases hother

theorem verify_finishes (registry : Registry) (id : BlockId) :
    (BlockRead.Task.verify id).Finishes env registry := by
  refine finishes_of_nothing fun more content haccess => ?_
  simp only [BlockRead.Task.access] at haccess
  split at haccess
  · split at haccess
    · cases haccess
    · exact (Prod.mk.inj (Except.ok.inj haccess)).1.symm
  · cases haccess

theorem file_finishes (registry : Registry) (id : BlockId) :
    (BlockRead.Task.file id).Finishes env registry := by
  refine finishes_of_nothing fun more content haccess => ?_
  simp only [BlockRead.Task.access] at haccess
  split at haccess
  · exact (Prod.mk.inj (Except.ok.inj haccess)).1.symm
  · exact (Prod.mk.inj (Except.ok.inj haccess)).1.symm

theorem part_finishes (registry : Registry) (id : BlockId) (index : Nat) :
    (BlockRead.Task.part id index).Finishes env registry := by
  refine finishes_of_nothing fun more content haccess => ?_
  simp only [BlockRead.Task.access] at haccess
  split at haccess
  · exact (Prod.mk.inj (Except.ok.inj haccess)).1.symm
  · exact (Prod.mk.inj (Except.ok.inj haccess)).1.symm

theorem block_finishes {registry : Registry} {id : BlockId}
    (hjson : (BlockRead.Task.json id).Finishes env registry) :
    (BlockRead.Task.block id).Finishes env registry := by
  refine finishes_of_access fun more content haccess task htask => ?_
  simp only [BlockRead.Task.access] at haccess
  split at haccess
  · cases haccess
  · obtain ⟨rfl, -⟩ := Prod.mk.inj (Except.ok.inj haccess)
    rcases List.mem_cons.mp htask with rfl | htask
    · exact verify_finishes registry id
    · obtain rfl := List.mem_singleton.mp htask
      exact file_finishes registry id
  · obtain ⟨rfl, -⟩ := Prod.mk.inj (Except.ok.inj haccess)
    obtain rfl := List.mem_singleton.mp htask
    exact hjson

-- By the length of the content: the blocks in a block are shorter than it is.
theorem json_finishes (hd : d.Sound env contents) (n : Nat) (id : BlockId)
    (hlength : ∀ content, meaning env contents id = some content → content.length < n) :
    (BlockRead.Task.json id).Finishes env d.registry := by
  induction n generalizing id with
  | zero =>
      refine finishes_of_nothing fun more content haccess => ?_
      simp only [BlockRead.Task.access] at haccess
      split at haccess
      · rename_i directory hl
        obtain ⟨whole, hwhole, -⟩ := hd id _ hl
        exact absurd (hlength whole hwhole) (Nat.not_lt_zero _)
      · cases haccess
  | succ n ih =>
      refine finishes_of_access fun more content haccess task htask => ?_
      simp only [BlockRead.Task.access] at haccess
      split at haccess
      · rename_i directory hl
        obtain ⟨rfl, -⟩ := Prod.mk.inj (Except.ok.inj haccess)
        obtain ⟨entry, hentry, rfl⟩ := List.mem_map.mp htask
        obtain ⟨whole, hwhole, hform⟩ := hd id _ hl
        have hless := hlength whole hwhole
        cases entry with
        | part index => exact part_finishes d.registry id index
        | block sub positions =>
            have hsub : sub ∈ (Stored.dir directory).blocks := mem_storedBlocks.mpr ⟨positions, hentry⟩
            refine block_finishes (ih sub fun bytes hbytes => ?_)
            have hshorter := hform.shorter hwhole hsub hbytes
            omega
      · cases haccess

theorem task_finishes (hd : d.Sound env contents) (task : BlockRead.Task) :
    task.Finishes env d.registry := by
  have hjson : ∀ id, (BlockRead.Task.json id).Finishes env d.registry := by
    intro id
    cases hmeaning : meaning env contents id with
    | none =>
        refine json_finishes hd 0 id fun content hcontent => ?_
        rw [hmeaning] at hcontent
        cases hcontent
    | some whole =>
        refine json_finishes hd (whole.length + 1) id fun content hcontent => ?_
        obtain rfl := Option.some.inj (hmeaning.symm.trans hcontent)
        exact Nat.lt_succ_self _
  cases task with
  | block id => exact block_finishes (hjson id)
  | verify id => exact verify_finishes d.registry id
  | json id => exact hjson id
  | file id => exact file_finishes d.registry id
  | part id index => exact part_finishes d.registry id index

theorem read_halts (hd : d.Sound env contents) (r : BlockRead) :
    ∃ next, BlockRead.Reaches env d.registry r next ∧ next.step env d.registry = none := by
  obtain ⟨tasks, given, raised⟩ := r
  cases raised with
  | some e => exact ⟨_, .refl, rfl⟩
  | none =>
      obtain ⟨⟨left, given', raised⟩, hnext, hleft⟩ :=
        finishes_all tasks (fun task _ => task_finishes hd task) [] given
      rw [List.append_nil] at hnext
      refine ⟨_, hnext, ?_⟩
      cases raised with
      | some e => rfl
      | none =>
          obtain rfl : left = [] := hleft rfl
          rfl

def BlockRead.distance (r : BlockRead) : Nat :=
  match r.raised, r.tasks with
  | none, _ :: _ => 1
  | _, _ => 0

theorem read_nearer (hd : d.Sound env contents) {r next : BlockRead}
    (hact : r.step env d.registry = some next) :
    ∃ last, BlockRead.Reaches env d.registry r last ∧ last.distance < r.distance := by
  have hmore : r.distance = 1 := by
    obtain ⟨tasks, given, raised⟩ := r
    cases raised with
    | some e => cases hact
    | none =>
        cases tasks with
        | nil => cases hact
        | cons task tasks => rfl
  obtain ⟨⟨tasks, given, raised⟩, hlast, hnone⟩ := read_halts hd r
  refine ⟨_, hlast, ?_⟩
  rw [hmore]
  cases raised with
  | some e => exact Nat.one_pos
  | none =>
      cases tasks with
      | nil => exact Nat.one_pos
      | cons task tasks =>
          simp only [BlockRead.step] at hnone
          split at hnone <;> cases hnone

end Reads

section Distances

variable {env : Enviroment} {contents : Set Bytes} {d : Disk}

-- The turns that a thread takes at most for what is still to come, apart from those to read.
def Forest.turns : Forest → Nat
  | .nil => 0
  | .chunk _ _ rest => rest.turns + 1
  | .block _ _ body rest => body.turns + rest.turns + 4

def Receiving.ahead (r : Receiving) : Nat :=
  (r.frames.map fun f => f.rest.turns + 3).sum + r.outer.turns

def Receiving.distance (r : Receiving) : Nat :=
  match r.stage with
  | .reading => r.ahead
  | .held _ _ _ => r.ahead + 1
  | .ready _ => r.ahead - 1
  | .missing _ => r.ahead - 2
  | .raised _ => 0
  | .refused => 0

theorem close_nearer {r : Receiving} {f : Writing} {fs : List Writing} (hframes : r.frames = f :: fs) :
    (r.close f fs).distance + 3 + f.rest.turns = r.ahead := by
  cases fs with
  | nil =>
      simp only [Receiving.close, Receiving.distance, Receiving.ahead, hframes, List.map_nil,
        List.map_cons, List.sum_cons, List.sum_nil]
      omega
  | cons g gs =>
      simp only [Receiving.close, Receiving.distance, Receiving.ahead, hframes, List.map_cons,
        List.sum_cons]
      omega

theorem readOuter_nearer {r : Receiving} {after : Disk × Receiving} (hframes : r.frames = [])
    (hstage : r.stage = .reading) (hact : r.readOuter d = some after) :
    after.2.distance < r.distance := by
  unfold Receiving.readOuter at hact
  split at hact
  · cases hact
  · rename_i heq
    obtain rfl := Option.some.inj hact
    simp only [Receiving.distance, hstage, Receiving.ahead, heq, Forest.turns]
    omega
  · rename_i heq
    split at hact
    · obtain rfl := Option.some.inj hact
      simp only [Receiving.distance, hstage, Receiving.ahead, heq, Forest.turns]
      omega
    · obtain rfl := Option.some.inj hact
      simp only [Receiving.distance, hstage, Receiving.ahead, heq, hframes, Forest.turns,
        List.map_nil, List.map_cons, List.sum_cons, List.sum_nil]
      omega

theorem readInner_nearer {r : Receiving} {f : Writing} {fs : List Writing}
    (hframes : r.frames = f :: fs) (hstage : r.stage = .reading) :
    (r.readInner env d f fs).2.distance < r.distance := by
  have hahead : r.ahead = f.rest.turns + 3 + (fs.map fun f => f.rest.turns + 3).sum +
      r.outer.turns := by
    simp only [Receiving.ahead, hframes, List.map_cons, List.sum_cons]
  have hnow : r.distance = r.ahead := by
    simp only [Receiving.distance, hstage]
  rw [hnow]
  unfold Receiving.readInner
  split
  · simp only
    split
    · simp only [Receiving.distance]
      change r.ahead - 1 < r.ahead
      omega
    · simp only [Receiving.distance]
      omega
  · rename_i heq
    rw [hahead, heq]
    simp only [Receiving.distance, hstage, Receiving.ahead, Forest.turns, List.map_cons,
      List.sum_cons]
    omega
  · rename_i heq
    rw [hahead, heq]
    split
    · simp only [Receiving.distance, Receiving.ahead, Forest.turns, List.map_cons, List.sum_cons]
      omega
    · simp only [Receiving.distance, hstage, Receiving.ahead, Forest.turns, List.map_cons,
        List.sum_cons]
      omega

-- A block that is held is read to its end first.
theorem held_nearer (hd : d.Sound env contents) {r : Receiving} {f : Writing} {fs : List Writing}
    (hframes : r.frames = f :: fs) {id : BlockId} {positions : List Nat} {reading : BlockRead}
    (hstage : r.stage = .held id positions reading) :
    ∃ after, Alone (Receiving.step env) (d, r) after ∧ after.2.distance < r.distance := by
  obtain ⟨frames, outer, stage⟩ := r
  obtain rfl : frames = f :: fs := hframes
  obtain rfl : stage = .held id positions reading := hstage
  obtain ⟨next, hnext, hnone⟩ := read_halts hd reading
  refine ⟨_, (held_reaches id positions hnext).tail rfl, ?_⟩
  simp only [Receiving.readHeld, hnone]
  cases next.raised with
  | some e =>
      simp only [Receiving.distance]
      omega
  | none =>
      simp only [Receiving.distance, Receiving.ahead, List.map_cons, List.sum_cons]
      omega

theorem receiving_nearer (hd : d.Sound env contents) {r : Receiving} {after : Disk × Receiving}
    (hact : r.step env d = some after) :
    ∃ later, Alone (Receiving.step env) (d, r) later ∧ later.2.distance < r.distance := by
  have hone : Alone (Receiving.step env) (d, r) after := .single hact
  unfold Receiving.step at hact
  split at hact
  · rename_i hframes
    split at hact
    · rename_i hstage
      exact ⟨after, hone, readOuter_nearer hframes hstage hact⟩
    · cases hact
  · rename_i f fs hframes
    have hclose := close_nearer hframes
    split at hact
    · rename_i hstage
      obtain rfl := Option.some.inj hact
      exact ⟨_, hone, readInner_nearer hframes hstage⟩
    · rename_i id positions reading hstage
      exact held_nearer hd hframes hstage
    · rename_i stored hstage
      refine ⟨after, hone, ?_⟩
      have hnow : r.distance = r.ahead - 1 := by
        simp only [Receiving.distance, hstage]
      split at hact
      · obtain rfl := Option.some.inj hact
        change (r.close f fs).distance < r.distance
        omega
      · obtain rfl := Option.some.inj hact
        rw [hnow]
        simp only [Receiving.distance]
        change r.ahead - 2 < r.ahead - 1
        omega
    · rename_i stored hstage
      refine ⟨after, hone, ?_⟩
      have hnow : r.distance = r.ahead - 2 := by
        simp only [Receiving.distance, hstage]
      split at hact
      · obtain rfl := Option.some.inj hact
        change (r.close f fs).distance < r.distance
        omega
      · obtain rfl := Option.some.inj hact
        rw [hnow]
        simp only [Receiving.distance]
        omega
    · cases hact
    · cases hact

def Rewriting.distance (r : Rewriting) : Nat :=
  let ahead := 2 * r.payloads.length + (if r.form.isSome then 2 else 0)
  match r.stage with
  | .next => ahead
  | .missing => ahead - 1
  | .between => ahead - 1
  | .raised _ => 0
  | .refused => 0

theorem rewriting_nearer {r : Rewriting} {after : Disk × Rewriting}
    (hact : r.step env d = some after) : after.2.distance < r.distance := by
  unfold Rewriting.step at hact
  split at hact
  · rename_i content rest hpayloads
    split at hact
    · rename_i hstage
      obtain rfl := Option.some.inj hact
      simp only [Rewriting.storeNext]
      split
      · simp only [Rewriting.distance, hstage, hpayloads, List.length_cons]
        omega
      · simp only [Rewriting.distance, hstage, hpayloads, List.length_cons]
        omega
    · rename_i hstage
      obtain rfl := Option.some.inj hact
      simp only [Rewriting.storeMissing]
      split
      · simp only [Rewriting.distance, hstage, hpayloads, List.length_cons]
        omega
      · simp only [Rewriting.distance, hstage, hpayloads, List.length_cons]
        omega
    · cases hact
  · rename_i hpayloads
    split at hact
    · cases hact
    · rename_i form hform
      split at hact
      · rename_i hstage
        obtain rfl := Option.some.inj hact
        simp only [Rewriting.retire]
        split
        · simp [Rewriting.distance, hstage, hform]
        · simp [Rewriting.distance, hstage, hform, hpayloads]
      · rename_i hstage
        obtain rfl := Option.some.inj hact
        simp only [Rewriting.install]
        split
        · simp [Rewriting.distance, hstage, hform, hpayloads]
        · simp [Rewriting.distance, hstage, hform, hpayloads]
      · cases hact

def Creating.distance (c : Creating) : Nat :=
  match c.stage with
  | .hashing => 3
  | .asked => 2
  | .missing => 1
  | _ => 0

theorem creating_nearer {c : Creating} {after : Disk × Creating} (hact : c.step env d = some after) :
    after.2.distance < c.distance := by
  obtain ⟨own, stage⟩ := c
  cases stage with
  | hashing =>
      obtain rfl := Option.some.inj hact
      cases d.registry.blockExists (env.hashFactory own) with
      | true => simp [Creating.distance]
      | false => simp [Creating.distance]
  | asked =>
      obtain rfl := Option.some.inj hact
      cases d.registry.blockExists (env.hashFactory own) with
      | true => simp [Creating.distance]
      | false => simp [Creating.distance]
  | missing =>
      simp only [Creating.step] at hact
      split at hact
      · obtain rfl := Option.some.inj hact
        simp [Creating.distance]
      · obtain rfl := Option.some.inj hact
        simp [Creating.distance]
  | created => cases hact
  | unmoved => cases hact
  | refused => cases hact

end Distances

section Progress

variable {env : Enviroment} {contents : Set Bytes} {job : Job}

def Worker.distance : Worker → Nat
  | .reading r => r.distance
  | .receiving r => r.distance
  | .rewriting r => r.distance
  | .creating c => c.distance

theorem worker_nearer {d : Disk} {w : Worker} (hd : d.Sound env contents) {after : Disk × Worker}
    (hact : w.step env d = some after) :
    ∃ later, Alone (Worker.step env) (d, w) later ∧ later.2.distance < w.distance := by
  cases w with
  | reading r =>
      obtain ⟨next, hnext, rfl⟩ := Option.map_eq_some_iff.mp hact
      obtain ⟨last, hlast, hless⟩ := read_nearer hd hnext
      exact ⟨_, reading_alone hlast, hless⟩
  | receiving r =>
      obtain ⟨next, hnext, rfl⟩ := Option.map_eq_some_iff.mp hact
      obtain ⟨later, hlater, hless⟩ := receiving_nearer hd hnext
      exact ⟨_, receiving_alone hlater, hless⟩
  | rewriting r =>
      obtain ⟨next, hnext, rfl⟩ := Option.map_eq_some_iff.mp hact
      exact ⟨_, .single hact, rewriting_nearer hnext⟩
  | creating c =>
      obtain ⟨next, hnext, rfl⟩ := Option.map_eq_some_iff.mp hact
      exact ⟨_, .single hact, creating_nearer hnext⟩

-- A thread that is left alone, where the contents it hashes have their own digests.
structure Worker.Left (env : Enviroment) (contents : Set Bytes) (job : Job) (x : Disk × Worker) :
    Prop where
  disk : x.1.Sound env contents
  own : x.2.Sound env contents x.1 job
  checked : ∀ y, Alone (Worker.step env) x y → y.1.Checked contents

theorem Worker.Left.step (hinj : Set.InjOn env.hashFactory contents) {x y : Disk × Worker}
    (h : Worker.Left env contents job x) (hact : x.2.step env x.1 = some y) :
    Worker.Left env contents job y := by
  have hone : Alone (Worker.step env) x y := .single hact
  obtain ⟨hdisk, hown⟩ := worker_turn hinj h.disk h.own hact (h.checked y hone)
  exact ⟨hdisk, hown, fun z hz => h.checked z (hone.trans hz)⟩

theorem Worker.Left.halts (hinj : Set.InjOn env.hashFactory contents) {x : Disk × Worker}
    (h : Worker.Left env contents job x) :
    ∃ y, Alone (Worker.step env) x y ∧ (y.2.Ended ∨ y.2.stopped = true) := by
  have hkeeps : ∀ x y, Worker.Left env contents job x → Worker.step env x.1 x.2 = some y →
      Worker.Left env contents job y := fun _ _ hx hact => hx.step hinj hact
  have hnearer : ∀ x y, Worker.Left env contents job x → Worker.step env x.1 x.2 = some y →
      ∃ z, Alone (Worker.step env) x z ∧ z.2.distance < x.2.distance :=
    fun _ _ hx hact => worker_nearer hx.disk hact
  obtain ⟨y, hy, hnone⟩ := halts_of_nearer (fun x => x.2.distance) hkeeps hnearer h
  exact ⟨y, hy, step_none (alone_good hkeeps h hy).own hnone⟩

-- All that a thread hashes on its way.
def hashedOn (env : Enviroment) (registry : Registry) (x : Disk × Worker) : Set Bytes :=
  { content | (∃ y, Alone (Worker.step env) x y ∧ content ∈ y.1.hashed) ∨
      ∃ id, registry.expansion id = some content }

theorem alone_hashed {x y : Disk × Worker} (h : Alone (Worker.step env) x y) {content : Bytes}
    (hmem : content ∈ x.1.hashed) : content ∈ y.1.hashed := by
  induction h with
  | refl => exact hmem
  | tail _ hact ih => exact (worker_leaves hact).1.hashed content ih

-- Two contents of one digest are both hashed at some point.
theorem hashedOn_injective {registry : Registry} {x : Disk × Worker}
    (h : ∀ y, Alone (Worker.step env) x y → Set.InjOn env.hashFactory
      { content | content ∈ y.1.hashed ∨ ∃ id, registry.expansion id = some content }) :
    Set.InjOn env.hashFactory (hashedOn env registry x) := by
  rintro left (⟨y, hy, hleft⟩ | hleft) right (⟨z, hz, hright⟩ | hright) hdigest
  · rcases alone_linear hy hz with hyz | hzy
    · exact h z hz (Or.inl (alone_hashed hyz hleft)) (Or.inl hright) hdigest
    · exact h y hy (Or.inl hleft) (Or.inl (alone_hashed hzy hright)) hdigest
  · exact h y hy (Or.inl hleft) (Or.inr hright) hdigest
  · exact h z hz (Or.inr hleft) (Or.inl hright) hdigest
  · exact h x .refl (Or.inr hleft) (Or.inr hright) hdigest

end Progress

-- Wherever the others have stopped, a thread that goes on alone is done after some turns, or has
-- raised, or has come to a content with the digest of another one.
theorem workers_progress {ι : Type} [DecidableEq ι] (env : Enviroment) (jobs : ι → Job)
    (registry : Registry) (schedule : List ι) (s : Workers ι) (i : ι)
    (haddressed : registry.ContentAddressed env) (hfit : ∀ i, (jobs i).Fit env)
    (hspares : Along (Crew.step (Worker.step env)) Workers.Spares (Workers.start registry jobs)
      schedule)
    (hrun : Interleaving.run (Crew.step (Worker.step env)) (Workers.start registry jobs) schedule =
      some s) :
    ∃ turns later,
      Interleaving.run (Crew.step (Worker.step env)) s (List.replicate turns i) = some later ∧
      ((later.agents i).Ended ∨ (later.agents i).stopped = true ∨
        ¬ Set.InjOn env.hashFactory
          { content | content ∈ later.shared.hashed ∨ ∃ id, registry.expansion id = some content }) := by
  by_cases hall : ∀ y, Alone (Worker.step env) (s.shared, s.agents i) y → Set.InjOn env.hashFactory
      { content | content ∈ y.1.hashed ∨ ∃ id, registry.expansion id = some content }
  · have hinj := hashedOn_injective hall
    have hchecked : ∀ y, Alone (Worker.step env) (s.shared, s.agents i) y →
        y.1.Checked (hashedOn env registry (s.shared, s.agents i)) :=
      fun y hy content hmem => Or.inl ⟨y, hy, hmem⟩
    obtain ⟨hsound, hown⟩ := workers_sound hinj haddressed hfit hspares hrun
      (fun id content hexpansion => Or.inr ⟨id, hexpansion⟩) (hchecked _ .refl)
    have hleft : Worker.Left env (hashedOn env registry (s.shared, s.agents i)) (jobs i)
        (s.shared, s.agents i) := ⟨hsound, hown i, hchecked⟩
    obtain ⟨y, hy, hends⟩ := hleft.halts hinj
    obtain ⟨turns, hturns⟩ := alone_run hy
    refine ⟨turns, _, hturns, ?_⟩
    simp only [Function.update_self]
    exact hends.imp_right Or.inl
  · obtain ⟨y, hnot⟩ := not_forall.mp hall
    obtain ⟨hy, hcollision⟩ := Classical.not_imp.mp hnot
    obtain ⟨turns, hturns⟩ := alone_run hy
    exact ⟨turns, _, hturns, Or.inr (Or.inr hcollision)⟩

theorem workers_progress_sample :
    let schedule : List (Fin 5) := [4, 0, 1, 2, 3, 0, 4, 3, 0, 0, 1, 0]
    let start := Workers.start .flat Job.sample
    let s := (Interleaving.run (Crew.step (Worker.step .sample)) start schedule).getD start
    ∃ turns later,
      Interleaving.run (Crew.step (Worker.step .sample)) s (List.replicate turns 1) = some later ∧
      ((later.agents 1).Ended ∨ (later.agents 1).stopped = true ∨
        ¬ Set.InjOn Enviroment.sample.hashFactory { content | content ∈ later.shared.hashed ∨
          ∃ id, Registry.flat.expansion id = some content }) := by
  have hsome : (Interleaving.run (Crew.step (Worker.step .sample)) (Workers.start .flat Job.sample)
      [4, 0, 1, 2, 3, 0, 4, 3, 0, 0, 1, 0]).isSome = true := by
    decide +kernel
  exact workers_progress .sample Job.sample .flat [4, 0, 1, 2, 3, 0, 4, 3, 0, 0, 1, 0] _ 1
    flat_contentAddressed Job.sample_fit (by decide +kernel)
    ((Option.eq_some_of_isSome hsome).trans (congrArg some (Option.get_eq_getD _)))

section Undisturbed

variable (env : Enviroment)

-- What a task is to find is there.
def BlockRead.Task.There (registry : Registry) : BlockRead.Task → Prop
  | .block id => registry.blockExists id = true
  | .verify id => ∃ content, registry.lookup id = some (.file content)
  | .json id => ∃ directory, registry.lookup id = some (.dir directory)
  | _ => True

def BlockRead.Undisturbed (registry : Registry) (r : BlockRead) : Prop :=
  r.raised = none ∧ ∀ task ∈ r.tasks, task.There registry

variable {env} {contents : Set Bytes} {d : Disk}

theorem access_there (hd : d.Sound env contents) (haside : d.aside = []) {task : BlockRead.Task}
    (h : task.There d.registry) : ∃ more content,
      task.access env d.registry = .ok (more, content) ∧ ∀ other ∈ more, other.There d.registry := by
  cases task with
  | block id =>
      obtain ⟨stored, hl⟩ := Registry.blockExists_eq_true.mp h
      cases stored with
      | file content =>
          refine ⟨[.verify id, .file id], [], by simp only [BlockRead.Task.access, hl], ?_⟩
          intro other hother
          rcases List.mem_cons.mp hother with rfl | hother
          · exact ⟨content, hl⟩
          · obtain rfl := List.mem_singleton.mp hother
            trivial
      | dir directory =>
          refine ⟨[.json id], [], by simp only [BlockRead.Task.access, hl], fun other hother => ?_⟩
          obtain rfl := List.mem_singleton.mp hother
          exact ⟨directory, hl⟩
  | verify id =>
      obtain ⟨content, hl⟩ := h
      obtain ⟨found, hfound, hform⟩ := hd id _ hl
      obtain rfl := Option.some.inj hform.expands
      refine ⟨[], [], ?_, fun other hother => absurd hother List.not_mem_nil⟩
      simp only [BlockRead.Task.access, hl, (meaning_digest hfound).2, ne_eq, not_true_eq_false,
        if_false]
  | json id =>
      obtain ⟨directory, hl⟩ := h
      refine ⟨directory.json.map (JsonEntry.task id), [], by simp only [BlockRead.Task.access, hl], ?_⟩
      intro other hother
      obtain ⟨entry, hentry, rfl⟩ := List.mem_map.mp hother
      cases entry with
      | part index => trivial
      | block sub positions =>
          obtain ⟨found, -, hform⟩ := hd id _ hl
          have hpresent := (hform.inside sub (mem_storedBlocks.mpr ⟨positions, hentry⟩)).2
          rw [Disk.Present, haside] at hpresent
          exact hpresent.resolve_right List.not_mem_nil
  | file id =>
      simp only [BlockRead.Task.access]
      split
      · exact ⟨[], _, rfl, fun other hother => absurd hother List.not_mem_nil⟩
      · exact ⟨[], [], rfl, fun other hother => absurd hother List.not_mem_nil⟩
  | part id index =>
      simp only [BlockRead.Task.access]
      split
      · exact ⟨[], _, rfl, fun other hother => absurd hother List.not_mem_nil⟩
      · exact ⟨[], [], rfl, fun other hother => absurd hother List.not_mem_nil⟩

theorem BlockRead.Undisturbed.step (hd : d.Sound env contents) (haside : d.aside = [])
    {r next : BlockRead} (h : r.Undisturbed d.registry) (hact : r.step env d.registry = some next) :
    next.Undisturbed d.registry := by
  obtain ⟨hraised, hthere⟩ := h
  unfold BlockRead.step at hact
  split at hact
  · rename_i task tasks _ htasks
    rw [htasks] at hthere
    obtain ⟨more, content, haccess, hmore⟩ := access_there hd haside (hthere task (List.mem_cons_self ..))
    rw [haccess] at hact
    obtain rfl := Option.some.inj hact
    refine ⟨hraised, fun other hother => ?_⟩
    rcases List.mem_append.mp hother with hother | hother
    · exact hmore other hother
    · exact hthere other (List.mem_cons_of_mem _ hother)
  · cases hact

theorem BlockRead.Undisturbed.grows {registry registry' : Registry} {r : BlockRead}
    (h : r.Undisturbed registry) (hgrows : registry.Grows registry') : r.Undisturbed registry' := by
  refine ⟨h.1, fun task htask => ?_⟩
  have hthere := h.2 task htask
  cases task with
  | block id =>
      obtain ⟨stored, hl⟩ := Registry.blockExists_eq_true.mp hthere
      exact Registry.blockExists_eq_true.mpr ⟨stored, hgrows id stored hl⟩
  | verify id =>
      obtain ⟨content, hl⟩ := hthere
      exact ⟨content, hgrows id _ hl⟩
  | json id =>
      obtain ⟨directory, hl⟩ := hthere
      exact ⟨directory, hgrows id _ hl⟩
  | file id => trivial
  | part id index => trivial

-- A turn that moves nothing away leaves every block in its form.
theorem leaves_grows {d' : Disk} (hd : d.Sound env contents) (hd' : d'.Sound env contents)
    (h : d.Leaves none d') : d.registry.Grows d'.registry :=
  fun id _ hl => (h.keeps id (by simp)).same hd hd' hl

theorem between_none {w : Worker} {after : Disk × Worker} (hbetween : w.between = none)
    (hretires : w.retires = none) (hact : w.step env d = some after) : after.2.between = none := by
  cases w with
  | reading r =>
      obtain ⟨next, hnext, rfl⟩ := Option.map_eq_some_iff.mp hact
      rfl
  | receiving r =>
      obtain ⟨next, hnext, rfl⟩ := Option.map_eq_some_iff.mp hact
      rfl
  | creating c =>
      obtain ⟨next, hnext, rfl⟩ := Option.map_eq_some_iff.mp hact
      rfl
  | rewriting r =>
      obtain ⟨next, hnext, rfl⟩ := Option.map_eq_some_iff.mp hact
      obtain ⟨payloads, form, stage⟩ := r
      cases payloads with
      | cons content rest =>
          cases stage with
          | next =>
              obtain rfl := Option.some.inj hnext
              simp only [Rewriting.storeNext]
              split <;> rfl
          | missing =>
              obtain rfl := Option.some.inj hnext
              simp only [Rewriting.storeMissing]
              split <;> rfl
          | between => cases hnext
          | raised e => cases hnext
          | refused => cases hnext
      | nil =>
          cases form with
          | none => cases hnext
          | some form =>
              cases stage with
              | next => cases hretires
              | missing => cases hnext
              | between => cases hbetween
              | raised e => cases hnext
              | refused => cases hnext

-- A thread that reads a block which was there.
def Worker.Undisturbed (registry : Registry) (d : Disk) (job : Job) (w : Worker) : Prop :=
  ∀ id content, job = .read id → registry.expansion id = some content →
    ∃ r, w = .reading r ∧ r.Undisturbed d.registry

theorem undisturbed_rely (hinj : Set.InjOn env.hashFactory contents) {ι : Type} (jobs : ι → Job)
    (registry : Registry) :
    RelyGuarantee (Worker.step env)
      (fun d => d.Checked contents → d.Sound env contents ∧ d.aside = [] ∧
        registry.Grows d.registry)
      (fun i d w => d.Checked contents → w.Sound env contents d (jobs i) ∧ w.between = none ∧
        w.Undisturbed registry d (jobs i))
      (fun w d d' => d.Leaves w.retires d') (fun w => w.retires = none)
      fun w _ => w.retires = none where
  turn i d w d' w' hinv hown hretires hact := by
    obtain ⟨hleaves, haside⟩ := worker_leaves hact
    have hboth : d'.Checked contents →
        (d'.Sound env contents ∧ d'.aside = [] ∧ registry.Grows d'.registry) ∧
          w'.Sound env contents d' (jobs i) ∧ w'.between = none ∧
            w'.Undisturbed registry d' (jobs i) := by
      intro hchecked
      have hbefore := hleaves.toMoves.checked hchecked
      obtain ⟨hd, hempty, hgrows⟩ := hinv hbefore
      obtain ⟨hw, hbetween, hreads⟩ := hown hbefore
      obtain ⟨hd', hw'⟩ := worker_turn hinj hd hw hact hchecked
      have hbetween' := between_none hbetween hretires hact
      have hmore := leaves_grows hd hd' (hretires ▸ hleaves)
      refine ⟨⟨hd', ?_, hgrows.trans hmore⟩, hw', hbetween', ?_⟩
      · refine List.eq_nil_iff_forall_not_mem.mpr fun id hid => ?_
        rcases haside id hid with hnow | ⟨hold, -⟩
        · rw [hbetween'] at hnow
          cases hnow
        · rw [hempty] at hold
          cases hold
      · intro id content hjob hexpansion
        obtain ⟨r, rfl, hr⟩ := hreads id content hjob hexpansion
        obtain ⟨next, hnext, hafter⟩ := Option.map_eq_some_iff.mp hact
        obtain ⟨rfl, rfl⟩ := Prod.mk.inj hafter
        exact ⟨next, rfl, hr.step hd hempty hnext⟩
    exact ⟨fun hchecked => (hboth hchecked).1, fun hchecked => (hboth hchecked).2, hleaves⟩
  rely i d d' w other hinv hinv' hown hleaves hretires hchecked := by
    have hbefore := hleaves.toMoves.checked hchecked
    obtain ⟨hother, hbetween, hreads⟩ := hown hbefore
    have hgrows := leaves_grows (hinv hbefore).1 (hinv' hchecked).1 (hretires ▸ hleaves)
    refine ⟨hother.moves hleaves.toMoves fun id _ stored hl => hgrows id stored hl, hbetween, ?_⟩
    intro id content hjob hexpansion
    obtain ⟨r, rfl, hr⟩ := hreads id content hjob hexpansion
    exact ⟨r, rfl, hr.grows hgrows⟩

end Undisturbed

-- As long as no split moves a block away, blocks are only added, all of them complete at any
-- moment, and a thread that reads one which was there raises nothing and has the front of its
-- content.
theorem workers_undisturbed {ι : Type} [DecidableEq ι] (env : Enviroment) (jobs : ι → Job)
    (registry : Registry) (schedule : List ι) (s : Workers ι)
    (haddressed : registry.ContentAddressed env) (hfit : ∀ i, (jobs i).Fit env)
    (hstays : Along (Crew.step (Worker.step env)) (fun s i => (s.agents i).retires = none)
      (Workers.start registry jobs) schedule)
    (hrun : Interleaving.run (Crew.step (Worker.step env)) (Workers.start registry jobs) schedule =
      some s)
    (hinjective : Set.InjOn env.hashFactory
      { content | content ∈ s.shared.hashed ∨ ∃ id, registry.expansion id = some content }) :
    registry.Grows s.shared.registry ∧ s.shared.registry.ContentAddressed env ∧
    ∀ i id content, jobs i = .read id → registry.expansion id = some content →
      ∃ r, s.agents i = .reading r ∧ r.raised = none ∧ r.given <+: content ∧
        (r.tasks = [] → r.given = content) := by
  generalize hcontents :
    { content | content ∈ s.shared.hashed ∨ ∃ id, registry.expansion id = some content } =
      contents at hinjective
  have hsound₀ : Disk.Sound env contents { registry } :=
    start_sound hinjective haddressed fun id content hexpansion => hcontents ▸ Or.inr ⟨id, hexpansion⟩
  have hstart : ∀ i, ((jobs i).start).Undisturbed registry { registry } (jobs i) := by
    intro i id content hjob hexpansion
    refine ⟨.start id, congrArg Job.start hjob, rfl, fun task htask => ?_⟩
    obtain rfl := List.mem_singleton.mp htask
    exact Registry.blockExists_eq_true.mpr (Registry.exists_lookup_of_expansion hexpansion)
  have hquiet : ∀ job : Job, job.start.between = none := by
    intro job
    cases job <;> rfl
  obtain ⟨hinv, hown⟩ := (undisturbed_rely hinjective jobs registry).run schedule
    (fun _ => ⟨hsound₀, rfl, .refl _⟩)
    (fun i _ => ⟨job_sound (hfit i), hquiet (jobs i), hstart i⟩)
    (along_mono (fun _ _ h => ⟨h, fun _ _ => h⟩) schedule hstays) hrun
  have hchecked : s.shared.Checked contents := fun content hmem => hcontents ▸ Or.inl hmem
  obtain ⟨hsound, haside, hgrows⟩ := hinv hchecked
  refine ⟨hgrows, fun id stored hl => ?_, fun i id content hjob hexpansion => ?_⟩
  · obtain ⟨content, hcontent, -⟩ := hsound id stored hl
    exact ⟨content, hsound.complete haside _ id content hcontent (Nat.lt_succ_self _)
      (Or.inl (Registry.blockExists_eq_true.mpr ⟨stored, hl⟩)), (meaning_digest hcontent).2⟩
  · obtain ⟨howni, -, hreads⟩ := hown i hchecked
    obtain ⟨r, hagent, hr⟩ := hreads id content hjob hexpansion
    refine ⟨r, hagent, hr.1, ?_⟩
    rw [hjob, hagent] at howni
    have hmeaning : meaning env contents id = some content := hsound₀.expansion hexpansion
    cases howni with
    | reading howni =>
        rcases howni hr.1 with rfl | ⟨-, found, hfound, hread⟩
        · exact ⟨List.nil_prefix, fun htasks => by cases htasks⟩
        · obtain rfl := Option.some.inj (hmeaning.symm.trans hfound)
          obtain ⟨pieces, hpieces, hcontent⟩ := hread hr.1
          refine ⟨⟨pieces.flatten, hcontent⟩, fun htasks => ?_⟩
          rw [htasks] at hpieces
          cases hpieces
          rwa [List.flatten_nil, List.append_nil] at hcontent

theorem workers_undisturbed_sample :
    let schedule : List (Fin 5) := [4, 0, 1, 2, 3, 0, 4, 3, 0, 0, 1, 0, 2, 3, 4]
    let start := Workers.start .flat Job.sample
    let s := (Interleaving.run (Crew.step (Worker.step .sample)) start schedule).getD start
    Registry.flat.Grows s.shared.registry ∧ s.shared.registry.ContentAddressed .sample ∧
    ∀ i id content, Job.sample i = .read id → Registry.flat.expansion id = some content →
      ∃ r, s.agents i = .reading r ∧ r.raised = none ∧ r.given <+: content ∧
        (r.tasks = [] → r.given = content) := by
  have hsome : (Interleaving.run (Crew.step (Worker.step .sample)) (Workers.start .flat Job.sample)
      [4, 0, 1, 2, 3, 0, 4, 3, 0, 0, 1, 0, 2, 3, 4]).isSome = true := by
    decide +kernel
  exact workers_undisturbed .sample Job.sample .flat [4, 0, 1, 2, 3, 0, 4, 3, 0, 0, 1, 0, 2, 3, 4] _
    flat_contentAddressed Job.sample_fit (by decide +kernel)
    ((Option.eq_some_of_isSome hsome).trans (congrArg some (Option.get_eq_getD _)))
    (sample_injective _)

end BeeRpc
