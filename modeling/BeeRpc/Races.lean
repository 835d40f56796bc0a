import BeeRpc.Relay
import BeeRpc.Sharing

namespace BeeRpc

open Wire Naming Interleaving

section Meaning

variable (env : Enviroment) (contents : Set Bytes)

open Classical in
-- What a name stands for among these contents.
noncomputable def meaning (id : BlockId) : Option Bytes :=
  if h : ∃ content ∈ contents, env.hashFactory content = id then some h.choose else none

variable {env contents}

-- Where no two of them have the same digest, every one of them is what its digest stands for.
theorem meaning_eq_some (hinj : Set.InjOn env.hashFactory contents) {id : BlockId}
    {content : Bytes} :
    meaning env contents id = some content ↔ content ∈ contents ∧ env.hashFactory content = id := by
  unfold meaning
  constructor
  · intro h
    split at h
    · rename_i hsome
      obtain rfl := Option.some.inj h
      exact hsome.choose_spec
    · cases h
  · rintro ⟨hmem, hid⟩
    have hsome : ∃ content ∈ contents, env.hashFactory content = id := ⟨content, hmem, hid⟩
    rw [dif_pos hsome]
    have hspec := hsome.choose_spec
    exact congrArg some (hinj hspec.1 hmem (hspec.2.trans hid.symm))

theorem meaning_digest {id : BlockId} {content : Bytes}
    (h : meaning env contents id = some content) :
    content ∈ contents ∧ env.hashFactory content = id := by
  unfold meaning at h
  split at h
  · rename_i hsome
    obtain rfl := Option.some.inj h
    exact hsome.choose_spec
  · cases h

end Meaning

section Entries

variable {directory : Directory} {sub more : BlockId → Option Bytes}

theorem expandEntries_append (left right : List JsonEntry) (content : Bytes) :
    directory.expandEntries sub (left ++ right) = some content ↔
      ∃ head tail, directory.expandEntries sub left = some head ∧
        directory.expandEntries sub right = some tail ∧ content = head ++ tail := by
  induction left generalizing content with
  | nil => simp [Directory.expandEntries]
  | cons entry left ih =>
      cases entry with
      | part index =>
          simp only [List.cons_append, Directory.expandEntries_part_eq_some, ih]
          constructor
          · rintro ⟨part, _, hpart, ⟨head, tail, hhead, htail, rfl⟩, rfl⟩
            exact ⟨_, tail, ⟨part, head, hpart, hhead, rfl⟩, htail, (List.append_assoc ..).symm⟩
          · rintro ⟨_, tail, ⟨part, head, hpart, hhead, rfl⟩, htail, rfl⟩
            exact ⟨part, _, hpart, ⟨head, tail, hhead, htail, rfl⟩, List.append_assoc ..⟩
      | block id positions =>
          simp only [List.cons_append, Directory.expandEntries_block_eq_some, ih]
          constructor
          · rintro ⟨block, _, hblock, ⟨head, tail, hhead, htail, rfl⟩, rfl⟩
            exact ⟨_, tail, ⟨block, head, hblock, hhead, rfl⟩, htail, (List.append_assoc ..).symm⟩
          · rintro ⟨_, tail, ⟨block, head, hblock, hhead, rfl⟩, htail, rfl⟩
            exact ⟨block, _, hblock, ⟨head, tail, hhead, htail, rfl⟩, List.append_assoc ..⟩

-- A directory holds the content of each of its blocks.
theorem expandEntries_inside (entries : List JsonEntry) (content : Bytes)
    (h : directory.expandEntries sub entries = some content) {id : BlockId} {positions : List Nat}
    (hmem : JsonEntry.block id positions ∈ entries) :
    ∃ bytes, sub id = some bytes ∧ bytes <:+: content := by
  obtain ⟨left, right, rfl⟩ := List.append_of_mem hmem
  obtain ⟨head, tail, -, htail, rfl⟩ := (expandEntries_append ..).mp h
  obtain ⟨bytes, rest, hbytes, -, rfl⟩ := Directory.expandEntries_block_eq_some.mp htail
  exact ⟨bytes, hbytes, head, rest, List.append_assoc ..⟩

theorem expandEntries_blocks (entries : List JsonEntry) (content : Bytes)
    (h : ∀ id positions, JsonEntry.block id positions ∈ entries → ∀ bytes, sub id = some bytes →
      more id = some bytes)
    (hs : directory.expandEntries sub entries = some content) :
    directory.expandEntries more entries = some content := by
  induction entries generalizing content with
  | nil => exact hs
  | cons entry entries ih =>
      have hrest := fun content => ih content fun id positions hmem =>
        h id positions (List.mem_cons_of_mem _ hmem)
      cases entry with
      | part index =>
          obtain ⟨head, tail, hhead, htail, rfl⟩ := Directory.expandEntries_part_eq_some.mp hs
          exact Directory.expandEntries_part_eq_some.mpr ⟨head, tail, hhead, hrest tail htail, rfl⟩
      | block id positions =>
          obtain ⟨head, tail, hhead, htail, rfl⟩ := Directory.expandEntries_block_eq_some.mp hs
          exact Directory.expandEntries_block_eq_some.mpr
            ⟨head, tail, h id positions (List.mem_cons_self ..) head hhead, hrest tail htail, rfl⟩

theorem mem_storedBlocks {id : BlockId} :
    id ∈ (Stored.dir directory).blocks ↔ ∃ positions, .block id positions ∈ directory.json := by
  simp only [Stored.blocks, Directory.blocks, List.mem_map, List.mem_filterMap]
  constructor
  · rintro ⟨⟨other, positions⟩, ⟨entry, hentry, hblock⟩, rfl⟩
    cases entry with
    | part index => cases hblock
    | block id chain =>
        cases hblock
        exact ⟨positions, hentry⟩
  · rintro ⟨positions, hmem⟩
    exact ⟨(id, positions), ⟨_, hmem, rfl⟩, rfl⟩

theorem Stored.expandWith_of_sub {stored : Stored} {content : Bytes}
    (h : ∀ id content, sub id = some content → more id = some content)
    (hs : stored.expandWith sub = some content) : stored.expandWith more = some content := by
  cases stored with
  | file bytes => exact hs
  | dir directory => exact Directory.expandEntries_mono directory h _ _ hs

theorem Stored.expandWith_inside {stored : Stored} {content : Bytes}
    (h : stored.expandWith sub = some content) {id : BlockId} (hid : id ∈ stored.blocks) :
    ∃ bytes, sub id = some bytes ∧ bytes <:+: content := by
  cases stored with
  | file bytes => cases hid
  | dir directory =>
      obtain ⟨positions, hmem⟩ := mem_storedBlocks.mp hid
      exact expandEntries_inside _ _ h hmem

end Entries

section Soundness

variable (env : Enviroment) (contents : Set Bytes)

-- A block is there, or its old form has stepped aside.
def Disk.Present (d : Disk) (id : BlockId) : Prop :=
  d.registry.blockExists id = true ∨ id ∈ d.aside

def Disk.Checked (d : Disk) : Prop := ∀ content ∈ d.hashed, content ∈ contents

-- What is stored, or about to be, stands for a content, whatever forms its blocks have by then.
structure Stored.FormOf (d : Disk) (id : BlockId) (content : Bytes) (stored : Stored) : Prop where
  expands : stored.expandWith (meaning env contents) = some content
  inside : ∀ sub ∈ stored.blocks, sub ≠ id ∧ d.Present sub

def Disk.Sound (d : Disk) : Prop := ∀ id stored, d.registry.lookup id = some stored →
  ∃ content, meaning env contents id = some content ∧ stored.FormOf env contents d id content

-- What any turn leaves to the other threads.
structure Disk.Moves (d d' : Disk) : Prop where
  present : ∀ id, d.Present id → d'.Present id
  hashed : ∀ content ∈ d.hashed, content ∈ d'.hashed

variable {env contents} {d d' : Disk}

theorem Stored.FormOf.moves {id : BlockId} {content : Bytes} {stored : Stored}
    (h : stored.FormOf env contents d id content) (hmoves : d.Moves d') :
    stored.FormOf env contents d' id content :=
  ⟨h.expands, fun sub hsub => (h.inside sub hsub).imp_right (hmoves.present sub)⟩

theorem Disk.Moves.refl (d : Disk) : d.Moves d := ⟨fun _ h => h, fun _ h => h⟩

theorem Disk.Moves.trans {a b c : Disk} (h : a.Moves b) (h' : b.Moves c) : a.Moves c :=
  ⟨fun id hid => h'.present id (h.present id hid),
    fun content hmem => h'.hashed content (h.hashed content hmem)⟩

theorem Disk.Moves.checked (h : d.Moves d') (hchecked : d'.Checked contents) :
    d.Checked contents :=
  fun content hmem => hchecked content (h.hashed content hmem)

-- The same blocks in the same forms.
theorem Disk.Sound.moves (h : d.Sound env contents) (hmoves : d.Moves d')
    (hregistry : d'.registry = d.registry) : d'.Sound env contents := by
  intro id stored hl
  rw [hregistry] at hl
  obtain ⟨content, hcontent, hform⟩ := h id stored hl
  exact ⟨content, hcontent, hform.moves hmoves⟩

-- A block stands as it did, or as a file in the place of another one.
def Disk.Keeps (d d' : Disk) (id : BlockId) : Prop :=
  ∀ stored, d.registry.lookup id = some stored → d'.registry.lookup id = some stored ∨
    ∃ old new, stored = .file old ∧ d'.registry.lookup id = some (.file new)

-- Of the forms that blocks have a turn changes the one that it moves away.
structure Disk.Leaves (away : Option BlockId) (d d' : Disk) : Prop extends d.Moves d' where
  keeps : ∀ id, away ≠ some id → d.Keeps d' id

theorem Disk.Keeps.same (hd : d.Sound env contents) (hd' : d'.Sound env contents) {id : BlockId}
    (h : d.Keeps d' id) {stored : Stored} (hl : d.registry.lookup id = some stored) :
    d'.registry.lookup id = some stored := by
  rcases h stored hl with hsame | ⟨old, new, rfl, hnew⟩
  · exact hsame
  · obtain ⟨content, hcontent, hform⟩ := hd id _ hl
    obtain ⟨content', hcontent', hform'⟩ := hd' id _ hnew
    obtain rfl := Option.some.inj (hcontent.symm.trans hcontent')
    rw [hnew, Option.some.inj (hform'.expands.trans hform.expands.symm)]

theorem leaves_registry {away : Option BlockId} (hmoves : d.Moves d')
    (hregistry : d'.registry = d.registry) : d.Leaves away d' :=
  ⟨hmoves, fun _ _ _ hl => Or.inl (hregistry ▸ hl)⟩

theorem Disk.Leaves.refl {away : Option BlockId} (d : Disk) : d.Leaves away d :=
  leaves_registry (.refl d) rfl

theorem present_store (d : Disk) (id : BlockId) (stored : Stored) (aside : List BlockId)
    (haside : ∀ other ∈ d.aside, other = id ∨ other ∈ aside) :
    d.Moves { d with registry := d.registry.store id stored, aside } := by
  refine ⟨fun other h => ?_, fun _ h => h⟩
  by_cases hother : other = id
  · subst hother
    exact Or.inl (Registry.blockExists_eq_true.mpr ⟨stored, Registry.lookup_store_self ..⟩)
  · rcases h with h | h
    · obtain ⟨entry, hl⟩ := Registry.blockExists_eq_true.mp h
      refine Or.inl (Registry.blockExists_eq_true.mpr ⟨entry, ?_⟩)
      rw [Registry.lookup_store_ne _ _ hother]
      exact hl
    · exact Or.inr ((haside other h).resolve_left hother)

theorem leaves_store {away : Option BlockId} {id : BlockId} {stored : Stored}
    (hreplaces : stored.replaces (d.registry.lookup id) = true) (aside : List BlockId)
    (haside : ∀ other ∈ d.aside, other = id ∨ other ∈ aside) :
    d.Leaves away { d with registry := d.registry.store id stored, aside } := by
  refine ⟨present_store d id stored aside haside, fun other _ entry hl => ?_⟩
  by_cases hother : other = id
  · subst hother
    rw [hl] at hreplaces
    cases entry with
    | dir directory => cases stored <;> cases hreplaces
    | file old =>
        cases stored with
        | dir directory => cases hreplaces
        | file new => exact Or.inr ⟨old, new, rfl, Registry.lookup_store_self ..⟩
  · exact Or.inl ((Registry.lookup_store_ne _ _ hother).trans hl)

-- A form of a block that is put in its place.
theorem Disk.Sound.store (h : d.Sound env contents) {id : BlockId} {stored : Stored}
    {content : Bytes} (hcontent : meaning env contents id = some content)
    (hform : stored.FormOf env contents d id content) (aside : List BlockId)
    (haside : ∀ other ∈ d.aside, other = id ∨ other ∈ aside) :
    Disk.Sound env contents { d with registry := d.registry.store id stored, aside } := by
  have hmoves := present_store d id stored aside haside
  intro other entry hl
  by_cases hother : other = id
  · subst hother
    have hself : (d.registry.store other stored).lookup other = some entry := hl
    rw [Registry.lookup_store_self] at hself
    obtain rfl := Option.some.inj hself
    exact ⟨content, hcontent, hform.moves hmoves⟩
  · have hold : (d.registry.store id stored).lookup other = some entry := hl
    rw [Registry.lookup_store_ne _ _ hother] at hold
    obtain ⟨bytes, hbytes, hform⟩ := h other entry hold
    exact ⟨bytes, hbytes, hform.moves hmoves⟩

-- What is read is always what the name stands for.
theorem Disk.Sound.whole (h : d.Sound env contents) {id : BlockId} {content : Bytes}
    (hwhole : d.registry.whole env id = some content) :
    meaning env contents id = some content := by
  refine (AtRest.left env { registry := d.registry }).value_induction
    (P := fun id content => meaning env contents id = some content) ?_ id content hwhole
  intro id content sub hsub hrule
  have hleft : AtRest.leftRule env { registry := d.registry } id sub = some content := hrule
  unfold AtRest.leftRule at hleft
  split at hleft
  · cases hleft
  · rename_i bytes hl
    obtain ⟨found, hfound, hform⟩ := h id _ hl
    have hbytes : bytes = found := Option.some.inj hform.expands
    split at hleft
    · cases hleft
    · obtain rfl := Option.some.inj hleft
      rw [hbytes]
      exact hfound
  · rename_i directory hl
    obtain ⟨found, hfound, hform⟩ := h id _ hl
    split at hleft
    · cases hleft
    · have hmore := AtRest.leftEntries_mono directory (fun j w hj => (hsub j w hj).2) _ _ hleft
      have hsame := AtRest.leftEntries_of_expand directory _ _ _ hform.expands
      rw [hfound]
      exact hsame.symm.trans hmore

theorem Disk.Sound.expansion (h : d.Sound env contents) {id : BlockId} {content : Bytes}
    (hexpansion : d.registry.expansion id = some content) :
    meaning env contents id = some content := by
  refine d.registry.contents.value_induction
    (P := fun id content => meaning env contents id = some content) ?_ id content hexpansion
  intro id content sub hsub hrule
  have hexpand : d.registry.expandRule id sub = some content := hrule
  unfold Registry.expandRule at hexpand
  split at hexpand
  · cases hexpand
  · rename_i bytes hl
    obtain ⟨found, hfound, hform⟩ := h id _ hl
    rw [hfound, ← hexpand]
    exact hform.expands.symm
  · rename_i directory hl
    obtain ⟨found, hfound, hform⟩ := h id _ hl
    have hmore := Directory.expandEntries_mono directory (fun j w hj => (hsub j w hj).2) _ _ hexpand
    rw [hfound]
    exact hform.expands.symm.trans hmore

-- A block in it of the same length would be the whole of it, under the same name.
theorem Stored.FormOf.shorter {id sub : BlockId} {content bytes : Bytes} {stored : Stored}
    (h : stored.FormOf env contents d id content) (hcontent : meaning env contents id = some content)
    (hsub : sub ∈ stored.blocks) (hbytes : meaning env contents sub = some bytes) :
    bytes.length < content.length := by
  obtain ⟨hne, -⟩ := h.inside sub hsub
  obtain ⟨other, hother, hinfix⟩ := Stored.expandWith_inside h.expands hsub
  obtain rfl := Option.some.inj (hbytes.symm.trans hother)
  refine Nat.lt_of_le_of_ne hinfix.length_le fun hsame => hne ?_
  rw [← (meaning_digest hbytes).2, ← (meaning_digest hcontent).2, hinfix.eq_of_length hsame]

-- Where nothing is aside every block is complete: each block in it is shorter than it is.
theorem Disk.Sound.complete (h : d.Sound env contents) (haside : d.aside = []) (n : Nat) :
    ∀ id content, meaning env contents id = some content → content.length < n → d.Present id →
      d.registry.expansion id = some content := by
  induction n with
  | zero => exact fun _ _ _ hlength => absurd hlength (Nat.not_lt_zero _)
  | succ n ih =>
      intro id content hcontent hlength hpresent
      rw [Disk.Present, haside] at hpresent
      obtain ⟨stored, hl⟩ := Registry.blockExists_eq_true.mp (hpresent.resolve_right List.not_mem_nil)
      obtain ⟨found, hfound, hform⟩ := h id stored hl
      obtain rfl := Option.some.inj (hcontent.symm.trans hfound)
      cases stored with
      | file bytes =>
          obtain rfl := Option.some.inj hform.expands
          exact Registry.expansion_file hl
      | dir directory =>
          rw [Registry.expansion_dir hl]
          refine expandEntries_blocks _ _ (fun sub positions hmem bytes hbytes => ?_) hform.expands
          have hsub : sub ∈ (Stored.dir directory).blocks := mem_storedBlocks.mpr ⟨positions, hmem⟩
          have hshorter := hform.shorter hcontent hsub hbytes
          exact ih sub bytes hbytes (by omega) (hform.inside sub hsub).2

end Soundness

section Reads

variable (env : Enviroment) (contents : Set Bytes)

-- What is to come of a task.
def BlockRead.Task.Gives (registry : Registry) : BlockRead.Task → Bytes → Prop
  | .block id, content => meaning env contents id = some content
  | .verify _, content => content = []
  | .json id, content => meaning env contents id = some content
  | .file id, content => registry.lookup id = some (.file content)
  | .part id index, content => ∃ directory, registry.lookup id = some (.dir directory) ∧
      directory.part index = some content

-- A reader that has not raised comes to the content.
def BlockRead.Sound (registry : Registry) (r : BlockRead) (content : Bytes) : Prop :=
  r.raised = none → ∃ pieces, List.Forall₂ (BlockRead.Task.Gives env contents registry) r.tasks pieces ∧
    r.given ++ pieces.flatten = content

variable {env contents} {d d' : Disk} {r : BlockRead} {content : Bytes}

theorem BlockRead.start_sound (registry : Registry) {id : BlockId}
    (h : meaning env contents id = some content) :
    (BlockRead.start id).Sound env contents registry content :=
  fun _ => ⟨[content], .cons h .nil, List.append_nil content⟩

-- What is open is read on in the form that it was found in.
theorem BlockRead.Sound.keeps {registry registry' : Registry}
    (h : r.Sound env contents registry content)
    (hsame : ∀ id ∈ r.opened, ∀ stored, registry.lookup id = some stored →
      registry'.lookup id = some stored) : r.Sound env contents registry' content := by
  intro hraised
  obtain ⟨pieces, hpieces, hcontent⟩ := h hraised
  refine ⟨pieces, ?_, hcontent⟩
  clear hcontent
  rw [BlockRead.opened] at hsame
  generalize r.tasks = tasks at hpieces hsame
  induction hpieces with
  | nil => exact .nil
  | @cons task piece tasks pieces hgives _ ih =>
      have hrest := ih fun id hid => hsame id (by
        rw [List.filterMap_cons]
        split
        · exact hid
        · exact List.mem_cons_of_mem _ hid)
      refine .cons ?_ hrest
      cases task with
      | block id => exact hgives
      | verify id => exact hgives
      | json id => exact hgives
      | file id => exact hsame id (List.mem_cons_self ..) _ hgives
      | part id index =>
          obtain ⟨directory, hl, hpart⟩ := hgives
          exact ⟨directory, hsame id (List.mem_cons_self ..) _ hl, hpart⟩

theorem gives_entries {registry : Registry} {id : BlockId} {directory : Directory}
    (hl : registry.lookup id = some (.dir directory)) (entries : List JsonEntry) (content : Bytes)
    (h : directory.expandEntries (meaning env contents) entries = some content) :
    ∃ pieces, List.Forall₂ (BlockRead.Task.Gives env contents registry)
      (entries.map (JsonEntry.task id)) pieces ∧ pieces.flatten = content := by
  induction entries generalizing content with
  | nil => exact ⟨[], .nil, Option.some.inj h⟩
  | cons entry entries ih =>
      cases entry with
      | part index =>
          obtain ⟨head, tail, hhead, htail, rfl⟩ := Directory.expandEntries_part_eq_some.mp h
          obtain ⟨pieces, hpieces, rfl⟩ := ih tail htail
          exact ⟨head :: pieces, .cons ⟨directory, hl, hhead⟩ hpieces, rfl⟩
      | block sub positions =>
          obtain ⟨head, tail, hhead, htail, rfl⟩ := Directory.expandEntries_block_eq_some.mp h
          obtain ⟨pieces, hpieces, rfl⟩ := ih tail htail
          exact ⟨head :: pieces, .cons hhead hpieces, rfl⟩

theorem access_gives (hd : d.Sound env contents) {task : BlockRead.Task} {piece given : Bytes}
    {more : List BlockRead.Task} (h : task.Gives env contents d.registry piece)
    (haccess : task.access env d.registry = .ok (more, given)) :
    ∃ pieces, List.Forall₂ (BlockRead.Task.Gives env contents d.registry) more pieces ∧
      given ++ pieces.flatten = piece := by
  have hform : ∀ {id stored}, meaning env contents id = some piece →
      d.registry.lookup id = some stored →
        stored.expandWith (meaning env contents) = some piece := by
    intro id stored hpiece hl
    obtain ⟨found, hfound, hform⟩ := hd id stored hl
    obtain rfl := Option.some.inj (hpiece.symm.trans hfound)
    exact hform.expands
  cases task with
  | block id =>
      simp only [BlockRead.Task.access] at haccess
      split at haccess
      · cases haccess
      · rename_i content hl
        obtain ⟨rfl, rfl⟩ := Prod.mk.inj (Except.ok.inj haccess)
        obtain rfl := Option.some.inj (hform h hl)
        exact ⟨[[], content], .cons rfl (.cons hl .nil), List.append_nil content⟩
      · obtain ⟨rfl, rfl⟩ := Prod.mk.inj (Except.ok.inj haccess)
        exact ⟨[piece], .cons h .nil, List.append_nil piece⟩
  | verify id =>
      obtain rfl : piece = [] := h
      simp only [BlockRead.Task.access] at haccess
      split at haccess
      · split at haccess
        · cases haccess
        · obtain ⟨rfl, rfl⟩ := Prod.mk.inj (Except.ok.inj haccess)
          exact ⟨[], .nil, rfl⟩
      · cases haccess
  | json id =>
      simp only [BlockRead.Task.access] at haccess
      split at haccess
      · rename_i directory hl
        obtain ⟨rfl, rfl⟩ := Prod.mk.inj (Except.ok.inj haccess)
        exact gives_entries hl directory.json piece (hform h hl)
      · cases haccess
  | file id =>
      have hl : d.registry.lookup id = some (.file piece) := h
      simp only [BlockRead.Task.access, hl] at haccess
      obtain ⟨rfl, rfl⟩ := Prod.mk.inj (Except.ok.inj haccess)
      exact ⟨[], .nil, List.append_nil piece⟩
  | part id index =>
      obtain ⟨directory, hl, hpart⟩ := h
      simp only [BlockRead.Task.access, hl, hpart] at haccess
      obtain ⟨rfl, rfl⟩ := Prod.mk.inj (Except.ok.inj haccess)
      exact ⟨[], .nil, List.append_nil piece⟩

theorem BlockRead.Sound.step {next : BlockRead} (hd : d.Sound env contents)
    (h : r.Sound env contents d.registry content) (hact : r.step env d.registry = some next) :
    next.Sound env contents d.registry content := by
  unfold BlockRead.step at hact
  split at hact
  · rename_i task tasks hraised htasks
    obtain ⟨pieces, hpieces, hcontent⟩ := h hraised
    rw [htasks] at hpieces
    cases hpieces with
    | @cons _ piece _ pieces hgives hrest =>
        split at hact
        · obtain rfl := Option.some.inj hact
          exact fun hnone => by cases hnone
        · rename_i more given haccess
          obtain rfl := Option.some.inj hact
          obtain ⟨front, hfront, rfl⟩ := access_gives hd hgives haccess
          refine fun _ => ⟨front ++ pieces, List.rel_append hfront hrest, ?_⟩
          rw [← hcontent]
          simp only [List.flatten_append, List.flatten_cons, List.append_assoc]
  · cases hact

theorem BlockRead.Sound.ended (h : r.Sound env contents d.registry content)
    (hact : r.step env d.registry = none) (hraised : r.raised = none) : r.given = content := by
  obtain ⟨pieces, hpieces, hcontent⟩ := h hraised
  obtain ⟨tasks, given, raised⟩ := r
  obtain rfl : raised = none := hraised
  cases tasks with
  | nil =>
      cases hpieces
      rwa [List.flatten_nil, List.append_nil] at hcontent
  | cons task tasks =>
      simp only [BlockRead.step] at hact
      split at hact <;> cases hact

end Reads

section Parts

variable {env : Enviroment} {fill : BlockId → Option Bytes} {p : Part}

-- The parts that are done and the `_.json` between them, as what the hashers were fed.
structure Part.Fed (fill : BlockId → Option Bytes) (p : Part) : Prop where
  numbers : p.parts.map Prod.fst = List.range' 1 p.parts.length
  index : p.index = p.parts.length + 1
  begun : p.json = [] → p.parts = []
  expands : ∀ directory : Directory, (∀ part ∈ p.parts, directory.part part.1 = some part.2) →
    directory.expandEntries fill p.json = some p.fed

theorem Part.Fed.nil : Part.Fed fill {} := ⟨rfl, rfl, fun _ => rfl, fun _ _ => rfl⟩

theorem Part.Fed.chunk (h : p.Fed fill) (content : Bytes) : (p.chunk content).Fed fill :=
  ⟨h.numbers, h.index, h.begun, h.expands⟩

theorem Part.Fed.allParts (h : p.Fed fill) :
    p.allParts.map Prod.fst = List.range' 1 (p.parts.length + 1) := by
  rw [Part.allParts, List.map_append, h.numbers, List.range'_concat, h.index, Nat.one_mul,
    Nat.add_comm 1]
  rfl

theorem Part.Fed.expand (h : p.Fed fill) (directory : Directory)
    (hparts : ∀ part ∈ p.allParts, directory.part part.1 = some part.2) :
    directory.expandEntries fill p.allJson = some p.content := by
  refine (expandEntries_append ..).mpr ⟨p.fed, p.current, ?_, ?_, rfl⟩
  · exact h.expands directory fun part hpart => hparts part (List.mem_append_left _ hpart)
  · have hlast := hparts (p.index, p.current) (List.mem_append_right _ (List.mem_singleton_self _))
    exact Directory.expandEntries_part_eq_some.mpr
      ⟨p.current, [], hlast, rfl, (List.append_nil _).symm⟩

theorem Part.Fed.block (h : p.Fed fill) {id : BlockId} (positions : List Nat) {content : Bytes}
    (hcontent : fill id = some content) : (p.block id positions content).Fed fill := by
  refine ⟨?_, ?_, fun hjson => ?_, fun directory hparts => ?_⟩
  · have hall := h.allParts
    rw [Part.allParts] at hall
    rw [Part.block, hall, List.length_append, List.length_singleton]
  · rw [Part.block, h.index, List.length_append, List.length_singleton]
  · exact absurd hjson (by simp [Part.block])
  · have hfront := h.expand directory hparts
    have hblock : directory.expandEntries fill (p.allJson ++ [.block id positions]) =
        some (p.content ++ content) :=
      (expandEntries_append ..).mpr ⟨p.content, content, hfront,
        Directory.expandEntries_block_eq_some.mpr
          ⟨content, [], hcontent, rfl, (List.append_nil _).symm⟩, rfl⟩
    rw [Part.allJson, List.append_assoc] at hblock
    exact hblock

-- Whatever the `wbp.bin`, what is stored has the blocks of the `_.json` and expands to what the
-- hasher was fed, which the name is the digest of.
theorem Part.Fed.storedBlock (h : p.Fed fill) {registry : Registry} {id : BlockId} {stored : Stored}
    (hstored : p.storedBlock env registry id = .ok stored) :
    env.hashFactory p.content = id ∧ stored.expandWith fill = some p.content ∧
      ∀ sub ∈ stored.blocks, ∃ positions, .block sub positions ∈ p.json := by
  unfold Part.storedBlock at hstored
  split at hstored
  · cases hstored
  · rename_i hdigest
    refine ⟨not_not.mp hdigest, ?_⟩
    have hdir : ∀ wbp, (Stored.dir ⟨p.allParts, p.allJson, wbp⟩).expandWith fill = some p.content ∧
        ∀ sub ∈ (Stored.dir ⟨p.allParts, p.allJson, wbp⟩).blocks,
          ∃ positions, .block sub positions ∈ p.json := by
      refine fun wbp => ⟨h.expand _ fun part hpart => ?_, fun sub hsub => ?_⟩
      · refine Dict.lookup_of_nodup _ ?_ part.1 part.2 hpart
        rw [h.allParts]
        exact List.nodup_range'
      · obtain ⟨positions, hmem⟩ := mem_storedBlocks.mp hsub
        exact ⟨positions, by simpa [Part.allJson] using hmem⟩
    unfold Part.stored at hstored
    split at hstored
    · rename_i hshort
      obtain rfl := Except.ok.inj hstored
      have hjson : p.json = [] := by
        rw [← List.length_eq_zero_iff]
        simp only [Part.allJson, List.length_append, List.length_singleton] at hshort
        omega
      have hparts := h.begun hjson
      have hfed : p.fed = [] := by
        have hexpands := h.expands ⟨[], [], none⟩ (by simp [hparts])
        rw [hjson] at hexpands
        exact (Option.some.inj hexpands).symm
      refine ⟨?_, fun sub hsub => absurd hsub List.not_mem_nil⟩
      rw [Part.allParts, hparts, h.index, hparts, Part.content, hfed]
      rfl
    · split at hstored
      · obtain rfl := Except.ok.inj hstored
        exact hdir none
      · obtain ⟨directory, hwbp, hdirectory⟩ := bind_eq_ok.mp hstored
        obtain ⟨wbp, -, hnew⟩ := bind_eq_ok.mp hwbp
        obtain rfl := Except.ok.inj hdirectory
        obtain rfl := Except.ok.inj hnew
        exact hdir (some wbp)

end Parts

section Receivers

variable (env : Enviroment) (contents : Set Bytes)

-- A block that is being written is fed right, by blocks that are there and other than itself.
structure Writing.Sound (d : Disk) (f : Writing) : Prop where
  fed : f.part.Fed (meaning env contents)
  inside : ∀ id positions, .block id positions ∈ f.part.json → id ≠ f.id ∧ d.Present id

-- None of the open blocks is in another one of its name.
def Nested : List Writing → Prop
  | [] => True
  | f :: fs => f.id ∉ fs.map Writing.id ∧ f.rest.Nests (f.id :: fs.map Writing.id) ∧ Nested fs

-- What a thread knows in each of its stages about the block at hand.
def Receiving.Knows (d : Disk) (f : Writing) : Receiving.Stage → Prop
  | .reading => True
  | .held id _ r => id ≠ f.id ∧ d.Present id ∧ ∃ content, meaning env contents id = some content ∧
      r.Sound env contents d.registry content
  | .ready stored => meaning env contents f.id = some f.part.content ∧
      stored.FormOf env contents d f.id f.part.content
  | .missing stored => meaning env contents f.id = some f.part.content ∧
      stored.FormOf env contents d f.id f.part.content
  | .raised _ => True
  | .refused => d.Present f.id

structure Receiving.Sound (forest : Forest) (d : Disk) (r : Receiving) : Prop where
  frames : ∀ f ∈ r.frames, f.Sound env contents d
  nested : Nested r.frames
  outer : r.outer.Nests []
  -- the blocks of the stream are still to come, there already, or being written
  done : ∀ id ∈ forest.blocks.map Prod.fst, id ∈ r.outer.blocks.map Prod.fst ∨ d.Present id ∨
    (r.frames.map Writing.id).getLast? = some id
  outside : r.frames = [] → r.stage = .reading
  knows : ∀ f ∈ r.frames.head?, Receiving.Knows env contents d f r.stage

variable {env contents} {d d' : Disk} {forest : Forest} {r : Receiving}

theorem Writing.Sound.moves {f : Writing} (h : f.Sound env contents d) (hmoves : d.Moves d') :
    f.Sound env contents d' :=
  ⟨h.fed, fun id positions hmem => (h.inside id positions hmem).imp_right (hmoves.present id)⟩

theorem Receiving.Knows.moves {f : Writing} {stage : Receiving.Stage}
    (h : Receiving.Knows env contents d f stage) (hmoves : d.Moves d')
    (hsame : ∀ id ∈ stage.opened, ∀ stored, d.registry.lookup id = some stored →
      d'.registry.lookup id = some stored) : Receiving.Knows env contents d' f stage := by
  cases stage with
  | reading => trivial
  | held id positions r =>
      obtain ⟨hne, hpresent, content, hcontent, hread⟩ := h
      exact ⟨hne, hmoves.present id hpresent, content, hcontent, hread.keeps hsame⟩
  | ready stored => exact h.imp_right fun hform => hform.moves hmoves
  | missing stored => exact h.imp_right fun hform => hform.moves hmoves
  | raised e => trivial
  | refused => exact hmoves.present _ h

theorem Receiving.Sound.moves (h : r.Sound env contents forest d) (hmoves : d.Moves d')
    (hsame : ∀ id ∈ r.stage.opened, ∀ stored, d.registry.lookup id = some stored →
      d'.registry.lookup id = some stored) : r.Sound env contents forest d' where
  frames f hf := (h.frames f hf).moves hmoves
  nested := h.nested
  outer := h.outer
  done id hid := (h.done id hid).imp_right (Or.imp_left (hmoves.present id))
  outside := h.outside
  knows f hf := (h.knows f hf).moves hmoves hsame

-- Another stage of the block at hand.
theorem Receiving.Sound.turn (h : r.Sound env contents forest d) {f : Writing} {fs : List Writing}
    (hframes : r.frames = f :: fs) {stage : Receiving.Stage}
    (hknows : Receiving.Knows env contents d f stage) :
    Receiving.Sound env contents forest d { r with stage } where
  frames := h.frames
  nested := h.nested
  outer := h.outer
  done := h.done
  outside hnil := by
    rw [hframes] at hnil
    cases hnil
  knows g hg := by
    rw [hframes] at hg
    obtain rfl := Option.some.inj hg
    exact hknows

-- The block at hand goes on, under its name.
theorem Receiving.Sound.goOn (h : r.Sound env contents forest d) {f g : Writing} {fs : List Writing}
    (hframes : r.frames = f :: fs) (hid : g.id = f.id) (hsound : g.Sound env contents d)
    (hrest : g.rest.Nests (f.id :: fs.map Writing.id)) {stage : Receiving.Stage}
    (hknows : Receiving.Knows env contents d g stage) :
    Receiving.Sound env contents forest d { r with frames := g :: fs, stage } where
  frames other hother := by
    rcases List.mem_cons.mp hother with rfl | hother
    · exact hsound
    · exact h.frames other (hframes ▸ List.mem_cons_of_mem _ hother)
  nested := by
    have hnested := h.nested
    rw [hframes] at hnested
    exact ⟨hid ▸ hnested.1, hid ▸ hrest, hnested.2.2⟩
  outer := h.outer
  done id hmem := by
    have hdone := h.done id hmem
    rw [hframes] at hdone
    cases fs with
    | nil => simpa [hid] using hdone
    | cons next fs => simpa using hdone
  outside hnil := by cases hnil
  knows other hother := by
    obtain rfl := Option.some.inj hother
    exact hknows

-- Outside all blocks.
theorem readOuter_sound (h : r.Sound env contents forest d) (hframes : r.frames = [])
    {after : Disk × Receiving} (hact : r.readOuter d = some after) :
    after.1 = d ∧ after.2.Sound env contents forest d := by
  have houter := h.outer
  unfold Receiving.readOuter at hact
  split at hact
  · cases hact
  · rename_i skip content rest heq
    obtain rfl := Option.some.inj hact
    rw [heq] at houter
    refine ⟨rfl, h.frames, h.nested, houter, fun id hid => ?_, h.outside, h.knows⟩
    have hdone := h.done id hid
    rwa [heq] at hdone
  · rename_i id positions body rest heq
    rw [heq] at houter
    obtain ⟨-, -, -, hbody, hrest⟩ := houter
    have hdone : ∀ other ∈ forest.blocks.map Prod.fst, other = id ∨
        other ∈ rest.blocks.map Prod.fst ∨ d.Present other := by
      intro other hother
      have hold := h.done other hother
      rw [heq, hframes] at hold
      rcases hold with hold | hold | hold
      · exact (List.mem_cons.mp hold).imp_right Or.inl
      · exact Or.inr (Or.inr hold)
      · cases hold
    split at hact
    · rename_i hexists
      obtain rfl := Option.some.inj hact
      refine ⟨rfl, h.frames, h.nested, hrest, fun other hother => ?_, h.outside, h.knows⟩
      rcases hdone other hother with rfl | hold | hold
      · exact Or.inr (Or.inl (Or.inl hexists))
      · exact Or.inl hold
      · exact Or.inr (Or.inl hold)
    · obtain rfl := Option.some.inj hact
      refine ⟨rfl, fun f hf => ?_, ⟨List.not_mem_nil, hbody, trivial⟩, hrest,
        fun other hother => ?_, (fun hnil => by cases hnil), fun f hf => ?_⟩
      · obtain rfl := List.mem_singleton.mp hf
        exact ⟨.nil, fun _ _ hmem => absurd hmem List.not_mem_nil⟩
      · rcases hdone other hother with rfl | hold | hold
        · exact Or.inr (Or.inr rfl)
        · exact Or.inl hold
        · exact Or.inr (Or.inl hold)
      · rw [h.outside hframes]
        trivial

-- The block at hand is there, and so the one around it can have it.
theorem close_sound (h : r.Sound env contents forest d) {f : Writing} {fs : List Writing}
    (hframes : r.frames = f :: fs) (hpresent : d.Present f.id)
    (hcontent : meaning env contents f.id = some f.part.content) :
    (r.close f fs).Sound env contents forest d := by
  have hnested := h.nested
  rw [hframes] at hnested
  obtain ⟨hnew, -, hrest⟩ := hnested
  cases fs with
  | nil =>
      refine ⟨fun g hg => absurd hg List.not_mem_nil, trivial, h.outer, fun id hid => ?_,
        fun _ => rfl, fun g hg => by cases hg⟩
      have hdone := h.done id hid
      rw [hframes] at hdone
      rcases hdone with hdone | hdone | hdone
      · exact Or.inl hdone
      · exact Or.inr (Or.inl hdone)
      · obtain rfl := Option.some.inj hdone
        exact Or.inr (Or.inl hpresent)
  | cons g gs =>
      have hg := h.frames g (hframes ▸ List.mem_cons_of_mem _ (List.mem_cons_self ..))
      have hne : f.id ≠ g.id := fun heq => hnew (heq ▸ List.mem_cons_self ..)
      refine ⟨fun other hother => ?_, hrest, h.outer, fun id hid => ?_, (fun hnil => by cases hnil),
        fun other hother => ?_⟩
      · rcases List.mem_cons.mp hother with rfl | hother
        · refine ⟨hg.fed.block f.positions hcontent, fun id positions hmem => ?_⟩
          simp only [Part.block, List.mem_append, List.mem_cons, List.not_mem_nil, or_false,
            reduceCtorEq, false_or] at hmem
          rcases hmem with hmem | hmem
          · exact hg.inside id positions hmem
          · obtain rfl := (JsonEntry.block.inj hmem).1
            exact ⟨hne, hpresent⟩
        · exact h.frames other
            (hframes ▸ List.mem_cons_of_mem _ (List.mem_cons_of_mem _ hother))
      · have hdone := h.done id hid
        rw [hframes] at hdone
        cases gs with
        | nil => simpa [Receiving.close] using hdone
        | cons next gs => simpa [Receiving.close] using hdone
      · obtain rfl := Option.some.inj hother
        trivial

-- Inside a block nothing of what is shared is changed.
theorem readInner_sound (hinj : Set.InjOn env.hashFactory contents) (hd : d.Sound env contents)
    (h : r.Sound env contents forest d) {f : Writing} {fs : List Writing}
    (hframes : r.frames = f :: fs) (hstage : r.stage = .reading) {after : Disk × Receiving}
    (hact : r.readInner env d f fs = after) (hchecked : after.1.Checked contents) :
    d.Moves after.1 ∧ after.1.registry = d.registry ∧
      after.2.Sound env contents forest after.1 := by
  have hf := h.frames f (hframes ▸ List.mem_cons_self ..)
  have hnested := h.nested
  rw [hframes] at hnested
  have hrest := hnested.2.1
  unfold Receiving.readInner at hact
  split at hact
  · rename_i hnil
    have hmoves : d.Moves { d with hashed := f.part.content :: d.hashed } :=
      ⟨fun _ h => h, fun _ hmem => List.mem_cons_of_mem _ hmem⟩
    simp only at hact
    split at hact
    · rename_i stored hstored
      subst hact
      have hmem : f.part.content ∈ contents := hchecked _ (List.mem_cons_self ..)
      obtain ⟨hid, hexpands, hblocks⟩ := hf.fed.storedBlock hstored
      refine ⟨hmoves, rfl, (h.moves hmoves fun _ _ _ hl => hl).turn hframes
        ⟨(meaning_eq_some hinj).mpr ⟨hmem, hid⟩, hexpands, fun sub hsub => ?_⟩⟩
      obtain ⟨positions, hpositions⟩ := hblocks sub hsub
      exact (hf.inside sub positions hpositions).imp_right (hmoves.present sub)
    · subst hact
      exact ⟨hmoves, rfl, (h.moves hmoves fun _ _ _ hl => hl).turn hframes trivial⟩
  · rename_i skip content rest heq
    subst hact
    rw [heq] at hrest
    have hknows : Receiving.Knows env contents d { f with part := f.part.chunk content, rest }
        r.stage := hstage ▸ trivial
    exact ⟨.refl d, rfl, h.goOn (g := { f with part := f.part.chunk content, rest }) hframes rfl
      ⟨hf.fed.chunk content, hf.inside⟩ hrest hknows⟩
  · rename_i id positions body rest heq
    rw [heq] at hrest
    obtain ⟨-, hnew, -, hbody, hmore⟩ := hrest
    have hne : id ≠ f.id := fun heq => hnew (heq ▸ List.mem_cons_self ..)
    split at hact
    · rename_i hexists
      subst hact
      obtain ⟨stored, hl⟩ := Registry.blockExists_eq_true.mp hexists
      obtain ⟨content, hcontent, -⟩ := hd id stored hl
      exact ⟨.refl d, rfl, h.goOn (g := { f with rest }) hframes rfl ⟨hf.fed, hf.inside⟩ hmore
        ⟨hne, Or.inl hexists, content, hcontent, BlockRead.start_sound d.registry hcontent⟩⟩
    · subst hact
      refine ⟨.refl d, rfl, fun g hg => ?_, ⟨hnew, hbody, hnested.1, hmore, hnested.2.2⟩, h.outer,
        fun other hother => ?_, (fun hnil => by cases hnil), fun g hg => ?_⟩
      · rcases List.mem_cons.mp hg with rfl | hg
        · exact ⟨.nil, fun _ _ hmem => absurd hmem List.not_mem_nil⟩
        · rcases List.mem_cons.mp hg with rfl | hg
          · exact ⟨hf.fed, hf.inside⟩
          · exact h.frames g (hframes ▸ List.mem_cons_of_mem _ hg)
      · have hdone := h.done other hother
        rw [hframes] at hdone
        cases fs with
        | nil => simpa using hdone
        | cons next fs => simpa using hdone
      · simp only [hstage]
        trivial

-- A block that is held is read as what it stands for, or not at all.
theorem readHeld_sound (hd : d.Sound env contents) (h : r.Sound env contents forest d) {f : Writing}
    {fs : List Writing} (hframes : r.frames = f :: fs) {id : BlockId} {positions : List Nat}
    {reading : BlockRead} (hstage : r.stage = .held id positions reading) :
    (r.readHeld env d id positions reading f fs).Sound env contents forest d := by
  have hf := h.frames f (hframes ▸ List.mem_cons_self ..)
  have hknows := h.knows f (hframes ▸ rfl)
  rw [hstage] at hknows
  obtain ⟨hne, hpresent, content, hcontent, hread⟩ := hknows
  have hnested := h.nested
  rw [hframes] at hnested
  unfold Receiving.readHeld
  split
  · rename_i next _ hnext
    exact h.turn hframes ⟨hne, hpresent, content, hcontent, hread.step hd hnext⟩
  · exact h.turn hframes trivial
  · rename_i hnone hraised
    have hgiven : reading.given = content := hread.ended hnone hraised
    rw [hgiven]
    refine h.goOn (g := { f with part := f.part.block id positions content }) hframes rfl
      ⟨hf.fed.block positions hcontent, fun sub chain hmem => ?_⟩ hnested.2.1 trivial
    simp only [Part.block, List.mem_append, List.mem_cons, List.not_mem_nil, or_false,
      reduceCtorEq, false_or] at hmem
    rcases hmem with hmem | hmem
    · exact hf.inside sub chain hmem
    · obtain rfl := (JsonEntry.block.inj hmem).1
      exact ⟨hne, hpresent⟩

theorem receiving_turn (hinj : Set.InjOn env.hashFactory contents) (hd : d.Sound env contents)
    (h : r.Sound env contents forest d) {after : Disk × Receiving}
    (hact : r.step env d = some after) (hchecked : after.1.Checked contents) :
    after.1.Sound env contents ∧ after.2.Sound env contents forest after.1 := by
  unfold Receiving.step at hact
  split at hact
  · rename_i hframes
    rw [h.outside hframes] at hact
    obtain ⟨hsame, hsound⟩ := readOuter_sound h hframes hact
    rw [hsame]
    exact ⟨hd, hsound⟩
  · rename_i f fs hframes
    have hknows := h.knows f (hframes ▸ rfl)
    split at hact
    · rename_i hstage
      obtain ⟨hmoves, hregistry, hsound⟩ :=
        readInner_sound hinj hd h hframes hstage (Option.some.inj hact) hchecked
      exact ⟨hd.moves hmoves hregistry, hsound⟩
    · rename_i id positions reading hstage
      obtain rfl := Option.some.inj hact
      exact ⟨hd, readHeld_sound hd h hframes hstage⟩
    · rename_i stored hstage
      rw [hstage] at hknows
      split at hact
      · rename_i hexists
        obtain rfl := Option.some.inj hact
        exact ⟨hd, close_sound h hframes (Or.inl hexists) hknows.1⟩
      · obtain rfl := Option.some.inj hact
        exact ⟨hd, h.turn hframes hknows⟩
    · rename_i stored hstage
      rw [hstage] at hknows
      split at hact
      · obtain rfl := Option.some.inj hact
        have hmoves := present_store d f.id stored d.aside fun _ hother => Or.inr hother
        refine ⟨hd.store hknows.1 hknows.2 d.aside fun _ hother => Or.inr hother,
          close_sound (h.moves hmoves fun id hid => ?_) hframes (Or.inl ?_) hknows.1⟩
        · rw [hstage] at hid
          cases hid
        · exact Registry.blockExists_eq_true.mpr ⟨stored, Registry.lookup_store_self ..⟩
      · rename_i hreplaces
        obtain rfl := Option.some.inj hact
        refine ⟨hd, h.turn hframes (Or.inl ?_)⟩
        cases hl : d.registry.lookup f.id with
        | none =>
            rw [hl] at hreplaces
            cases stored <;> exact absurd rfl hreplaces
        | some entry => exact Registry.blockExists_eq_true.mpr ⟨entry, hl⟩
    · cases hact
    · cases hact

end Receivers

end BeeRpc
