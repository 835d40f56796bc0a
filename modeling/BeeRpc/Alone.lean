import BeeRpc.Host
import BeeRpc.Threads

namespace BeeRpc

open Wire Naming Effect Interleaving

section Reads

variable {env : Enviroment} {registry : Registry}

abbrev BlockRead.Reaches (env : Enviroment) (registry : Registry) : BlockRead → BlockRead → Prop :=
  Relation.ReflTransGen fun r next => r.step env registry = some next

-- A reader with these tasks gives what a generator gives, and raises what it raises, except where
-- that is the recursion limit. What is left of the tasks is `rest`, if it raises nothing.
def BlockRead.Comes (env : Enviroment) (registry : Registry) (tasks rest : List BlockRead.Task)
    (given : Bytes) (y : Yielded (Bytes ⊕ Block)) : Prop :=
  match y.raised with
  | none => BlockRead.Reaches env registry { tasks, given }
      { tasks := rest, given := given ++ contentOf y.items }
  | some e => e ≠ .recursionLimit → ∃ left, BlockRead.Reaches env registry { tasks, given }
      { tasks := left, given := given ++ contentOf y.items, raised := some e }

variable {task : BlockRead.Task} {tasks more rest : List BlockRead.Task} {given content : Bytes}
  {y : Yielded (Bytes ⊕ Block)}

theorem BlockRead.Comes.head {next : List BlockRead.Task} {given' : Bytes}
    (h : BlockRead.Comes env registry next rest given' y)
    (haccess : task.access env registry = .ok (more, content)) (hnext : next = more ++ tasks)
    (hgiven : given' = given ++ content) {y' : Yielded (Bytes ⊕ Block)}
    (hraised : y'.raised = y.raised) (hitems : contentOf y'.items = content ++ contentOf y.items) :
    BlockRead.Comes env registry (task :: tasks) rest given y' := by
  have hstep : BlockRead.step env registry { tasks := task :: tasks, given } =
      some { tasks := next, given := given' } := by
    simp only [BlockRead.step, haccess, hnext, hgiven]
  unfold BlockRead.Comes at h ⊢
  rw [hraised, hitems, ← List.append_assoc, ← hgiven]
  cases hy : y.raised with
  | none =>
      rw [hy] at h
      exact .head hstep h
  | some e =>
      rw [hy] at h
      intro hlimit
      obtain ⟨left, hleft⟩ := h hlimit
      exact ⟨left, .head hstep hleft⟩

theorem comes_nil (tasks : List BlockRead.Task) (given : Bytes) :
    BlockRead.Comes env registry tasks tasks given (.pure []) := by
  have hgiven : given ++ contentOf [] = given := List.append_nil given
  show BlockRead.Reaches env registry _ { tasks, given := given ++ contentOf [] }
  rw [hgiven]

theorem comes_raise {e : Err} (haccess : task.access env registry = .error e) :
    BlockRead.Comes env registry (task :: tasks) rest given (.raise e) := by
  refine fun _ => ⟨task :: tasks, .single ?_⟩
  have hgiven : given ++ contentOf (Yielded.raise e : Yielded (Bytes ⊕ Block)).items = given :=
    List.append_nil given
  simp only [BlockRead.step, haccess, hgiven]

theorem BlockRead.Comes.andThen {mid : List BlockRead.Task} {second : Yielded (Bytes ⊕ Block)}
    (h : BlockRead.Comes env registry tasks mid given y)
    (hsecond : ∀ given, BlockRead.Comes env registry mid rest given second) :
    BlockRead.Comes env registry tasks rest given (y.andThen second) := by
  obtain ⟨items, raised⟩ := y
  cases raised with
  | some e => exact h
  | none =>
      have hfirst : BlockRead.Reaches env registry { tasks, given }
        { tasks := mid, given := given ++ contentOf items } := h
      have hnext := hsecond (given ++ contentOf items)
      rw [Yielded.mk_none_andThen]
      unfold BlockRead.Comes at hnext ⊢
      simp only [contentOf_append, ← List.append_assoc]
      cases hraised : second.raised with
      | none =>
          rw [hraised] at hnext
          exact hfirst.trans hnext
      | some e =>
          rw [hraised] at hnext
          intro hlimit
          obtain ⟨left, hleft⟩ := hnext hlimit
          exact ⟨left, hfirst.trans hleft⟩

theorem comes_entries {read : Bool → Nat → BlockId → Yielded (Bytes ⊕ Block)} {id : BlockId}
    {directory : Directory} (hl : registry.lookup id = some (.dir directory))
    (hread : ∀ sub rest given,
      BlockRead.Comes env registry (.block sub :: rest) rest given (read true 1 sub))
    (depth : Nat) (entries : List JsonEntry) (rest : List BlockRead.Task) (given : Bytes) :
    BlockRead.Comes env registry (entries.map (JsonEntry.task id) ++ rest) rest given
      (readEntries env read directory true depth entries) := by
  induction entries generalizing given with
  | nil => exact comes_nil rest given
  | cons entry entries ih =>
      cases entry with
      | part index =>
          have haccess : BlockRead.Task.access env registry (.part id index) =
              .ok ([], (directory.part index).getD []) := by
            simp only [BlockRead.Task.access, hl]
          refine (ih _).head haccess rfl rfl rfl ?_
          simp only [readEntries, Yielded.pure_andThen, contentOf_append, contentOf_pieces,
            readFileByChunks_flatten]
      | block sub positions => exact (hread sub _ given).andThen ih

theorem comes_block (fuel depth : Nat) (id : BlockId) (rest : List BlockRead.Task)
    (given : Bytes) : BlockRead.Comes env registry (.block id :: rest) rest given
      (readBlockLoop env registry fuel true depth id) := by
  induction fuel generalizing depth id rest given with
  | zero => exact fun hlimit => absurd rfl hlimit
  | succ fuel ih =>
      unfold readBlockLoop
      split
      · rename_i hl
        exact comes_raise (by simp only [BlockRead.Task.access, hl])
      · rename_i content hl
        have hasks : BlockRead.Task.access env registry (.block id) =
            .ok ([.verify id, .file id], []) := by
          simp only [BlockRead.Task.access, hl]
        by_cases hdigest : env.hashFactory content = id
        · have hverifies : BlockRead.Task.access env registry (.verify id) = .ok ([], []) := by
            simp only [BlockRead.Task.access, hl, hdigest, ne_eq, not_true_eq_false, if_false]
          have hreads : BlockRead.Task.access env registry (.file id) = .ok ([], content) := by
            simp only [BlockRead.Task.access, hl]
          have hcontent : contentOf ((readFileByChunks content).map Sum.inl) =
              content ++ contentOf ([] : List (Bytes ⊕ Block)) := by
            rw [contentOf_pieces, readFileByChunks_flatten]
            exact (List.append_nil content).symm
          simp only [hdigest, ne_eq, not_true_eq_false, if_false]
          have hfile : BlockRead.Comes env registry (.file id :: rest) rest given
              (.pure ((readFileByChunks content).map .inl)) :=
            (comes_nil rest (given ++ content)).head hreads rfl rfl rfl hcontent
          exact (hfile.head hverifies rfl (List.append_nil given).symm rfl rfl).head hasks rfl
            (List.append_nil given).symm rfl rfl
        · have hraises : BlockRead.Task.access env registry (.verify id) =
              .error (.corruptBlock id (env.hashFactory content) content.length) := by
            simp only [BlockRead.Task.access, hl, ne_eq, hdigest, not_false_eq_true, if_true]
          simp only [ne_eq, hdigest, not_false_eq_true, if_true]
          exact (comes_raise hraises).head hasks rfl (List.append_nil given).symm rfl rfl
      · rename_i directory hl
        have hasks : BlockRead.Task.access env registry (.block id) = .ok ([.json id], []) := by
          simp only [BlockRead.Task.access, hl]
        have hjson : BlockRead.Task.access env registry (.json id) =
            .ok (directory.json.map (JsonEntry.task id), []) := by
          simp only [BlockRead.Task.access, hl]
        have hentries := comes_entries hl (fun sub => ih 1 sub) depth directory.json rest given
        exact (hentries.head hjson rfl (List.append_nil given).symm rfl rfl).head hasks rfl
          (List.append_nil given).symm rfl rfl

end Reads

section Keeping

variable {env : Enviroment} (control : Bool)

theorem Part.Fed.mono {fill more : BlockId → Option Bytes} {p : Part} (h : p.Fed fill)
    (hmore : ∀ id content, fill id = some content → more id = some content) : p.Fed more :=
  ⟨h.numbers, h.index, h.begun, fun directory hparts =>
    Directory.expandEntries_mono directory hmore _ _ (h.expands directory hparts)⟩

theorem expansion_store {registry : Registry} {id : BlockId} {stored : Stored} {content : Bytes}
    (hnew : registry.lookup id = none) (h : stored.expandWith registry.expansion = some content) :
    (registry.store id stored).expansion id = some content := by
  have hgrows := Registry.Grows.store stored hnew
  cases stored with
  | file bytes =>
      obtain rfl := Option.some.inj h
      exact Registry.expansion_file (Registry.lookup_store_self ..)
  | dir directory =>
      rw [Registry.expansion_dir (Registry.lookup_store_self ..)]
      exact Directory.expandEntries_mono directory (fun _ _ hs => hgrows.expansion hs) _ _ h

-- What a receiver that is alone has of a stream, which none of the open blocks comes again in.
structure Absorbed (env : Enviroment) (around : List BlockId) (k k' : Known) (q : Part) : Prop where
  addressed : k'.registry.ContentAddressed env
  grows : k.registry.Grows k'.registry
  fed : q.Fed k'.registry.expansion
  frame : ∀ id ∈ around, k'.registry.lookup id = k.registry.lookup id

theorem storedBlock_of_storeBlock {id : BlockId} {q : Part} {k k' : Known}
    (h : k.storeBlock env id q = .ok k') : ∃ stored,
      q.storedBlock env k.registry id = .ok stored ∧
        k' = { k with registry := k.registry.store id stored } := by
  unfold Known.storeBlock at h
  split at h
  · cases h
  · rename_i stored hstored
    exact ⟨stored, hstored, (Except.ok.inj h).symm⟩

-- A block that was absorbed and stored goes into the one around it.
theorem Absorbed.store {around : List BlockId} {k k₀ k₁ k₂ : Known} {p q : Part} {id : BlockId}
    (h : Absorbed env (id :: around) k₀ k₁ q) (hk : k₀.registry = k.registry)
    (hnew : ¬ k.registry.blockExists id = true) (hid : id ∉ around)
    (hfed : p.Fed k.registry.expansion) (positions : List Nat)
    (hstore : k₁.storeBlock env id q = .ok k₂) :
    k₁.registry.lookup id = none ∧ k₂.registry.ContentAddressed env ∧
      k.registry.Grows k₂.registry ∧
      (p.block id positions q.content).Fed k₂.registry.expansion ∧
      ∀ other ∈ around, k₂.registry.lookup other = k.registry.lookup other := by
  obtain ⟨stored, hstored, rfl⟩ := storedBlock_of_storeBlock hstore
  obtain ⟨hdigest, hexpands, -⟩ := h.fed.storedBlock hstored
  have hmissing : k₁.registry.lookup id = none := by
    rw [h.frame id (List.mem_cons_self ..), hk]
    exact Registry.blockExists_eq_false.mp (Bool.eq_false_of_not_eq_true hnew)
  have hexpansion := expansion_store hmissing hexpands
  have hgrows : k.registry.Grows (k₁.registry.store id stored) :=
    hk ▸ h.grows.trans (.store stored hmissing)
  refine ⟨hmissing, h.addressed.store hmissing hexpansion hdigest, hgrows,
    (hfed.mono fun _ _ hs => hgrows.expansion hs).block positions hexpansion, fun other hother => ?_⟩
  have hne : other ≠ id := by
    rintro rfl
    exact hid hother
  rw [← hk, ← h.frame other (List.mem_cons_of_mem _ hother)]
  exact Registry.lookup_store_ne _ stored hne

-- One that is there goes into it as it is, and what comes of it is passed over.
theorem absorb_there {k : Known} {p : Part} {id : BlockId} (positions : List Nat) (body : Forest)
    (haddressed : k.registry.ContentAddressed env) (hfed : p.Fed k.registry.expansion)
    (hexists : k.registry.blockExists id = true) :
    ((k.ask control id).drain control body).registry = k.registry ∧
      k.registry.expansion id = some (k.registry.content id) ∧
      (p.block id positions (k.registry.content id)).Fed k.registry.expansion := by
  obtain ⟨stored, hl⟩ := Registry.blockExists_eq_true.mp hexists
  obtain ⟨content, hcontent, -⟩ := haddressed id stored hl
  have hfill : k.registry.expansion id = some (k.registry.content id) :=
    Registry.content_eq ⟨content, hcontent⟩
  exact ⟨(drain_registry control body _).trans (ask_registry control k id), hfill,
    hfed.block positions hfill⟩

theorem absorb_absorbed (forest : Forest) {around : List BlockId} (hnests : forest.Nests around)
    {k k' : Known} {p q : Part} (haddressed : k.registry.ContentAddressed env)
    (hfed : p.Fed k.registry.expansion) (h : absorb env control k p forest = .ok (k', q)) :
    Absorbed env around k k' q := by
  induction forest generalizing around k k' p q with
  | nil =>
      obtain ⟨rfl, rfl⟩ := Prod.mk.inj (Except.ok.inj h)
      exact ⟨haddressed, .refl _, hfed, fun _ _ => rfl⟩
  | chunk skip content rest ih => exact ih hnests haddressed (hfed.chunk content) h
  | block id positions body rest ihBody ihRest =>
      obtain ⟨-, hid, -, hbody, hrest⟩ := hnests
      have hasked : (k.ask control id).registry = k.registry := ask_registry control k id
      simp only [absorb] at h
      split at h
      · rename_i hexists
        obtain ⟨hdrained, -, hfed'⟩ := absorb_there control positions body haddressed hfed hexists
        have hrest' := ihRest hrest (hdrained ▸ haddressed) (hdrained ▸ hfed') h
        exact ⟨hrest'.addressed, hdrained ▸ hrest'.grows, hrest'.fed, fun other hother =>
          hdrained ▸ hrest'.frame other hother⟩
      · rename_i hmissing
        obtain ⟨⟨k₁, q₁⟩, hinner, h⟩ := bind_eq_ok.mp h
        obtain ⟨k₂, hstore, h⟩ := bind_eq_ok.mp h
        have hinside := ihBody hbody (hasked ▸ haddressed) .nil hinner
        obtain ⟨-, haddressed₂, hgrows₂, hfed₂, hframe₂⟩ :=
          hinside.store hasked hmissing hid hfed positions hstore
        have hrest' := ihRest hrest haddressed₂ hfed₂ h
        exact ⟨hrest'.addressed, hgrows₂.trans hrest'.grows, hrest'.fed, fun other hother =>
          (hrest'.frame other hother).trans (hframe₂ other hother)⟩

end Keeping

section Receiver

variable {env : Enviroment} (control : Bool)

-- The end of a block that nobody else has stored in the meantime.
theorem finish_alone {d : Disk} {id : BlockId} (positions : List Nat) {q : Part}
    (fs : List Writing) (outer : Forest) {stored : Stored}
    (hstored : q.storedBlock env d.registry id = .ok stored)
    (hnew : d.registry.lookup id = none) :
    Alone (Receiving.step env) (d, ⟨⟨id, positions, q, .nil⟩ :: fs, outer, .reading⟩)
      (⟨d.registry.store id stored, d.aside, q.content :: d.hashed⟩,
        Receiving.close ⟨fs, outer, .reading⟩ ⟨id, positions, q, .nil⟩ fs) := by
  have hexists : d.registry.blockExists id = false := Registry.blockExists_eq_false.mpr hnew
  let f : Writing := ⟨id, positions, q, .nil⟩
  let d₁ : Disk := { d with hashed := q.content :: d.hashed }
  have hashes : Receiving.step env d ⟨f :: fs, outer, .reading⟩ =
      some (d₁, ⟨f :: fs, outer, .ready stored⟩) := by
    simp only [Receiving.step, Receiving.readInner, f, hstored]
    rfl
  have hasks : Receiving.step env d₁ ⟨f :: fs, outer, .ready stored⟩ =
      some (d₁, ⟨f :: fs, outer, .missing stored⟩) := by
    simp only [Receiving.step, f, d₁, hexists, Bool.false_eq_true, if_false]
  have hreplaces : stored.replaces (d₁.registry.lookup f.id) = true := by
    rw [show d₁.registry.lookup f.id = none from hnew]
    cases stored <;> rfl
  have hrenames : Receiving.step env d₁ ⟨f :: fs, outer, .missing stored⟩ =
      some ({ d₁ with registry := d.registry.store id stored },
        Receiving.close ⟨f :: fs, outer, .missing stored⟩ f fs) := by
    simp only [Receiving.step, hreplaces, if_true]
    rfl
  have hclose : Receiving.close ⟨f :: fs, outer, .missing stored⟩ f fs =
      Receiving.close ⟨fs, outer, .reading⟩ f fs := by
    cases fs <;> rfl
  rw [hclose] at hrenames
  exact .head hashes (.head hasks (.single hrenames))

-- A block that is held is read, and added to the one around it.
theorem held_reaches {d : Disk} {f : Writing} {fs : List Writing} {outer : Forest} (id : BlockId)
    (positions : List Nat) {reading next : BlockRead}
    (h : BlockRead.Reaches env d.registry reading next) :
    Alone (Receiving.step env) (d, ⟨f :: fs, outer, .held id positions reading⟩)
      (d, ⟨f :: fs, outer, .held id positions next⟩) := by
  induction h with
  | refl => exact .refl
  | tail _ hstep ih =>
      refine ih.tail ?_
      simp only [Receiving.step, Receiving.readHeld, hstep]

theorem held_alone {d : Disk} {f : Writing} {fs : List Writing} {outer : Forest} {id : BlockId}
    (positions : List Nat) {content : Bytes} {reading : BlockRead}
    (h : BlockRead.Reaches env d.registry reading { tasks := [], given := content }) :
    Alone (Receiving.step env) (d, ⟨f :: fs, outer, .held id positions reading⟩)
      (d, ⟨{ f with part := f.part.block id positions content } :: fs, outer, .reading⟩) :=
  (held_reaches id positions h).tail rfl

-- Inside a block a thread that is alone absorbs what is still to come of it.
theorem absorb_alone (forest : Forest) {id : BlockId} (positions : List Nat) (fs : List Writing)
    (outer : Forest) (hnests : forest.Nests (id :: fs.map Writing.id)) {k k' : Known} {p q : Part}
    (d : Disk) (hd : d.registry = k.registry) (haddressed : k.registry.ContentAddressed env)
    (hfed : p.Fed k.registry.expansion) (h : absorb env control k p forest = .ok (k', q)) :
    ∃ hashed, Alone (Receiving.step env) (d, ⟨⟨id, positions, p, forest⟩ :: fs, outer, .reading⟩)
      (⟨k'.registry, d.aside, hashed⟩, ⟨⟨id, positions, q, .nil⟩ :: fs, outer, .reading⟩) := by
  induction forest generalizing id positions fs k k' p q d with
  | nil =>
      obtain ⟨rfl, rfl⟩ := Prod.mk.inj (Except.ok.inj h)
      exact ⟨d.hashed, hd ▸ .refl⟩
  | chunk skip content rest ih =>
      obtain ⟨hashed, hrest⟩ := ih positions fs hnests d hd haddressed (hfed.chunk content) h
      exact ⟨hashed, .head rfl hrest⟩
  | block other chain body rest ihBody ihRest =>
      obtain ⟨-, hother, -, hbody, hrest⟩ := hnests
      have hasked : (k.ask control other).registry = k.registry := ask_registry control k other
      simp only [absorb] at h
      split at h
      · rename_i hexists
        obtain ⟨hdrained, hfill, hfed'⟩ := absorb_there control chain body haddressed hfed hexists
        obtain ⟨pieces, hread, hbytes⟩ := readBlock_flat haddressed.filesNamed 1 hfill
        have hasks : Receiving.step env d
            ⟨⟨id, positions, p, .block other chain body rest⟩ :: fs, outer, .reading⟩ =
            some (d, ⟨⟨id, positions, p, rest⟩ :: fs, outer, .held other chain (.start other)⟩) := by
          simp only [Receiving.step, Receiving.readInner, hd, hexists, if_true]
        have hreads : BlockRead.Reaches env d.registry (.start other)
            { tasks := [], given := k.registry.content other } := by
          have hcomes := @comes_block env k.registry (k.registry.length + 1) 1 other [] []
          rw [← readBlock, hread] at hcomes
          rw [hd, ← hbytes, ← contentOf_pieces]
          exact hcomes
        obtain ⟨hashed, hlater⟩ := ihRest positions fs hrest d (hd.trans hdrained.symm)
          (hdrained ▸ haddressed) (hdrained ▸ hfed') h
        exact ⟨hashed, .head hasks ((held_alone chain hreads).trans hlater)⟩
      · rename_i hmissing
        obtain ⟨⟨k₁, q₁⟩, hinner, h⟩ := bind_eq_ok.mp h
        obtain ⟨k₂, hstore, h⟩ := bind_eq_ok.mp h
        have hbegins : Receiving.step env d
            ⟨⟨id, positions, p, .block other chain body rest⟩ :: fs, outer, .reading⟩ =
            some (d, ⟨⟨other, chain, {}, body⟩ :: ⟨id, positions, p, rest⟩ :: fs, outer,
              .reading⟩) := by
          simp only [Receiving.step, Receiving.readInner, hd, hmissing]
          rfl
        obtain ⟨hashed₁, hinside⟩ := ihBody chain (⟨id, positions, p, rest⟩ :: fs) hbody d
          (hd.trans hasked.symm) (hasked ▸ haddressed) .nil hinner
        have habsorbed := absorb_absorbed control body hbody (hasked ▸ haddressed) .nil hinner
        obtain ⟨hmissing₁, haddressed₂, -, hfed₂, -⟩ :=
          habsorbed.store hasked hmissing hother hfed chain hstore
        obtain ⟨stored, hstored, rfl⟩ := storedBlock_of_storeBlock hstore
        have hfinish := finish_alone (d := ⟨k₁.registry, d.aside, hashed₁⟩) chain
          (⟨id, positions, p, rest⟩ :: fs) outer hstored hmissing₁
        obtain ⟨hashed, hlater⟩ := ihRest positions fs hrest
          ⟨k₁.registry.store other stored, d.aside, q₁.content :: hashed₁⟩ rfl haddressed₂ hfed₂ h
        exact ⟨hashed, .head hbegins (hinside.trans (hfinish.trans hlater))⟩

-- And the blocks of a stream one after another.
theorem receive_alone (forest : Forest) (hnests : forest.Nests []) {k k' : Known} {p q : Part}
    (d : Disk) (hd : d.registry = k.registry) (haddressed : k.registry.ContentAddressed env)
    (hfed : p.Fed k.registry.expansion) (h : absorb env control k p forest = .ok (k', q)) :
    ∃ hashed, Alone (Receiving.step env) (d, { frames := [], outer := forest })
      (⟨k'.registry, d.aside, hashed⟩, { frames := [], outer := .nil }) := by
  induction forest generalizing k k' p q d with
  | nil =>
      obtain ⟨rfl, rfl⟩ := Prod.mk.inj (Except.ok.inj h)
      exact ⟨d.hashed, hd ▸ .refl⟩
  | chunk skip content rest ih =>
      obtain ⟨hashed, hrest⟩ := ih hnests d hd haddressed (hfed.chunk content) h
      exact ⟨hashed, .head rfl hrest⟩
  | block id positions body rest ihBody ihRest =>
      obtain ⟨-, hid, -, hbody, hrest⟩ := hnests
      have hasked : (k.ask control id).registry = k.registry := ask_registry control k id
      simp only [absorb] at h
      split at h
      · rename_i hexists
        obtain ⟨hdrained, -, hfed'⟩ := absorb_there control positions body haddressed hfed hexists
        have hasks : Receiving.step env d
            { frames := [], outer := .block id positions body rest } =
            some (d, { frames := [], outer := rest }) := by
          simp only [Receiving.step, Receiving.readOuter, hd, hexists, if_true]
        obtain ⟨hashed, hlater⟩ := ihRest hrest d (hd.trans hdrained.symm) (hdrained ▸ haddressed)
          (hdrained ▸ hfed') h
        exact ⟨hashed, .head hasks hlater⟩
      · rename_i hmissing
        obtain ⟨⟨k₁, q₁⟩, hinner, h⟩ := bind_eq_ok.mp h
        obtain ⟨k₂, hstore, h⟩ := bind_eq_ok.mp h
        have hbegins : Receiving.step env d
            { frames := [], outer := .block id positions body rest } =
            some (d, ⟨[⟨id, positions, {}, body⟩], rest, .reading⟩) := by
          simp only [Receiving.step, Receiving.readOuter, hd, hmissing]
          rfl
        obtain ⟨hashed₁, hinside⟩ := absorb_alone control body positions [] rest hbody d
          (hd.trans hasked.symm) (hasked ▸ haddressed) .nil hinner
        have habsorbed := absorb_absorbed control body hbody (hasked ▸ haddressed) .nil hinner
        obtain ⟨hmissing₁, haddressed₂, -, hfed₂, -⟩ :=
          habsorbed.store hasked hmissing hid hfed positions hstore
        obtain ⟨stored, hstored, rfl⟩ := storedBlock_of_storeBlock hstore
        have hfinish := finish_alone (d := ⟨k₁.registry, d.aside, hashed₁⟩) positions [] rest
          hstored hmissing₁
        obtain ⟨hashed, hlater⟩ := ihRest hrest
          ⟨k₁.registry.store id stored, d.aside, q₁.content :: hashed₁⟩ rfl haddressed₂ hfed₂ h
        exact ⟨hashed, .head hbegins (hinside.trans (hfinish.trans hlater))⟩

end Receiver

theorem Carries.nests {env : Enviroment} {headed : Bool} {requests : List Buffer} {forest : Forest}
    {more : List Buffer} (h : Carries env headed requests forest more) : forest.Nests [] := by
  induction h with
  | separator more => trivial
  | ended => trivial
  | single head content more => trivial
  | head head _ ih => exact ih
  | chunk skip content _ ih => exact ih
  | block positions hid hbody _ ih => exact ⟨hid, List.not_mem_nil, by decide, hbody, ih⟩
  | cut positions hid hcut => exact ⟨hid, List.not_mem_nil, by decide, close_nests hcut, trivial⟩

-- A turn of the one thread is a turn among all of them.
theorem receiving_alone {env : Enviroment} {d : Disk} {r : Receiving} {after : Disk × Receiving}
    (h : Alone (Receiving.step env) (d, r) after) :
    Alone (Worker.step env) (d, .receiving r) (after.1, .receiving after.2) := by
  induction h with
  | refl => exact .refl
  | tail _ hact ih => exact ih.tail (congrArg (Option.map _) hact)

theorem rewriting_alone {env : Enviroment} {d : Disk} {r : Rewriting} {after : Disk × Rewriting}
    (h : Alone (Rewriting.step env) (d, r) after) :
    Alone (Worker.step env) (d, .rewriting r) (after.1, .rewriting after.2) := by
  induction h with
  | refl => exact .refl
  | tail _ hact ih => exact ih.tail (congrArg (Option.map _) hact)

theorem reading_alone {env : Enviroment} {d : Disk} {r next : BlockRead}
    (h : BlockRead.Reaches env d.registry r next) :
    Alone (Worker.step env) (d, .reading r) (d, .reading next) := by
  induction h with
  | refl => exact .refl
  | tail _ hact ih => exact ih.tail (congrArg (Option.map _) hact)

-- With nobody else at work, the thread that reads a block gives what read_block gives, whatever is
-- in the registry, and raises what read_block raises, short of the recursion limit.
theorem readBlock_alone {ι : Type} [DecidableEq ι] (env : Enviroment) (registry : Registry)
    (id : BlockId) (jobs : ι → Job) (i : ι) (hjob : jobs i = .read id)
    (hlimit : (readBlock env registry id).raised ≠ some .recursionLimit) :
    ∃ turns s left,
      Interleaving.run (Crew.step (Worker.step env)) (Workers.start registry jobs)
        (List.replicate turns i) = some s ∧
      s.shared.registry = registry ∧
      s.agents i = .reading
        { tasks := left
          given := contentOf (readBlock env registry id).items
          raised := (readBlock env registry id).raised } ∧
      ((readBlock env registry id).raised = none → left = []) := by
  have hcomes : BlockRead.Comes env registry [.block id] [] [] (readBlock env registry id) :=
    comes_block (registry.length + 1) 1 id [] []
  have hstart : (Workers.start registry jobs).agents i = .reading (.start id) :=
    congrArg Job.start hjob
  have hreaches : ∃ left, BlockRead.Reaches env registry (.start id)
      { tasks := left
        given := contentOf (readBlock env registry id).items
        raised := (readBlock env registry id).raised } ∧
      ((readBlock env registry id).raised = none → left = []) := by
    unfold BlockRead.Comes at hcomes
    cases hraised : (readBlock env registry id).raised with
    | none =>
        rw [hraised] at hcomes
        exact ⟨[], hcomes, fun _ => rfl⟩
    | some e =>
        rw [hraised] at hcomes hlimit
        obtain ⟨left, hleft⟩ := hcomes fun he => hlimit (congrArg some he)
        exact ⟨left, hleft, fun hnone => by cases hnone⟩
  obtain ⟨left, hleft, hnone⟩ := hreaches
  have hworker := reading_alone (d := { registry }) hleft
  rw [← hstart] at hworker
  obtain ⟨turns, hrun⟩ := alone_run (s := Workers.start registry jobs) hworker
  exact ⟨turns, _, left, hrun, rfl, Function.update_self .., hnone⟩

theorem readBlock_alone_sample :
    let id : BlockId := 1 :: Fields.sample.render
    ∃ turns s left,
      Interleaving.run (Crew.step (Worker.step .sample)) (Workers.start .split fun _ => .read id)
        (List.replicate turns ()) = some s ∧
      s.shared.registry = .split ∧
      s.agents () = .reading
        { tasks := left
          given := contentOf (readBlock .sample .split id).items
          raised := (readBlock .sample .split id).raised } ∧
      ((readBlock .sample .split id).raised = none → left = []) := by
  exact readBlock_alone .sample .split (1 :: Fields.sample.render) _ () rfl (by decide +kernel)

-- With nobody else at work, the thread that saves a stream leaves the registry that save_to_dir
-- leaves.
theorem saveToDir_alone {ι : Type} [DecidableEq ι] (receiver : Receiver) (w w' : World)
    (headed : Bool) (forest : Forest) (more : List Buffer) (path : Nat) (stored : Stored)
    (jobs : ι → Job) (i : ι) (hd : receiver.env.Digests) (hw : w.Sound receiver.env)
    (hcarries : Carries receiver.env headed w.requests forest more)
    (hjob : jobs i = .receive forest) (hsaved : receiver.saveToDir w = .ok (path, stored) w') :
    (jobs i).Fit receiver.env ∧ ∃ turns s,
      Interleaving.run (Crew.step (Worker.step receiver.env)) (Workers.start w.registry jobs)
        (List.replicate turns i) = some s ∧
      s.shared.registry = w'.registry ∧ s.shared.aside = [] ∧ (s.agents i).Ended := by
  have hnests := hcarries.nests
  refine ⟨by rw [hjob]; exact hnests, ?_⟩
  have houtcome := saveToDir_carries hd w hw hcarries
  cases habsorb : absorbDir receiver.env receiver.control w.known forest with
  | error failure =>
      rw [habsorb] at houtcome
      obtain ⟨_, hraised, -⟩ := houtcome
      rw [hraised] at hsaved
      cases hsaved
  | ok result =>
      obtain ⟨k, received⟩ := result
      rw [habsorb] at houtcome
      obtain ⟨path', w'', hok, hknown, -, -⟩ := houtcome
      obtain ⟨-, rfl⟩ := EStateM.Result.ok.inj (hok.symm.trans hsaved)
      obtain ⟨⟨k', q⟩, habsorbed, hfinish⟩ := bind_eq_ok.mp habsorb
      have hsame : k' = k := by
        simp only at hfinish
        split at hfinish
        · cases hfinish
        · exact congrArg Prod.fst (Except.ok.inj hfinish)
      subst hsame
      obtain ⟨hashed, halone⟩ := receive_alone receiver.control forest hnests
        { registry := w.registry } rfl hw.addressed .nil habsorbed
      have hstart : (Workers.start w.registry jobs).agents i =
          .receiving { frames := [], outer := forest } := congrArg Job.start hjob
      have hwriter : Alone (Worker.step receiver.env)
          ((Workers.start w.registry jobs).shared, (Workers.start w.registry jobs).agents i)
          (⟨k'.registry, [], hashed⟩, .receiving { frames := [], outer := .nil }) := by
        rw [hstart]
        exact receiving_alone halone
      obtain ⟨turns, hrun⟩ := alone_run hwriter
      refine ⟨turns, _, hrun, ?_, rfl, ?_⟩
      · exact (congrArg Known.registry hknown).symm
      · simp only [Function.update_self]
        exact ⟨rfl, rfl⟩

theorem saveToDir_alone_sample :
    let forest : Forest := .chunk none [10, 2] (.block [1, 5, 6] [1] (.chunk none [5, 6] .nil) .nil)
    let jobs : Unit → Job := fun _ => .receive forest
    (jobs ()).Fit .sample ∧ ∃ turns s,
      Interleaving.run (Crew.step (Worker.step .sample)) (Workers.start [] jobs)
        (List.replicate turns ()) = some s ∧
      s.shared.registry = [([1, 5, 6], .file [5, 6])] ∧ s.shared.aside = [] ∧ (s.agents ()).Ended := by
  intro forest jobs
  have hcarries : Carries Receiver.sample.env false
      (forest.stream .sample ++ [separatorBuffer]) forest [] :=
    carries_append forest ⟨by decide, by decide, by decide, trivial, trivial⟩ (.separator [])
  exact saveToDir_alone .sample { registry := [], requests := forest.stream .sample ++ [separatorBuffer] }
    { registry := [([1, 5, 6], .file [5, 6])], requests := [], cache := [0], next := 2,
      blockDir := true } false forest
    [] 0 _ jobs () (fun _ => List.cons_ne_nil _ _)
    ⟨(fun _ _ hl => by cases hl), fun _ hpath => absurd hpath List.not_mem_nil⟩ hcarries rfl rfl

section Split

variable {env : Enviroment}

theorem keepAll_alone (payloads : List Bytes) (form : Option Form) (d : Disk) :
    ∃ hashed, Alone (Rewriting.step env) (d, { payloads, form })
      (⟨d.registry.keepAll env payloads, d.aside, hashed⟩, { payloads := [], form }) := by
  induction payloads generalizing d with
  | nil => exact ⟨d.hashed, .refl⟩
  | cons content rest ih =>
      by_cases hexists : d.registry.blockExists (env.hashFactory content) = true
      · have hasks : Rewriting.step env d { payloads := content :: rest, form } =
            some ({ d with hashed := content :: d.hashed }, { payloads := rest, form }) := by
          simp only [Rewriting.step, Rewriting.storeNext, hexists, if_true]
        obtain ⟨hashed, hlater⟩ := ih { d with hashed := content :: d.hashed }
        refine ⟨hashed, .head hasks ?_⟩
        have hkept : d.registry.keepAll env (content :: rest) = d.registry.keepAll env rest :=
          congrArg (List.foldl _ · rest) (keep_of_exists hexists)
        rw [hkept]
        exact hlater
      · have hasks : Rewriting.step env d { payloads := content :: rest, form } =
            some ({ d with hashed := content :: d.hashed },
              { payloads := content :: rest, form, stage := .missing }) := by
          simp only [Rewriting.step, Rewriting.storeNext, hexists]
          rfl
        have hnew := Registry.blockExists_eq_false.mp (Bool.eq_false_of_not_eq_true hexists)
        have hrenames : Rewriting.step env { d with hashed := content :: d.hashed }
            { payloads := content :: rest, form, stage := .missing } =
            some (⟨d.registry.store (env.hashFactory content) (.file content), d.aside,
              content :: d.hashed⟩, { payloads := rest, form }) := by
          simp only [Rewriting.step, Rewriting.storeMissing, hnew, Stored.replaces, if_true]
        obtain ⟨hashed, hlater⟩ := ih
          ⟨d.registry.store (env.hashFactory content) (.file content), d.aside, content :: d.hashed⟩
        refine ⟨hashed, .head hasks (.head hrenames ?_)⟩
        have hkept : d.registry.keepAll env (content :: rest) =
            (d.registry.store (env.hashFactory content) (.file content)).keepAll env rest :=
          congrArg (List.foldl _ · rest) (keep_of_not_exists hexists)
        rw [hkept]
        exact hlater

theorem swap_alone {form : Form} {d : Disk} {old : Stored}
    (hold : d.registry.lookup form.id = some old) (haside : d.aside = []) :
    ∃ hashed, Alone (Rewriting.step env) (d, { payloads := [], form := some form })
      (⟨(d.registry.remove form.id).store form.id (.dir form.directory), [], hashed⟩,
        { payloads := [], form := none }) := by
  have hretires : Rewriting.step env d { payloads := [], form := some form } =
      some (⟨d.registry.remove form.id, [form.id], form.content :: d.hashed⟩,
        { payloads := [], form := some form, stage := .between }) := by
    simp only [Rewriting.step, Rewriting.retire, hold, haside]
  have hnone := Registry.lookup_remove_self d.registry form.id
  have hinstalls : Rewriting.step env
      ⟨d.registry.remove form.id, [form.id], form.content :: d.hashed⟩
      { payloads := [], form := some form, stage := .between } =
      some (⟨(d.registry.remove form.id).store form.id (.dir form.directory), [],
        form.content :: d.hashed⟩, { payloads := [], form := none }) := by
    simp [Rewriting.step, Rewriting.install, hnone, Stored.replaces]
  exact ⟨_, .head hretires (.single hinstalls)⟩

variable {δ φ : Type} {types : Descriptors δ φ} {shouldSplit : φ → Nat → Bool} {fields : Fields φ}
  {descriptor : δ} {inherited : Option (List Bytes)} {limit : Int} {registry : Registry}

-- What split_block has made beside the block is a new form of it.
theorem Rewritten.fits {s : Splitting} {directory : Directory} {id : BlockId}
    (h : Rewritten env types shouldSplit fields descriptor inherited limit registry s directory)
    (hid : env.hashFactory fields.render = id) :
    Form.Fits env ((fields.splits shouldSplit).map Prod.fst) ⟨id, directory, fields.render⟩ := by
  refine ⟨hid, fun sub hsub => ?_, fun other hother => ?_⟩
  · rw [← fields.pieces_render shouldSplit 0 []]
    exact expandWith_pieces h.json h.parts fun hole hhole =>
      hsub hole.1 (List.mem_map_of_mem hhole)
  · rw [Stored.blocks, weave_blocks 1 _ directory h.json] at hother
    obtain ⟨entry, hentry, rfl⟩ := List.mem_map.mp hother
    obtain ⟨split, hsplit, rfl⟩ := List.mem_map.mp hentry
    exact ⟨split.1, List.mem_map_of_mem hsplit, rfl,
      (fields.holes_infix shouldSplit 0 [] h.encodes split hsplit).2⟩

theorem splitBlockFrom_held {faults : SplitStep → Option Err} {stream : Yielded (Bytes ⊕ Block)}
    {id : BlockId} {result : Bool} {w : Splitting}
    (h : splitBlockFrom env faults types shouldSplit stream id descriptor inherited limit
      { registry := registry } = .ok result w) :
    ∃ stored, registry.lookup id = some stored := by
  suffices hends : Ends (splitBlockFrom env faults types shouldSplit stream id descriptor inherited
      limit) { registry := registry } (fun _ _ => ∃ stored, registry.lookup id = some stored)
      fun _ _ => True from hends.of_ok h
  unfold splitBlockFrom
  simp only [ends_bind, ends_get]
  refine (attempt_ends _).mono (fun _ s₀ h => ?_) fun _ _ h => h
  subst h
  refine (ofExcept_ends _ _).mono (fun size s₁ h => ?_) fun _ _ h => h
  have hheld := exists_lookup_of_size h.1
  unfold Ends
  split
  · exact hheld
  · trivial

end Split

-- With nobody else at work, the thread that splits a block leaves the registry that split_block
-- leaves, and what it puts in the place of the block fits.
theorem splitBlock_alone {ι : Type} [DecidableEq ι] (env : Enviroment)
    (faults : SplitStep → Option Err) {δ φ : Type} (types : Descriptors δ φ)
    (shouldSplit : φ → Nat → Bool) (registry : Registry) (id : BlockId) (descriptor : δ)
    (inherited : Option (List Bytes)) (limit : Int) (stream : Yielded (Bytes ⊕ Block))
    (w : Splitting)
    (hsplit : splitBlockFrom env faults types shouldSplit stream id descriptor inherited limit
      { registry := registry } = .ok true w) :
    ∃ payloads form, form.id = id ∧ form.content = contentOf stream.items ∧
      form.Fits env payloads ∧ ∀ (jobs : ι → Job) (i : ι), jobs i = .split payloads form →
        ∃ turns s, Interleaving.run (Crew.step (Worker.step env)) (Workers.start registry jobs)
            (List.replicate turns i) = some s ∧
          s.shared.registry = w.registry ∧ s.shared.aside = [] ∧ (s.agents i).Ended := by
  have hends := (@splitBlockFrom_ends env δ φ types shouldSplit registry id descriptor inherited limit
    faults stream).of_ok hsplit
  rcases hends with ⟨hresult, -⟩ | ⟨-, fields, split, directory, hread, hid, hrewritten, hw⟩
  · cases hresult
  · refine ⟨(fields.splits shouldSplit).map Prod.fst, ⟨id, directory, fields.render⟩, rfl,
      hread.symm, hrewritten.fits hid, fun jobs i hjob => ?_⟩
    obtain ⟨old, hold⟩ := splitBlockFrom_held hsplit
    generalize hpayloads : (fields.splits shouldSplit).map Prod.fst = payloads at hjob
    have hregistry : split.registry = registry.keepAll env payloads :=
      hpayloads ▸ hrewritten.registry
    have hstill : (registry.keepAll env payloads).lookup id = some old :=
      keepAll_grows registry payloads id old hold
    obtain ⟨hashed, hkeeps⟩ :=
      @keepAll_alone env payloads (some ⟨id, directory, fields.render⟩) { registry }
    obtain ⟨hashed', hswaps⟩ := @swap_alone env ⟨id, directory, fields.render⟩
      ⟨registry.keepAll env payloads, [], hashed⟩ old hstill rfl
    have hstart : (Workers.start registry jobs).agents i =
        .rewriting { payloads, form := some ⟨id, directory, fields.render⟩ } :=
      congrArg Job.start hjob
    have hwriter : Alone (Worker.step env)
        ((Workers.start registry jobs).shared, (Workers.start registry jobs).agents i)
        (⟨(split.registry.remove id).store id (.dir directory), [], hashed'⟩,
          .rewriting { payloads := [], form := none }) := by
      rw [hstart, hregistry]
      exact rewriting_alone (hkeeps.trans hswaps)
    obtain ⟨turns, hrun⟩ := alone_run hwriter
    refine ⟨turns, _, hrun, hw.symm, rfl, ?_⟩
    simp only [Function.update_self]
    exact ⟨rfl, rfl⟩

theorem splitBlock_alone_sample :
    let content := Fields.sample.render
    ∃ payloads form, form.id = 1 :: content ∧ form.content = content ∧
      form.Fits .sample payloads ∧ ∀ (jobs : Unit → Job) (i : Unit), jobs i = .split payloads form →
        ∃ turns s, Interleaving.run (Crew.step (Worker.step .sample)) (Workers.start .flat jobs)
            (List.replicate turns i) = some s ∧
          s.shared.registry = .split ∧ s.shared.aside = [] ∧ (s.agents i).Ended := by
  exact splitBlock_alone .sample (fun _ => none) .sample (fun _ length => decide (3 ≤ length)) .flat
    (1 :: Fields.sample.render) () none 8 (readBlock .sample .flat (1 :: Fields.sample.render))
    { registry := .split
      reader :=
        { chunks := .pure [], hashed := Fields.sample.render, buffer := Fields.sample.render,
          offset := 9, position := 9 }
      writer := { entries := [.part 1, .block [1, 7, 8, 9] [1, 3], .part 2], blocks := 1 } }
    (by decide +kernel)

theorem creating_alone {env : Enviroment} {d : Disk} {c : Creating} {after : Disk × Creating}
    (h : Alone (Creating.step env) (d, c) after) :
    Alone (Worker.step env) (d, .creating c) (after.1, .creating after.2) := by
  induction h with
  | refl => exact .refl
  | tail _ hact ih => exact ih.tail (congrArg (Option.map _) hact)

theorem keep_alone (env : Enviroment) (registry : Registry) (content : Bytes) :
    Alone (Creating.step env) ({ registry }, { content })
      ({ registry := registry.keep env content, hashed := [content] }, ⟨content, .created⟩) := by
  cases hexists : registry.blockExists (env.hashFactory content) with
  | true =>
      rw [keep_of_exists hexists]
      refine .single ?_
      simp only [Creating.step, hexists, if_true]
  | false =>
      have hnone := Registry.blockExists_eq_false.mp hexists
      rw [keep_of_not_exists (Bool.eq_false_iff.mp hexists)]
      have hasks : Creating.step env { registry } { content } =
          some ({ registry, hashed := [content] }, ⟨content, .asked⟩) := by
        simp only [Creating.step, hexists]
        rfl
      have hagain : Creating.step env { registry, hashed := [content] } ⟨content, .asked⟩ =
          some ({ registry, hashed := [content] }, ⟨content, .missing⟩) := by
        simp only [Creating.step, hexists]
        rfl
      refine .head hasks (.head hagain (.single ?_))
      simp only [Creating.step, hnone, Stored.replaces, if_true]

-- With nobody else at work, the thread that creates a block leaves the registry that create_block
-- leaves, whether the file is copied or moved.
theorem createBlock_alone {ι μ : Type} [DecidableEq ι] (n n' : Host μ) (path : String) (copy : Bool)
    (registry : Registry) (result : Bytes × Block) (h : n.Typed)
    (hregistry : n.registry? = some registry) (hcreated : createBlock path copy n = .ok result n') :
    ∃ content, n.files path = some content ∧ ∀ (jobs : ι → Job) (i : ι), jobs i = .create content →
      ∃ turns s, Interleaving.run (Crew.step (Worker.step n.settings.env))
          (Workers.start registry jobs) (List.replicate turns i) = some s ∧
        n'.registry? = some s.shared.registry ∧ s.shared.aside = [] ∧ (s.agents i).Ended := by
  obtain ⟨content, hfile, -, hexists, hplaced⟩ := (createBlock_ends path copy h).of_ok hcreated
  refine ⟨content, hfile, fun jobs i hjob => ?_⟩
  have hkept : n'.registry? = some (registry.keep n.settings.env content) := by
    rcases hplaced with rfl | ⟨found, files, hfound, hmissing, rfl⟩
    · rw [Host.blockExists, hregistry, Option.getD_some] at hexists
      rw [hregistry, keep_of_exists hexists]
    · obtain rfl := Option.some.inj (hregistry.symm.trans hfound)
      rw [keep_of_not_exists (Bool.eq_false_iff.mp hmissing)]
      exact Function.update_self ..
  have hstart : (Workers.start registry jobs).agents i = .creating { content } :=
    congrArg Job.start hjob
  have hwriter : Alone (Worker.step n.settings.env)
      ((Workers.start registry jobs).shared, (Workers.start registry jobs).agents i)
      ({ registry := registry.keep n.settings.env content, hashed := [content] },
        .creating ⟨content, .created⟩) := by
    rw [hstart]
    exact creating_alone (keep_alone n.settings.env registry content)
  obtain ⟨turns, hrun⟩ := alone_run hwriter
  refine ⟨turns, _, hrun, hkept, rfl, ?_⟩
  simp only [Function.update_self]
  rfl

theorem createBlock_alone_sample :
    let n : Host Unit := { Host.sample with dirs := fun _ => some [], files := fun _ => some [7, 7] }
    let n' : Host Unit := n.put [] [1, 7, 7] [7, 7]
    ∃ content, n.files "file" = some content ∧ ∀ (jobs : Unit → Job) (i : Unit),
      jobs i = .create content → ∃ turns s,
        Interleaving.run (Crew.step (Worker.step n.settings.env)) (Workers.start [] jobs)
          (List.replicate turns i) = some s ∧
        n'.registry? = some s.shared.registry ∧ s.shared.aside = [] ∧ (s.agents i).Ended := by
  intro n n'
  exact createBlock_alone n n' "file" true [] ([1, 7, 7], blockPointer .sample [1, 7, 7])
    ⟨sample_typed.hashType, sample_typed.labelled, sample_typed.registered⟩ rfl rfl

end BeeRpc
