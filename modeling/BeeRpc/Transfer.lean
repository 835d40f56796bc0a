import BeeRpc.Beginning

namespace BeeRpc

open Wire Effect Naming

-- Equal names mean equal expansions.
def Registry.Agrees (left right : Registry) : Prop :=
  ∀ id x y, left.expansion id = some x → right.expansion id = some y → x = y

-- Part files, numbered from `index` on.
def number (index : Nat) : List Bytes → List (Nat × Bytes)
  | [] => []
  | content :: rest => (index, content) :: number (index + 1) rest

namespace Forest

-- What is held once the forest has been received: what was held before, and every block that
-- is framed outside all blocks that are held when they arrive.
def taken (held : List BlockId) : Forest → List BlockId
  | nil => held
  | chunk _ _ rest => rest.taken held
  | block id _ body rest =>
      if id ∈ held then rest.taken held else rest.taken (id :: body.taken held)

theorem mem_taken (forest : Forest) (held : List BlockId) : ∀ id ∈ held, id ∈ forest.taken held := by
  induction forest generalizing held with
  | nil => exact fun id h => h
  | chunk skip content rest ih => exact ih held
  | block other positions body rest ihBody ihRest =>
      intro id hid
      rw [taken]
      split
      · exact ihRest held id hid
      · exact ihRest _ id (List.mem_cons_of_mem _ (ihBody held id hid))

theorem blocks_taken (forest : Forest) (held : List BlockId) :
    ∀ id ∈ forest.blocks.map Prod.fst, id ∈ forest.taken held := by
  induction forest generalizing held with
  | nil => simp [blocks]
  | chunk skip content rest ih => exact ih held
  | block other positions body rest ihBody ihRest =>
      intro id hid
      rw [taken]
      rcases List.mem_cons.mp hid with rfl | hid
      · split
        · rename_i h
          exact mem_taken rest held _ h
        · exact mem_taken rest _ _ (List.mem_cons_self ..)
      · split
        · exact ihRest held id hid
        · exact ihRest _ id hid

theorem Nests.not_taken {forest : Forest} {around : List BlockId} (h : forest.Nests around)
    {held : List BlockId} {id : BlockId} (hid : id ∈ around) (hnew : id ∉ held) :
    id ∉ forest.taken held := by
  induction forest generalizing around held with
  | nil => exact hnew
  | chunk skip content rest ih => exact ih h hid hnew
  | block other positions body rest ihBody ihRest =>
      obtain ⟨-, hother, -, hbody, hrest⟩ := h
      rw [taken]
      split
      · exact ihRest hrest hid hnew
      · refine ihRest hrest hid fun hmem => ?_
        rcases List.mem_cons.mp hmem with rfl | hmem
        · exact hother hid
        · exact ihBody hbody (List.mem_cons_of_mem _ hid) hnew hmem

theorem parts_of_blocks (fill : BlockId → Bytes) (forest : Forest) (current : Bytes)
    (h : forest.blocks = []) : forest.parts current = [current ++ forest.expand fill] := by
  induction forest generalizing current with
  | nil => simp [parts, expand]
  | chunk skip content rest ih =>
      rw [parts, ih _ h, expand, List.append_assoc]
  | block id positions body rest ihBody ihRest => cases h

end Forest

section Shape

theorem number_keys (index : Nat) (contents : List Bytes) :
    (number index contents).map Prod.fst = List.range' index contents.length := by
  induction contents generalizing index with
  | nil => rfl
  | cons content contents ih => rw [number, List.map_cons, ih, List.length_cons, List.range'_succ]

theorem lookup_number (index : Nat) (contents : List Bytes) :
    ∀ part ∈ number index contents, (number index contents).lookup part.1 = some part.2 := by
  intro part hpart
  refine Dict.lookup_of_nodup _ ?_ part.1 part.2 hpart
  rw [number_keys]
  exact List.nodup_range'

theorem runs_number (forest : Forest) (current : Bytes) (index : Nat) (directory : Directory)
    (h : ∀ part ∈ number index (forest.parts current), directory.part part.1 = some part.2) :
    directory.runs (weave index forest.blocks) = some (forest.layout current) := by
  induction forest generalizing current index with
  | nil =>
      exact runs_part_eq_some.mpr
        ⟨current, [], h (index, current) (List.mem_cons_self ..), rfl, rfl⟩
  | chunk skip content rest ih => exact ih _ _ h
  | block id positions body rest ihBody ihRest =>
      refine runs_part_eq_some.mpr ⟨current, .inr id :: rest.layout [],
        h (index, current) (List.mem_cons_self ..), ?_, rfl⟩
      exact runs_block_eq_some.mpr
        ⟨_, ihRest [] (index + 1) fun part hpart => h part (List.mem_cons_of_mem _ hpart), rfl⟩

variable {env : Enviroment} (control : Bool)

-- Whatever is in its blocks, the parts and the `_.json` of a forest are its own.
theorem absorb_shape (forest : Forest) (k k' : Known) (p q : Part)
    (h : absorb env control k p forest = .ok (k', q)) :
    q.allJson = p.json ++ weave p.index forest.blocks ∧
      q.allParts = p.parts ++ number p.index (forest.parts p.current) := by
  induction forest generalizing k p with
  | nil =>
      obtain ⟨-, rfl⟩ := Prod.mk.inj (Except.ok.inj h)
      exact ⟨rfl, rfl⟩
  | chunk skip content rest ih => exact ih k (p.chunk content) h
  | block id positions body rest ihBody ihRest =>
      rw [absorb_block] at h
      obtain ⟨result, -, hrest⟩ := bind_eq_ok.mp h
      obtain ⟨hjson, hparts⟩ := ihRest result.1 (p.block id positions result.2) hrest
      simp only [Part.block, List.append_assoc] at hjson hparts
      exact ⟨hjson, hparts⟩

end Shape

section Faithful

variable {env : Enviroment} (control : Bool)

-- A receiver whose registry has nothing wrong and nothing that the sender has otherwise.
structure Known.Good (env : Enviroment) (sender : Registry) (k : Known) : Prop where
  addressed : k.registry.ContentAddressed env
  agrees : sender.Agrees k.registry

variable {sender : Registry}

theorem Known.Good.expansion {k : Known} (h : k.Good env sender) {id : BlockId} {content : Bytes}
    (hcontent : sender.expansion id = some content) (hexists : k.registry.blockExists id = true) :
    k.registry.expansion id = some content := by
  obtain ⟨stored, hl⟩ := Registry.blockExists_eq_true.mp hexists
  obtain ⟨bytes, hbytes, -⟩ := h.addressed id stored hl
  rw [hbytes, h.agrees id content bytes hcontent hbytes]

-- What is kept of the sender's stored object.
structure Stored.Mirrors (forest : Forest) (content : Bytes) (registry : Registry)
    (stored : Stored) : Prop where
  expands : stored.expandWith registry.expansion = some content
  file : forest.blocks = [] → stored = .file content
  dir : forest.blocks ≠ [] → ∃ directory, stored = .dir directory ∧
    directory.json = weave 1 forest.blocks ∧ directory.runs directory.json = some (forest.layout [])

theorem weave_length (index : Nat) (chains : List (BlockId × List Nat)) :
    (weave index chains).length = 2 * chains.length + 1 := by
  induction chains generalizing index with
  | nil => rfl
  | cons chain chains ih =>
      simp only [weave, List.length_cons, ih]
      omega

-- What was absorbed can be stored, in the shape that the sender has it in.
theorem stored_mirrors {forest : Forest} {k₀ k k' : Known} {q : Part}
    (habsorb : absorb env control k₀ {} forest = .ok (k', q)) (hgood : k.Good env sender)
    (hopens : forest.blocks ≠ [] → forest.Opens sender)
    (hsender : ∀ id ∈ forest.blocks.map Prod.fst, ∃ content, sender.expansion id = some content)
    (hheld : ∀ id ∈ forest.blocks.map Prod.fst, k.registry.blockExists id = true)
    (inherited : Option (List Bytes)) :
    ∃ stored, q.stored env k.registry inherited = .ok stored ∧
      stored.Mirrors forest (forest.expand sender.content) k.registry := by
  obtain ⟨hjson, hparts⟩ := absorb_shape control forest k₀ k' {} q habsorb
  simp only [List.nil_append] at hjson hparts
  have hfilled : ∀ id ∈ forest.blocks.map Prod.fst,
      k.registry.expansion id = some (sender.content id) := by
    intro id hid
    exact hgood.expansion (Registry.content_eq (hsender id hid)) (hheld id hid)
  have hruns : ∀ wbp, Directory.runs { parts := q.allParts, json := q.allJson, wbp } q.allJson =
      some (forest.layout []) := by
    intro wbp
    rw [hjson]
    refine runs_number forest [] 1 _ fun part hpart => ?_
    rw [Directory.part, hparts]
    exact lookup_number 1 _ part hpart
  have hexpands : ∀ wbp, Directory.expandWith { parts := q.allParts, json := q.allJson, wbp }
      k.registry.expansion = some (forest.expand sender.content) := by
    intro wbp
    have h := expandEntries_of_runs k.registry.expansion sender.content q.allJson _ (hruns wbp)
      fun id hid => hfilled id ((Forest.mem_layout ..).mp hid)
    rw [Forest.expand_layout, List.nil_append] at h
    exact h
  have hlength : q.allJson.length < 2 ↔ forest.blocks = [] := by
    rw [hjson, weave_length, ← List.length_eq_zero_iff]
    omega
  by_cases hblocks : forest.blocks = []
  · refine ⟨.file (forest.expand sender.content), ?_, rfl, fun _ => rfl, fun h => absurd hblocks h⟩
    rw [Part.stored, if_pos (hlength.mpr hblocks), hparts,
      Forest.parts_of_blocks sender.content forest [] hblocks]
    rfl
  · have hdir : ∀ wbp, (Stored.dir { parts := q.allParts, json := q.allJson, wbp }).Mirrors forest
        (forest.expand sender.content) k.registry :=
      fun wbp => ⟨hexpands wbp, fun h => absurd h hblocks,
        fun _ => ⟨_, rfl, hjson, hruns wbp⟩⟩
    rw [Part.stored, if_neg (mt hlength.mp hblocks)]
    by_cases hskip : env.skipWbpGeneration = true
    · rw [if_pos hskip]
      exact ⟨_, rfl, hdir none⟩
    · obtain ⟨doc, front, back, last, hpieces, hback, hlayout, hchains⟩ := hopens hblocks
      have hblocksOf : Directory.blocks { parts := q.allParts, json := q.allJson } =
          doc.chains sender.content 0 := by
        rw [← hchains]
        exact weave_blocks 1 _ _ hjson
      obtain ⟨wbp, hwbp⟩ := wbpBytes_front env k.registry hpieces hback
        ((hruns none).trans (congrArg some hlayout)) hblocksOf (fun id hid => by
          refine hfilled id ?_
          rw [hchains, Document.chains_holes]
          exact hid) inherited
      rw [if_neg hskip, generateWbpFile, hwbp]
      exact ⟨_, rfl, hdir _⟩

theorem Known.Good.of_registry {k k' : Known} (h : k.Good env sender)
    (hregistry : k'.registry = k.registry) : k'.Good env sender :=
  ⟨hregistry ▸ h.addressed, hregistry ▸ h.agrees⟩

-- A block that is stored as its name says leaves the receiver without anything wrong.
theorem Known.Good.store {k : Known} (h : k.Good env sender) {id : BlockId} {content : Bytes}
    {stored : Stored} (hnew : k.registry.lookup id = none)
    (hsender : sender.expansion id = some content) (hid : env.hashFactory content = id)
    (hstored : stored.expandWith k.registry.expansion = some content) :
    Known.Good env sender { k with registry := k.registry.store id stored } := by
  have hgrows := Registry.Grows.store stored hnew
  have hexpansion : (k.registry.store id stored).expansion id = some content := by
    cases stored with
    | file bytes =>
        obtain rfl := Option.some.inj hstored
        exact Registry.expansion_file (Registry.lookup_store_self ..)
    | dir directory =>
        rw [Registry.expansion_dir (Registry.lookup_store_self ..)]
        exact Directory.expandEntries_mono directory (fun _ _ hs => hgrows.expansion hs) _ _ hstored
  refine ⟨h.addressed.store hnew hexpansion hid, fun other x y hx hy => ?_⟩
  by_cases hother : other = id
  · subst hother
    rw [hexpansion] at hy
    rw [hsender] at hx
    exact (Option.some.inj hx).symm.trans (Option.some.inj hy)
  · obtain ⟨entry, hl⟩ := Registry.exists_lookup_of_expansion hy
    rw [Registry.lookup_store_ne _ _ hother] at hl
    obtain ⟨bytes, hbytes, -⟩ := h.addressed other entry hl
    rw [hgrows.expansion hbytes] at hy
    exact h.agrees other x y hx (hy ▸ hbytes)

theorem Forest.Faithful.holds {forest : Forest} (h : forest.Faithful sender) :
    ∀ id ∈ forest.blocks.map Prod.fst, ∃ content, sender.expansion id = some content := by
  induction forest with
  | nil => simp [Forest.blocks]
  | chunk skip content rest ih => exact ih h
  | block other positions body rest ihBody ihRest =>
      intro id hid
      rcases List.mem_cons.mp hid with rfl | hid
      · exact ⟨_, h.1⟩
      · exact ihRest h.2.2.2 id hid

def Known.Holds (k : Known) (held : List BlockId) : Prop :=
  ∀ id, k.registry.blockExists id = true ↔ id ∈ held

-- A block that was absorbed whole is stored under its name.
theorem store_absorbed {forest : Forest} {k₀ k : Known} {q : Part}
    (habsorb : absorb env control k₀ {} forest = .ok (k, q)) (hgood : k.Good env sender)
    (hopens : forest.blocks ≠ [] → forest.Opens sender)
    (hsender : ∀ id ∈ forest.blocks.map Prod.fst, ∃ content, sender.expansion id = some content)
    {held around : List BlockId} (hheld : k.Holds (forest.taken held)) {id : BlockId}
    (hnests : forest.Nests (id :: around)) (hnew : id ∉ held)
    (hexpansion : sender.expansion id = some (forest.expand sender.content))
    (hdigest : env.hashFactory (forest.expand sender.content) = id)
    (hcontent : q.content = forest.expand sender.content) :
    ∃ k', k.storeBlock env id q = .ok k' ∧ k'.Good env sender ∧
      k.registry.Grows k'.registry ∧ k'.Holds (id :: forest.taken held) := by
  have hmissing : k.registry.lookup id = none := by
    have hnot := hnests.not_taken (List.mem_cons_self ..) hnew
    exact Registry.blockExists_eq_false.mp
      (Bool.eq_false_of_not_eq_true (mt (hheld id).mp hnot))
  obtain ⟨stored, hstored, hmirrors⟩ := stored_mirrors control habsorb hgood hopens hsender
    (fun other hother => (hheld other).mpr (forest.blocks_taken held other hother))
    (some [env.hashType])
  refine ⟨{ k with registry := k.registry.store id stored }, ?_,
    hgood.store hmissing hexpansion hdigest hmirrors.expands, Registry.Grows.store stored hmissing,
    fun other => ?_⟩
  · rw [Known.storeBlock, Part.storedBlock, hcontent, if_neg (not_not.mpr hdigest), hstored]
  · simp only [Registry.blockExists, List.mem_cons]
    by_cases hother : other = id
    · subst hother
      simp
    · rw [Registry.lookup_store_ne _ _ hother]
      exact (hheld other).trans (by simp [hother])

-- Every block of a faithful forest is absorbed.
theorem absorb_faithful (hsender : sender.ContentAddressed env) (forest : Forest)
    (around : List BlockId) (hnests : forest.Nests around) (hfaithful : forest.Faithful sender)
    (k : Known) (p : Part) (hgood : k.Good env sender) (held : List BlockId)
    (hheld : k.Holds held) :
    ∃ k' q, absorb env control k p forest = .ok (k', q) ∧ k'.Good env sender ∧
      k.registry.Grows k'.registry ∧ k'.Holds (forest.taken held) ∧
      q.content = p.content ++ forest.expand sender.content := by
  induction forest generalizing around k p held with
  | nil =>
      exact ⟨k, p, rfl, hgood, .refl _, hheld, by rw [Forest.expand, List.append_nil]⟩
  | chunk skip content rest ih =>
      obtain ⟨k', q, habsorb, hgood', hgrows, hheld', hcontent⟩ :=
        ih around hnests hfaithful k (p.chunk content) hgood held hheld
      refine ⟨k', q, habsorb, hgood', hgrows, hheld', ?_⟩
      rw [hcontent]
      simp [Part.chunk, Part.content, Forest.expand]
  | block id positions body rest ihBody ihRest =>
      obtain ⟨hid, hnew, -, hbody, hrest⟩ := hnests
      obtain ⟨hexpansion, hlaid, hfaithfulBody, hfaithfulRest⟩ := hfaithful
      have hasked : (k.ask control id).registry = k.registry := ask_registry control k id
      have hfill : sender.content id = body.expand sender.content := by
        rw [Registry.content, hexpansion, Option.getD_some]
      have hfed : ∀ content, (p.block id positions content).content = p.content ++ content := by
        intro content
        simp [Part.block, Part.content]
      simp only [absorb, Forest.taken]
      by_cases hexists : k.registry.blockExists id = true
      · rw [if_pos hexists, if_pos ((hheld id).mp hexists)]
        have hdrained : ((k.ask control id).drain control body).registry = k.registry :=
          (drain_registry control body _).trans hasked
        obtain ⟨k', q, habsorb, hgood', hgrows, hheld', hcontent⟩ := ihRest around hrest
          hfaithfulRest ((k.ask control id).drain control body)
          (p.block id positions (k.registry.content id)) (hgood.of_registry hdrained) held
          (fun other => by rw [hdrained]; exact hheld other)
        refine ⟨k', q, habsorb, hgood', hdrained ▸ hgrows, hheld', ?_⟩
        have hsame : k.registry.content id = sender.content id := by
          rw [Registry.content, hgood.expansion hexpansion hexists, hfill, Option.getD_some]
        rw [hcontent, hfed, hsame, Forest.expand, List.append_assoc]
      · rw [if_neg hexists, if_neg (mt (hheld id).mpr hexists)]
        obtain ⟨k₁, q₁, habsorb₁, hgood₁, hgrows₁, hheld₁, hcontent₁⟩ := ihBody (id :: around) hbody
          hfaithfulBody (k.ask control id) {} (hgood.of_registry hasked) held
          (fun other => by rw [hasked]; exact hheld other)
        have hcontent₁ : q₁.content = body.expand sender.content := hcontent₁
        have hdigest : env.hashFactory (body.expand sender.content) = id := by
          obtain ⟨entry, hl⟩ := Registry.exists_lookup_of_expansion hexpansion
          obtain ⟨bytes, hbytes, hid⟩ := hsender id entry hl
          rw [hexpansion] at hbytes
          rw [Option.some.inj hbytes, hid]
        obtain ⟨k₂, hblock, hgood₂, hgrows₂, hheld₂⟩ := store_absorbed control habsorb₁ hgood₁
          (fun hblocks => (hlaid hblocks).opens_self hblocks) hfaithfulBody.holds hheld₁ hbody
          (mt (hheld id).mpr hexists) hexpansion hdigest hcontent₁
        obtain ⟨k', q, habsorb, hgood', hgrows, hheld', hcontent⟩ := ihRest around hrest
          hfaithfulRest k₂ (p.block id positions q₁.content) hgood₂ _ hheld₂
        refine ⟨k', q, ?_, hgood', ?_, hheld', ?_⟩
        · rw [habsorb₁]
          simp only [ok_bind, hblock]
          exact habsorb
        · rw [hasked] at hgrows₁
          exact hgrows₁.trans (hgrows₂.trans hgrows)
        · rw [hcontent, hfed, hcontent₁, ← hfill, Forest.expand, List.append_assoc]

theorem Stored.FramedBy.laid {stored : Stored} {forest : Forest} (h : stored.FramedBy sender forest)
    (hblocks : forest.blocks ≠ []) : forest.Laid sender := by
  cases stored with
  | file content => exact absurd (h.file content rfl) hblocks
  | dir directory => exact (h.dir directory rfl).laid

theorem absorbDir_faithful (hsender : sender.ContentAddressed env) {stored : Stored}
    {forest : Forest} (hframed : stored.FramedBy sender forest) (k : Known)
    (hgood : k.Good env sender) (held : List BlockId) (hheld : k.Holds held) :
    ∃ k' received, absorbDir env control k forest = .ok (k', received) ∧ k'.Good env sender ∧
      k.registry.Grows k'.registry ∧ k'.Holds (forest.taken held) ∧
      received.Mirrors forest (forest.expand sender.content) k'.registry := by
  obtain ⟨k', q, habsorb, hgood', hgrows, hheld', -⟩ := absorb_faithful control hsender forest []
    hframed.nests hframed.faithful k {} hgood held hheld
  obtain ⟨received, hreceived, hmirrors⟩ := stored_mirrors control habsorb hgood'
    (fun hblocks => (hframed.laid hblocks).opens_self hblocks) hframed.faithful.holds
    (fun id hid => (hheld' id).mpr (forest.blocks_taken held id hid)) none
  refine ⟨k', received, ?_, hgood', hgrows, hheld', hmirrors⟩
  rw [absorbDir, habsorb]
  simp only [ok_bind, hreceived]

end Faithful

section Delivery

-- A Dir with the sender's object: the same expansion and, where there are blocks in it, the
-- same `_.json` and the same parts.
structure Delivered (sender receiver : Registry) (message : Outgoing) (dir : Dir) : Prop where
  type : dir.type = message.type
  expands : ∃ content, message.stored.expandWith sender.expansion = some content ∧
    dir.stored.expandWith receiver.expansion = some content
  same : ∀ directory, message.stored = .dir directory → directory.blocks ≠ [] →
    ∃ copy, dir.stored = .dir copy ∧ copy.json = directory.json ∧
      ∀ index, .part index ∈ directory.json → copy.part index = directory.part index

theorem Stored.expandWith_mono {stored : Stored} {before after : Registry} {content : Bytes}
    (hgrows : before.Grows after) (h : stored.expandWith before.expansion = some content) :
    stored.expandWith after.expansion = some content := by
  cases stored with
  | file bytes => exact h
  | dir directory =>
      exact Directory.expandEntries_mono directory (fun _ _ hs => hgrows.expansion hs) _ _ h

theorem Delivered.mono {sender before after : Registry} {message : Outgoing} {dir : Dir}
    (hgrows : before.Grows after) (h : Delivered sender before message dir) :
    Delivered sender after message dir := by
  obtain ⟨content, hsender, hreceiver⟩ := h.expands
  exact ⟨h.type, ⟨content, hsender, Stored.expandWith_mono hgrows hreceiver⟩, h.same⟩

-- Directories with the same runs under one `_.json` have the same parts.
theorem part_of_runs {left right : Directory} (entries : List JsonEntry)
    (runs : List (Bytes ⊕ BlockId)) (hleft : left.runs entries = some runs)
    (hright : right.runs entries = some runs) :
    ∀ index, .part index ∈ entries → left.part index = right.part index := by
  induction entries generalizing runs with
  | nil => simp
  | cons entry rest ih =>
      intro index hindex
      cases entry with
      | part other =>
          obtain ⟨content, more, hcontent, hmore, rfl⟩ := runs_part_eq_some.mp hleft
          obtain ⟨content', more', hcontent', hmore', heq⟩ := runs_part_eq_some.mp hright
          obtain ⟨hhead, rfl⟩ := List.cons.inj heq
          rcases List.mem_cons.mp hindex with hindex | hindex
          · rw [JsonEntry.part.inj hindex, hcontent, hcontent', Sum.inl.inj hhead]
          · exact ih more hmore hmore' index hindex
      | block id positions =>
          obtain ⟨more, hmore, rfl⟩ := runs_block_eq_some.mp hleft
          obtain ⟨more', hmore', heq⟩ := runs_block_eq_some.mp hright
          obtain ⟨-, rfl⟩ := List.cons.inj heq
          exact ih more hmore hmore' index ((List.mem_cons.mp hindex).resolve_left (by simp))

theorem delivered_of_mirrors {sender receiver : Registry} {message : Outgoing} {forest : Forest}
    (hcomplete : message.stored.Complete sender) (hframed : message.stored.FramedBy sender forest)
    {received : Stored}
    (hmirrors : received.Mirrors forest (forest.expand sender.content) receiver) (path : Nat) :
    Delivered sender receiver message
      { dir := path, stored := received, type := message.type } := by
  refine ⟨rfl, ⟨_, hframed.expands, hmirrors.expands⟩, fun directory hdir hblocks => ?_⟩
  have hd := hframed.dir directory hdir
  obtain ⟨copy, hcopy, hjson, hruns⟩ := hmirrors.dir (hd.blocks ▸ hblocks)
  have hwoven : directory.json = weave 1 directory.blocks := by
    rw [hdir] at hcomplete
    exact hcomplete.woven
  have hsame : copy.json = directory.json := by rw [hjson, hd.blocks, ← hwoven]
  refine ⟨copy, hcopy, hsame, part_of_runs directory.json _ (hsame ▸ hruns) hd.runs⟩

variable {receiver : Receiver}

-- One message after another.
theorem run_sent (hd : receiver.env.Digests) {sender : Registry}
    (hsender : sender.ContentAddressed receiver.env) {indexOf : Field → Option Int}
    {messages : List Outgoing} {sents : List Sent}
    (hsent : List.Forall₂ (Outgoing.SentAs sender indexOf) messages sents)
    (hcomplete : ∀ message ∈ messages, message.stored.Complete sender)
    (hindices : ∀ message ∈ messages, ∀ index, indexOf message.type = some index →
      receiver.allIndices.lookup index = some message.type ∧ receiver.mode index = false)
    (w : World) (hw : w.Sound receiver.env) (hgood : w.known.Good receiver.env sender)
    (held : List BlockId) (hheld : w.known.Holds held)
    (hrequests : w.requests = sents.flatMap (Sent.stream receiver.env)) :
    ∃ results w', receiver.run w = (.pure results, w') ∧
      List.Forall₂ (fun message result => ∃ dir, result = .dir dir ∧
        Delivered sender w'.registry message dir) messages results ∧
      w.registry.Grows w'.registry ∧ w'.known.Good receiver.env sender ∧
      w'.known.Holds (sents.foldl (fun held sent => sent.forest.taken held) held) := by
  induction hsent generalizing w held with
  | nil => exact ⟨[], w, run_nil w hrequests, .nil, .refl _, hgood, hheld⟩
  | @cons message sent messages sents hone hrest ih =>
      rw [List.flatMap_cons] at hrequests
      have hcarries := @Sent.carries receiver.env sent hone.framed.nests
        (sents.flatMap (Sent.stream receiver.env))
      obtain ⟨b, rest, hb, hhead⟩ : ∃ b rest, w.requests = b :: rest ∧ b.head = some sent.head := by
        rw [hrequests]
        cases sent with
        | framed head forest => exact ⟨_, _, rfl, rfl⟩
        | single head content => exact ⟨_, _, rfl, rfl⟩
      have hindexOf : receiver.indexOf b = sent.head.index := by
        simp only [Receiver.indexOf, hhead, Option.map_some, Option.getD_some]
      obtain ⟨hfield, hmode⟩ := hindices message (List.mem_cons_self ..) _ hone.head
      obtain ⟨k, received, habsorb, hgood', hgrows, hheld', hmirrors⟩ := absorbDir_faithful
        receiver.control hsender hone.framed w.known hgood held hheld
      have hreceive := receive_dir hd b w hw (hrequests ▸ hcarries) (hindexOf ▸ hfield)
        (hindexOf ▸ hmode)
      rw [habsorb] at hreceive
      obtain ⟨path, w₁, hw₁, hknown, hmore, hkeeps⟩ := hreceive
      subst hknown
      obtain ⟨results, w', hrun, hdelivered, hgrows', hgood'', hheld''⟩ := ih
        (fun other ho => hcomplete other (List.mem_cons_of_mem _ ho))
        (fun other ho => hindices other (List.mem_cons_of_mem _ ho)) w₁ (hw.keeps hkeeps) hgood' _
        hheld' hmore
      let dir : Dir := { dir := path, stored := received, type := message.type }
      refine ⟨.dir dir :: results, w', ?_, .cons ⟨dir, rfl, ?_⟩ hdelivered, hgrows.trans hgrows',
        hgood'', hheld''⟩
      · rw [run_cons w hw hb, hw₁]
        simp only [hrun, Option.toList_some, pure_andThen_pure, List.singleton_append]
        rfl
      · exact (delivered_of_mirrors (hcomplete message (List.mem_cons_self ..)) hone.framed hmirrors
          path).mono hgrows'

theorem marker_congr {env env' : Enviroment} (h : env.hashFactory = env'.hashFactory)
    (id : BlockId) (positions : List Nat) : marker env id positions = marker env' id positions := by
  simp only [marker, blockPointer, Enviroment.hashType, h]

-- The algorithm alone decides what a forest is on the wire.
theorem stream_congr {env env' : Enviroment} (h : env.hashFactory = env'.hashFactory)
    (forest : Forest) : forest.stream env = forest.stream env' := by
  induction forest with
  | nil => rfl
  | chunk skip content rest ih => rw [Forest.stream, Forest.stream, ih]
  | block id positions body rest ihBody ihRest =>
      simp only [Forest.stream, ihBody, ihRest, marker_congr h]

theorem sent_stream_congr {env env' : Enviroment} (h : env.hashFactory = env'.hashFactory)
    (sent : Sent) : sent.stream env = sent.stream env' := by
  cases sent with
  | framed head forest => simp only [Sent.stream, stream_congr h]
  | single head content => rfl

-- The transfer of objects: each arrives as it was sent, whatever the receiver had already, and
-- every block that is framed outside all blocks held when they arrive is there afterwards.
theorem parseFromBuffer_transfers (sender : Sender) (receiver : Receiver)
    (objects : List (Stored × Field)) (w : World)
    (hd : sender.env.Digests) (hsame : sender.env.hashFactory = receiver.env.hashFactory)
    (hdepth : 1 ≤ sender.env.blockDepth ∧ sender.env.blockDepth ≤ MAX_BLOCK_NESTING)
    (hskips : sender.skips = none) (hsender : sender.registry.Correct sender.env)
    (hobjects : ∀ object ∈ objects, object.1.Complete sender.registry)
    (hready : objects ≠ [] ∨ 1 < (Dict.set 0 .bytes sender.indices).length)
    (hindices : ∀ object ∈ objects, ∃ index,
      sender.indexOf (objects.map fun object => .dir object.1 object.2) object.2 = some index ∧
        receiver.allIndices.lookup index = some object.2)
    (hmode : receiver.indices ≠ [] ∧ receiver.partitionsMessageMode = .inl false)
    (hreceiver : w.registry.ContentAddressed receiver.env)
    (hagrees : sender.registry.Agrees w.registry) (hscratch : w.scratch = []) :
    let messages := objects.map fun object => Outgoing.dir object.1 object.2
    let stream := serializeToBuffer sender messages
    let outcome := parseFromBuffer receiver { w with requests := stream.items }
    stream.raised = none ∧ outcome.1.raised = none ∧
      List.Forall₂ (fun message result => ∃ dir, result = .dir dir ∧
        Delivered sender.registry outcome.2.registry message dir) messages outcome.1.items ∧
      w.registry.Grows outcome.2.registry ∧
      ∃ sents, stream.items = sents.flatMap (Sent.stream sender.env) ∧
        List.Forall₂ (Outgoing.SentAs sender.registry (sender.indexOf messages)) messages sents ∧
        (∀ id, outcome.2.registry.blockExists id = true ↔
          id ∈ sents.foldl (fun held sent => sent.forest.taken held) (w.registry.map Prod.fst)) ∧
        ∀ id content, sender.registry.expansion id = some content →
          outcome.2.registry.blockExists id = true →
          outcome.2.registry.expansion id = some content := by
  intro messages stream outcome
  have hcomplete : ∀ message ∈ messages, message.stored.Complete sender.registry := by
    intro message hmessage
    obtain ⟨object, hobject, rfl⟩ := List.mem_map.mp hmessage
    exact hobjects object hobject
  have hindexOf : ∀ message ∈ messages, ∃ index,
      sender.indexOf messages message.type = some index ∧
        receiver.allIndices.lookup index = some message.type := by
    intro message hmessage
    obtain ⟨object, hobject, rfl⟩ := List.mem_map.mp hmessage
    exact hindices object hobject
  obtain ⟨sents, hsents, hsent⟩ := serializeToBuffer_sent hd hsender hdepth.2 hskips messages
    (hready.imp_left fun h => by simpa [messages] using h) hcomplete
    fun message hmessage => (hindexOf message hmessage).imp fun _ h => h.1
  have hstream : stream = .pure (sents.flatMap (Sent.stream sender.env)) := hsents
  have hitems : stream.items = sents.flatMap (Sent.stream receiver.env) := by
    rw [hstream]
    exact List.flatMap_congr fun sent _ => sent_stream_congr hsame sent
  have hread : controlReader receiver.env stream.items = stream.items :=
    controlReader_skip _ _ (serializeToBuffer_skip messages)
  have hcorrect : receiver.isCorrect = true := by
    obtain ⟨hne, hinl⟩ := hmode
    simp [Receiver.isCorrect, hinl, hne]
  have houtcome : outcome = receiver.run { w with requests := stream.items } := by
    simp only [outcome, parseFromBuffer, hcorrect, if_true, hread, ite_self]
    rfl
  have hcontents : sender.registry.ContentAddressed receiver.env := by
    intro id stored hl
    rw [← hsame]
    exact hsender.addressed id stored hl
  have hdr : receiver.env.Digests := fun content => hsame ▸ hd content
  obtain ⟨results, w', hrun, hdelivered, hgrows, hgood, hheld⟩ := run_sent hdr hcontents hsent hcomplete
    (by
      intro message hmessage index hindex
      obtain ⟨index', hindex', hlookup⟩ := hindexOf message hmessage
      rw [hindex] at hindex'
      obtain rfl := Option.some.inj hindex'
      exact ⟨hlookup, by simp only [Receiver.mode, hmode.2]⟩)
    { w with requests := stream.items }
    ⟨hreceiver, fun path hpath => by simp [hscratch] at hpath⟩ ⟨hreceiver, hagrees⟩
    (w.registry.map Prod.fst)
    (fun id => Registry.blockExists_iff_mem)
    hitems
  rw [houtcome, hrun]
  refine ⟨by rw [hstream]; rfl, rfl, hdelivered, hgrows, sents, by rw [hstream]; rfl, hsent, hheld, ?_⟩
  exact fun id content hcontent hexists => hgood.expansion hcontent hexists

-- A directory around the block that has a block in it, and the file of that one.
def Directory.around : Directory where
  parts := [(1, [5, 10, 4]), (2, [])]
  json := [.part 1, .block [1, 10, 2, 5, 6] [2], .part 2]

def Sender.sample : Sender where
  env := { Enviroment.sample with blockDepth := 2 }
  registry := .sample
  parseBlock := fun _ => none

def Receiver.sample : Receiver where
  env := .sample
  parse := fun _ _ => none
  indices := [(1, .message 7)]
  partitionsMessageMode := .inl false

theorem sample_correct : Registry.sample.Correct Sender.sample.env := by
  refine ⟨Registry.sample_contentAddressed, fun id stored hl => ?_⟩
  cases stored with
  | file content => trivial
  | dir directory =>
      rw [Registry.sample, List.lookup_cons, List.lookup_cons] at hl
      split at hl
      · cases hl
      · split at hl
        · obtain rfl := Stored.dir.inj (Option.some.inj hl)
          refine ⟨by decide, .hole [10] [1, 5, 6] .nil, ⟨by decide, by decide⟩, ?_⟩
          intro other hother
          obtain rfl := List.mem_singleton.mp hother
          exact ⟨[5, 6], by decide⟩
        · cases hl

theorem around_complete : Directory.around.Complete Sender.sample.registry := by
  refine ⟨by decide, .raw [5] (.hole [10] [1, 10, 2, 5, 6] .nil), ⟨by decide, by decide⟩, ?_⟩
  intro other hother
  obtain rfl := List.mem_singleton.mp hother
  exact ⟨[10, 2, 5, 6], by decide⟩

theorem parseFromBuffer_transfers_sample :
    let sender : Sender := .sample
    let objects : List (Stored × Field) := [(.dir .around, .message 7), (.file [9, 9], .message 7)]
    let w : World := { registry := [], requests := [] }
    let messages := objects.map fun object => Outgoing.dir object.1 object.2
    let stream := serializeToBuffer sender messages
    let outcome := parseFromBuffer .sample { w with requests := stream.items }
    stream.raised = none ∧ outcome.1.raised = none ∧
      List.Forall₂ (fun message result => ∃ dir, result = .dir dir ∧
        Delivered sender.registry outcome.2.registry message dir) messages outcome.1.items ∧
      w.registry.Grows outcome.2.registry ∧
      ∃ sents, stream.items = sents.flatMap (Sent.stream sender.env) ∧
        List.Forall₂ (Outgoing.SentAs sender.registry (sender.indexOf messages)) messages sents ∧
        (∀ id, outcome.2.registry.blockExists id = true ↔
          id ∈ sents.foldl (fun held sent => sent.forest.taken held) (w.registry.map Prod.fst)) ∧
        ∀ id content, sender.registry.expansion id = some content →
          outcome.2.registry.blockExists id = true →
          outcome.2.registry.expansion id = some content := by
  have hobjects : ∀ object ∈ [(Stored.dir Directory.around, Field.message 7),
      (.file [9, 9], .message 7)], object.1.Complete Sender.sample.registry := by
    intro object hobject
    simp only [List.mem_cons, List.not_mem_nil, or_false] at hobject
    rcases hobject with rfl | rfl
    · exact around_complete
    · trivial
  have hagrees : Sender.sample.registry.Agrees [] := by
    intro id x y _ hy
    obtain ⟨stored, hl⟩ := Registry.exists_lookup_of_expansion hy
    cases hl
  exact parseFromBuffer_transfers .sample .sample _ { registry := [], requests := [] }
    (fun _ => List.cons_ne_nil _ _) rfl ⟨by decide, by decide⟩ rfl sample_correct hobjects
    (.inl (List.cons_ne_nil _ _)) (by
      intro object hobject
      simp only [List.mem_cons, List.not_mem_nil, or_false] at hobject
      rcases hobject with rfl | rfl
      · exact ⟨1, by decide, by decide⟩
      · exact ⟨1, by decide, by decide⟩) ⟨List.cons_ne_nil _ _, rfl⟩
    (fun id stored hl => by cases hl) hagrees rfl

end Delivery

end BeeRpc
