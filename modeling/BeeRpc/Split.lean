import BeeRpc.Swap

namespace BeeRpc

open Wire Effect

section Directory

variable {env : Enviroment}

theorem numbered_names (index : Nat) (contents : List Bytes) :
    (numbered index contents).map Prod.fst = List.range' index contents.length := by
  induction contents generalizing index with
  | nil => rfl
  | cons first contents ih => rw [numbered, List.map_cons, ih, List.length_cons, List.range'_succ]

theorem mem_numbered {index k : Nat} {contents : List Bytes} {content : Bytes}
    (h : (k, content) ∈ numbered index contents) : index ≤ k := by
  induction contents generalizing index with
  | nil => cases h
  | cons first contents ih =>
      rw [numbered, List.mem_cons] at h
      rcases h with h | h
      · exact (Prod.mk.inj h).1.ge
      · have hle := ih h
        omega

theorem lookup_numbered {index k : Nat} {contents : List Bytes} {content : Bytes}
    (h : (k, content) ∈ numbered index contents) :
    (numbered index contents).lookup k = some content := by
  induction contents generalizing index with
  | nil => cases h
  | cons first contents ih =>
      rw [numbered, List.mem_cons] at h
      rw [numbered, List.lookup_cons]
      rcases h with h | h
      · obtain ⟨rfl, rfl⟩ := Prod.mk.inj h
        rw [beq_self_eq_true]
      · have hle := mem_numbered h
        have hne : (k == index) = false := beq_false_of_ne (by omega)
        rw [hne]
        exact ih h

-- The parts of the written pieces, and their blocks, in turn.
theorem runs_weave {directory : Directory} (pieces : List (Piece (Bytes × List Nat)))
    (current : Bytes) (index : Nat)
    (hparts : ∀ k content, (k, content) ∈ numbered index
      ((Piece.cut current pieces).1 ++ [(Piece.cut current pieces).2]) →
      directory.part k = some content) :
    directory.runs (weave index ((pieces.filterMap Piece.hole?).map (entryOf env))) =
      some (Piece.alternate current (pieces.map (Piece.map fun hole => env.hashFactory hole.1))) := by
  induction pieces generalizing current index with
  | nil =>
      have hpart := hparts index current (List.mem_cons_self ..)
      exact runs_part_eq_some.mpr ⟨current, [], hpart, rfl, rfl⟩
  | cons piece pieces ih =>
      cases piece with
      | bytes b => exact ih (current ++ b) index hparts
      | hole hole =>
          rw [Piece.cut, List.cons_append, numbered] at hparts
          have hrest := ih [] (index + 1) fun k content h =>
            hparts k content (List.mem_cons_of_mem _ h)
          rw [Piece.filterMap_hole?_hole, List.map_cons, weave, List.map_cons, Piece.map,
            Piece.alternate]
          refine runs_part_eq_some.mpr ⟨current, _, hparts _ _ (List.mem_cons_self ..), ?_, rfl⟩
          exact runs_block_eq_some.mpr ⟨_, hrest, rfl⟩

-- With every payload stored under its digest the directory expands to what was written.
theorem expandWith_pieces {directory : Directory} {pieces : List (Piece (Bytes × List Nat))}
    (hjson : directory.json = weave 1 ((pieces.filterMap Piece.hole?).map (entryOf env)))
    (hparts : directory.parts =
      numbered 1 ((Piece.cut [] pieces).1 ++ [(Piece.cut [] pieces).2]))
    {sub : BlockId → Option Bytes}
    (hsub : ∀ hole ∈ pieces.filterMap Piece.hole?, sub (env.hashFactory hole.1) = some hole.1) :
    directory.expandWith sub = some (pieces.flatMap (Piece.render Prod.fst)) := by
  have hruns := @runs_weave env directory pieces [] 1 fun k content h => by
    rw [Directory.part, hparts]
    exact lookup_numbered h
  have hholes : ∀ hole, Piece.hole hole ∈ pieces → sub (env.hashFactory hole.1) = some hole.1 :=
    fun hole h => hsub hole (List.mem_filterMap.mpr ⟨_, h, rfl⟩)
  rw [Directory.expandWith, hjson,
    expandEntries_of_runs sub (fun id => (sub id).getD []) _ _ hruns ?_, Piece.alternate_render,
    List.nil_append, List.flatMap_map]
  · refine congrArg some (List.flatMap_congr fun piece hpiece => ?_)
    cases piece with
    | bytes b => rfl
    | hole hole =>
        show (sub (env.hashFactory hole.1)).getD [] = hole.1
        rw [hholes hole hpiece, Option.getD_some]
  · intro id hid
    obtain ⟨piece, hpiece, hmap⟩ := List.mem_map.mp ((Piece.mem_alternate _ _ _).mp hid)
    cases piece with
    | bytes b => cases hmap
    | hole hole =>
        obtain rfl := Piece.hole.inj hmap
        rw [hholes hole hpiece, Option.getD_some]

theorem directSize_congr {directory other : Directory} (h : directory.parts = other.parts)
    (entries : List JsonEntry) : directSize directory entries = directSize other entries := by
  induction entries with
  | nil => rfl
  | cons entry entries ih =>
      cases entry with
      | part index =>
          rw [directSize, directSize, ih, Directory.part, Directory.part, h]
      | block id positions => exact ih

end Directory

section Rewrite

variable {env : Enviroment} {faults : SplitStep → Option Err} {δ φ : Type}
  {types : Descriptors δ φ} {shouldSplit : φ → Nat → Bool}

-- What stands in the '.tmp-' directory before the swap, and in the registry.
structure Rewritten (env : Enviroment) (types : Descriptors δ φ) (shouldSplit : φ → Nat → Bool)
    (fields : Fields φ) (descriptor : δ) (inherited : Option (List Bytes)) (limit : Int)
    (registry : Registry) (s : Splitting) (directory : Directory) : Prop where
  encodes : fields.Encodes types (some descriptor)
  tmp : s.tmp = some directory
  registry : s.registry = registry.keepAll env ((fields.splits shouldSplit).map Prod.fst)
  json : directory.json = weave 1 ((fields.splits shouldSplit).map (entryOf env))
  parts : directory.parts =
    numbered 1 ((Piece.cut [] (fields.pieces shouldSplit 0 [])).1 ++
      [(Piece.cut [] (fields.pieces shouldSplit 0 [])).2])
  within : ∃ n, directSize directory directory.json = .ok n ∧ (n : Int) ≤ limit
  wbp : ∃ unfinished, unfinished.json = directory.json ∧ unfinished.parts = directory.parts ∧
    generateWbpFile env s.registry unfinished inherited = .ok directory

theorem ofExcept_ends {α : Type} (x : Except Err α) (s : Splitting) :
    Ends (SplitM.ofExcept x) s (fun a s' => x = .ok a ∧ s' = s) fun _ _ => True := by
  cases x with
  | ok a => exact ⟨rfl, rfl⟩
  | error e => exact trivial

-- The walk in the '.tmp-' directory, from its first part to its `_.json`.
theorem walkBlock_ends (stream : Yielded (Bytes ⊕ Block)) (descriptor : δ) (s : Splitting)
    (htmp : s.tmp = some { parts := [], json := [] }) :
    Ends (walkBlock env faults types shouldSplit stream descriptor) s
      (fun _ s' => ∃ (fields : Fields φ) (directory : Directory),
        fields.Encodes types (some descriptor) ∧ contentOf stream.items = fields.render ∧
          s'.reader.hashed = fields.render ∧ s'.tmp = some directory ∧
          s'.registry = s.registry.keepAll env ((fields.splits shouldSplit).map Prod.fst) ∧
          directory.json = s'.writer.entries ∧
          s'.writer.entries = weave 1 ((fields.splits shouldSplit).map (entryOf env)) ∧
          directory.parts = numbered 1 ((Piece.cut [] (fields.pieces shouldSplit 0 [])).1 ++
            [(Piece.cut [] (fields.pieces shouldSplit 0 [])).2]))
      fun _ _ => True := by
  unfold walkBlock SplitWriter.openPart
  simp only [ends_bind, ends_modify, ends_get]
  refine (attempt_ends _).mono (fun _ s₁ h => ?_) fun _ _ h => h
  subst h
  rw [ends_tryCatch]
  have hstart : Splitting.Writes env
      { s with
        reader := { chunks := stream }, writer := { entries := [.part 1] }
        tmp := s.tmp.map fun d => { d with parts := d.parts ++ [(1, [])] } } [] := by
    refine ⟨⟨{ parts := [(1, [])], json := [] }, ?_, rfl⟩, rfl, rfl⟩
    rw [htmp]
    rfl
  refine (walk_ends _ _ _ _ _).mono (fun _ s₂ h => ?_) fun _ s₂ _ => ?_
  · obtain ⟨⟨fields, hencodes, hsteps⟩, hends, -⟩ := h
    have hahead := hends rfl
    have hchunks : contentOf s₂.reader.chunks.items = [] := (List.append_eq_nil_iff.mp hahead).2
    have hcontent : contentOf stream.items = fields.render := by
      have h := hsteps.ahead
      rw [hahead, List.append_nil] at h
      exact h
    have hhashed : s₂.reader.hashed = contentOf stream.items := by
      have h := hsteps.whole
      rw [Splitting.whole, hchunks, List.append_nil] at h
      exact h
    obtain ⟨⟨directory, htmp₂, hparts⟩, hentries, -⟩ := hsteps.writes [] hstart
    unfold SplitWriter.close
    simp only [ends_bind, ends_modify]
    refine (attempt_ends _).mono (fun _ s₃ h => ?_) fun _ _ h => h
    subst h
    refine ⟨fields, { directory with json := s₃.writer.entries }, hencodes, hcontent,
      hhashed.trans hcontent, ?_, hsteps.registry, rfl, hentries, hparts⟩
    show s₃.tmp.map _ = _
    rw [htmp₂]
    rfl
  · rw [ends_bind]
    unfold SplitWriter.close
    simp only [ends_bind, ends_modify]
    exact (attempt_ends _).mono (fun _ _ _ => trivial) fun _ _ h => h

theorem finishSplit_ends (id : BlockId) (inherited : Option (List Bytes)) (limit : Int)
    (s : Splitting) {directory : Directory} (htmp : s.tmp = some directory)
    (hjson : directory.json = s.writer.entries) :
    Ends (finishSplit env faults id inherited limit) s
      (fun _ s' => env.hashFactory s.reader.hashed = id ∧
        (∃ n, directSize directory directory.json = .ok n ∧ (n : Int) ≤ limit) ∧
        ∃ finished, generateWbpFile env s.registry directory inherited = .ok finished ∧
          s' = { s with tmp := some finished })
      fun _ _ => True := by
  unfold finishSplit
  simp only [ends_bind, ends_get, htmp, Option.getD_some]
  by_cases hdigest : env.hashFactory s.reader.hashed = id
  · rw [if_neg (not_not.mpr hdigest)]
    simp only [ends_bind]
    refine (attempt_ends _).mono (fun _ s₁ h => ?_) fun _ _ h => h
    subst h
    refine (ofExcept_ends _ _).mono (fun n s₂ h => ?_) fun _ _ h => h
    obtain ⟨hsize, rfl⟩ := h
    by_cases hlimit : limit < n
    · rw [if_pos hlimit]
      exact trivial
    · rw [if_neg hlimit]
      simp only [ends_bind]
      refine (attempt_ends _).mono (fun _ s₃ h => ?_) fun _ _ h => h
      subst h
      refine (ofExcept_ends _ _).mono (fun finished s₄ h => ?_) fun _ _ h => h
      obtain ⟨hwbp, rfl⟩ := h
      exact ⟨hdigest, ⟨n, hjson ▸ hsize, Int.not_lt.mp hlimit⟩, finished, hwbp, rfl⟩
  · rw [if_pos hdigest]
    exact trivial

theorem generateWbpFile_same {registry : Registry} {directory finished : Directory}
    {inherited : Option (List Bytes)}
    (h : generateWbpFile env registry directory inherited = .ok finished) :
    finished.json = directory.json ∧ finished.parts = directory.parts := by
  obtain ⟨wbp, -, hfinished⟩ := bind_eq_ok.mp h
  obtain rfl := Except.ok.inj hfinished
  exact ⟨rfl, rfl⟩

-- Up to the swap.
theorem rewrite_ends (stream : Yielded (Bytes ⊕ Block)) (id : BlockId) (descriptor : δ)
    (inherited : Option (List Bytes)) (limit : Int) (s : Splitting)
    (htmp : s.tmp = some { parts := [], json := [] }) :
    Ends (walkBlock env faults types shouldSplit stream descriptor >>= fun _ =>
      finishSplit env faults id inherited limit) s
      (fun _ s' => ∃ (fields : Fields φ) (directory : Directory),
        contentOf stream.items = fields.render ∧ env.hashFactory fields.render = id ∧
          Rewritten env types shouldSplit fields descriptor inherited limit s.registry s' directory)
      fun _ _ => True := by
  refine (walkBlock_ends stream descriptor s htmp).bind fun _ s₁ h => ?_
  obtain ⟨fields, directory, hencodes, hcontent, hhashed, htmp₁, hregistry, hjson, hentries, hparts⟩ := h
  refine (finishSplit_ends id inherited limit s₁ htmp₁ hjson).mono (fun _ s₂ h => ?_) fun _ _ h => h
  obtain ⟨hid, ⟨n, hsize, hlimit⟩, finished, hwbp, rfl⟩ := h
  obtain ⟨hsameJson, hsameParts⟩ := generateWbpFile_same hwbp
  rw [hhashed] at hid
  refine ⟨fields, finished, hcontent, hid, hencodes, rfl, hregistry, ?_, ?_, ⟨n, ?_, hlimit⟩,
    directory, hsameJson.symm, hsameParts.symm, hwbp⟩
  · rw [hsameJson, hjson, hentries]
  · rw [hsameParts, hparts]
  · rw [hsameJson, directSize_congr hsameParts, hsize]

end Rewrite

section Swap

variable {faults : SplitStep → Option Err}

-- Where the renames leave the block.
theorem swapBlock_ends (id : BlockId) (s : Splitting) {directory : Directory} {old : Stored}
    (htmp : s.tmp = some directory) (hold : s.registry.lookup id = some old) :
    Ends (swapBlock faults id) s
      (fun _ s' => s'.registry = (s.registry.remove id).store id (.dir directory) ∧ s'.tmp = none ∧
        faults .install = none)
      (fun _ s' => (faults .retire ≠ none ∧ s' = s) ∨
        (faults .retire = none ∧ faults .install ≠ none ∧ s'.registry = s.registry.remove id) ∨
        (faults .install = none ∧ s'.tmp = none ∧ faults .discard ≠ none ∧
          s'.registry = (s.registry.remove id).store id (.dir directory))) := by
  have hgetD : s.tmp.getD { parts := [], json := [] } = directory := by rw [htmp, Option.getD_some]
  unfold swapBlock attempt
  cases hretire : faults .retire with
  | some e => exact Or.inl ⟨Option.some_ne_none e, rfl⟩
  | none =>
      simp only [ends_bind, ends_pure, ends_get, hold, ends_modify]
      cases hinstall : faults .install with
      | some e => exact Or.inr (Or.inl ⟨trivial, Option.some_ne_none e, rfl⟩)
      | none =>
          simp only [ends_pure, hgetD]
          cases hdiscard : faults .discard with
          | some e => exact Or.inr (Or.inr ⟨trivial, rfl, Option.some_ne_none e, rfl⟩)
          | none => exact ⟨rfl, rfl, trivial⟩

end Swap

section Result

variable {env : Enviroment} {δ φ : Type} {types : Descriptors δ φ} {shouldSplit : φ → Nat → Bool}
  {registry : Registry} {id : BlockId} {fields : Fields φ} {descriptor : δ}
  {inherited : Option (List Bytes)} {limit : Int}

-- The registry behind the swap.
def swapped (s : Splitting) (id : BlockId) (directory : Directory) : Registry :=
  (s.registry.remove id).store id (.dir directory)

-- The payloads are kept under their digests.
theorem rewritten_payloads (haddressed : registry.ContentAddressed env)
    (hinjective : Set.InjOn env.hashFactory (registry.involved fields.render))
    {s : Splitting} {directory : Directory}
    (h : Rewritten env types shouldSplit fields descriptor inherited limit registry s directory) :
    ∀ split ∈ fields.splits shouldSplit,
      s.registry.expansion (env.hashFactory split.1) = some split.1 := by
  intro split hsplit
  rw [h.registry]
  refine (keepAll_spec haddressed hinjective _ ?_).2 split.1 (List.mem_map_of_mem hsplit)
  intro bytes hbytes
  obtain ⟨other, hother, rfl⟩ := List.mem_map.mp hbytes
  exact (fields.holes_infix shouldSplit 0 [] h.encodes other hother).1

-- Every block expands to what it did, the payloads among them.
theorem swapped_expansion (haddressed : registry.ContentAddressed env)
    (hcontent : registry.expansion id = some fields.render)
    (hinjective : Set.InjOn env.hashFactory (registry.involved fields.render))
    {s : Splitting} {directory : Directory}
    (h : Rewritten env types shouldSplit fields descriptor inherited limit registry s directory) :
    (∀ other bytes, registry.expansion other = some bytes →
      (swapped s id directory).expansion other = some bytes) ∧
    ∀ split ∈ fields.splits shouldSplit,
      (swapped s id directory).expansion (env.hashFactory split.1) = some split.1 := by
  have hholes := fields.holes_infix shouldSplit 0 [] h.encodes
  have hgrows : registry.Grows s.registry := by
    rw [h.registry]
    exact keepAll_grows registry _
  have hpayloads := rewritten_payloads haddressed hinjective h
  have hreplace := @expansion_replace s.registry (swapped s id directory) id directory fields.render
    (hgrows.expansion hcontent)
    (fun other hne => by
      rw [swapped, Registry.lookup_store_ne _ _ hne, Registry.lookup_remove_ne _ hne])
    (Registry.lookup_store_self ..) fun sub hsub => by
      rw [← fields.pieces_render shouldSplit 0 []]
      refine expandWith_pieces h.json h.parts fun hole hhole => ?_
      exact hsub _ hole.1 (hpayloads hole hhole) (hholes hole hhole).2
  exact ⟨fun other bytes hbytes => hreplace other bytes (hgrows.expansion hbytes),
    fun split hsplit => hreplace _ split.1 (hpayloads split hsplit)⟩

theorem exists_lookup_of_size {size : Nat} (h : directContentSize registry id = .ok size) :
    ∃ stored, registry.lookup id = some stored := by
  rw [directContentSize] at h
  cases hl : registry.lookup id with
  | none =>
      rw [hl] at h
      cases h
  | some stored => exact ⟨stored, rfl⟩

-- What split_block comes to where it raises nothing.
theorem splitBlockFrom_ends {faults : SplitStep → Option Err} (stream : Yielded (Bytes ⊕ Block)) :
    Ends (splitBlockFrom env faults types shouldSplit stream id descriptor inherited limit)
      { registry := registry }
      (fun result w => (result = false ∧ w = { registry := registry }) ∨
        (result = true ∧ ∃ (fields : Fields φ) (s : Splitting) (directory : Directory),
          contentOf stream.items = fields.render ∧ env.hashFactory fields.render = id ∧
            Rewritten env types shouldSplit fields descriptor inherited limit registry s directory ∧
            w.registry = swapped s id directory))
      fun _ _ => True := by
  unfold splitBlockFrom
  simp only [ends_bind, ends_get]
  refine (attempt_ends _).mono (fun _ s₀ h => ?_) fun _ _ h => h
  subst h
  refine (ofExcept_ends _ _).mono (fun size s₁ h => ?_) fun _ _ h => h
  obtain ⟨hsize, rfl⟩ := h
  by_cases hlimit : (size : Int) ≤ limit
  · rw [if_pos hlimit]
    exact Or.inl ⟨rfl, rfl⟩
  · rw [if_neg hlimit]
    simp only [ends_bind, ends_modify]
    refine (attempt_ends _).mono (fun _ s₂ h => ?_) fun _ _ h => h
    subst h
    rw [ends_tryCatch]
    have hrewrite := @rewrite_ends env faults δ φ types shouldSplit stream id descriptor inherited
      limit { registry := registry, tmp := some { parts := [], json := [] } } rfl
    rw [ends_bind] at hrewrite
    rw [ends_bind]
    refine hrewrite.mono (fun _ s₃ h => ?_) fun _ _ _ => trivial
    rw [ends_bind]
    refine h.mono (fun _ s₄ h => ?_) fun _ _ _ => trivial
    obtain ⟨fields, directory, hcontent, hid, hrewritten⟩ := h
    obtain ⟨stored, hstored⟩ := exists_lookup_of_size hsize
    have hold : s₄.registry.lookup id = some stored := by
      rw [hrewritten.registry]
      exact keepAll_grows registry _ id stored hstored
    rw [ends_bind]
    refine (swapBlock_ends id s₄ hrewritten.tmp hold).mono (fun _ s₅ h => ?_) fun _ _ _ => trivial
    exact Or.inr ⟨rfl, fields, s₄, directory, hcontent, hid, hrewritten, h.1⟩

end Result

-- A block that is split is made of the same bytes: its `_.json` has the parts that are left and
-- every content that the policy takes out, under its digest and with the positions of the lengths
-- around it. It is within the limit from then on, and a block that was within it is left alone.
theorem splitBlock_preserves (env : Enviroment) (faults : SplitStep → Option Err) {δ φ : Type}
    (types : Descriptors δ φ) (shouldSplit : φ → Nat → Bool) (registry : Registry) (id : BlockId)
    (descriptor : δ) (inherited : Option (List Bytes)) (limit : Int) (fields : Fields φ)
    (stream : Yielded (Bytes ⊕ Block))
    (haddressed : registry.ContentAddressed env)
    (hcontent : registry.expansion id = some fields.render)
    (hencodes : fields.Encodes types (some descriptor))
    (hinjective : Set.InjOn env.hashFactory (registry.involved fields.render))
    (hstream : contentOf stream.items = fields.render) (result : Bool) (w : Splitting)
    (hresult : splitBlockFrom env faults types shouldSplit stream id descriptor inherited limit
      { registry := registry } = .ok result w) :
    (result = false → w = { registry := registry }) ∧
    (result = true →
      w.registry.expansion id = some fields.render ∧
      (∃ directory, w.registry.lookup id = some (.dir directory) ∧
        directory.json = weave 1 ((fields.splits shouldSplit).map (entryOf env)) ∧
        directory.parts.map Prod.fst = List.range' 1 ((fields.splits shouldSplit).length + 1)) ∧
      (∀ split ∈ fields.splits shouldSplit,
        w.registry.expansion (env.hashFactory split.1) = some split.1) ∧
      (∃ size, directContentSize w.registry id = .ok size ∧ (size : Int) ≤ limit) ∧
      ∀ (again : φ → Nat → Bool) (failing : SplitStep → Option Err) stream',
        failing .measure = none →
        splitBlockFrom env failing types again stream' id descriptor inherited limit
          { registry := w.registry } = .ok false { registry := w.registry }) := by
  have hends := (@splitBlockFrom_ends env δ φ types shouldSplit registry id descriptor inherited limit
    faults stream).of_ok hresult
  rcases hends with ⟨rfl, rfl⟩ | ⟨rfl, fields', s, directory, hread, hid, hrewritten, hw⟩
  · exact ⟨fun _ => rfl, (fun h => by cases h)⟩
  · refine ⟨(fun h => by cases h), fun _ => ?_⟩
    obtain rfl := Fields.encodes_unique hrewritten.encodes hencodes (hread.symm.trans hstream)
    obtain ⟨hkept, hpayloads⟩ := swapped_expansion haddressed hcontent hinjective hrewritten
    have hlookup : w.registry.lookup id = some (.dir directory) := by
      rw [hw]
      exact Registry.lookup_store_self ..
    obtain ⟨size, hsize, hlimit⟩ := hrewritten.within
    have hdirect : directContentSize w.registry id = .ok size := by
      rw [directContentSize, hlookup]
      exact hsize
    refine ⟨?_, ⟨directory, hlookup, hrewritten.json, ?_⟩, ?_, ⟨size, hdirect, hlimit⟩, ?_⟩
    · rw [hw]
      exact hkept id _ hcontent
    · rw [hrewritten.parts, numbered_names, List.length_append, Piece.cut_length]
      rfl
    · rw [hw]
      exact hpayloads
    · intro again failing stream' hmeasure
      have hpasses : attempt failing .measure { registry := w.registry } =
          .ok () { registry := w.registry } := by
        rw [attempt, hmeasure]
        rfl
      rw [splitBlockFrom, bind_of_ok hpasses, bind_of_ok (m := get) rfl, hdirect]
      show (if (size : Int) ≤ limit then _ else _ : SplitM Bool) _ = _
      rw [if_pos hlimit]
      rfl

def Registry.flat : Registry := [(1 :: Fields.sample.render, .file Fields.sample.render)]

-- What is left of it, and the payload.
def Registry.split : Registry :=
  [(1 :: Fields.sample.render, .dir {
      parts := [(1, [10, 5, 18, 3]), (2, [24, 5])]
      json := [.part 1, .block [1, 7, 8, 9] [1, 3], .part 2]
      wbp := some [10, 13, 18, 11, 10, 9, 10, 1, 1, 18, 4, 1, 7, 8, 9, 24, 5] }),
    ([1, 7, 8, 9], .file [7, 8, 9])]

theorem flat_contentAddressed : Registry.flat.ContentAddressed .sample := by
  intro id stored h
  rw [Registry.flat, List.lookup_cons] at h
  split at h
  · rename_i hid
    obtain rfl := eq_of_beq hid
    exact ⟨Fields.sample.render, by decide, rfl⟩
  · cases h

theorem sample_injective (contents : Set Bytes) :
    Set.InjOn Enviroment.sample.hashFactory contents :=
  fun _ _ _ _ h => (List.cons.inj h).2

theorem splitBlock_preserves_sample :
    let fields : Fields Bool := .sample
    let shouldSplit : Bool → Nat → Bool := fun _ length => decide (3 ≤ length)
    let id : BlockId := 1 :: fields.render
    let w : Splitting :=
      { registry := .split
        reader :=
          { chunks := .pure [], hashed := fields.render, buffer := fields.render, offset := 9, position := 9 }
        writer := { entries := [.part 1, .block [1, 7, 8, 9] [1, 3], .part 2], blocks := 1 } }
    ((true = false → w = { registry := .flat }) ∧
    (true = true →
      w.registry.expansion id = some fields.render ∧
      (∃ directory, w.registry.lookup id = some (.dir directory) ∧
        directory.json = weave 1 ((fields.splits shouldSplit).map (entryOf .sample)) ∧
        directory.parts.map Prod.fst = List.range' 1 ((fields.splits shouldSplit).length + 1)) ∧
      (∀ split ∈ fields.splits shouldSplit,
        w.registry.expansion (Enviroment.sample.hashFactory split.1) = some split.1) ∧
      (∃ size, directContentSize w.registry id = .ok size ∧ (size : Int) ≤ 8) ∧
      ∀ (again : Bool → Nat → Bool) (failing : SplitStep → Option Err) stream',
        failing .measure = none →
        splitBlockFrom .sample failing .sample again stream' id () none 8
          { registry := w.registry } = .ok false { registry := w.registry })) := by
  exact splitBlock_preserves .sample (fun _ => none) .sample (fun _ length => decide (3 ≤ length))
    .flat (1 :: Fields.sample.render) () none 8 .sample
    (readBlock .sample .flat (1 :: Fields.sample.render)) flat_contentAddressed (by decide)
    Fields.sample_encodes (sample_injective _) (by decide) true _ (by decide +kernel)

end BeeRpc
