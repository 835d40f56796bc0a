import BeeRpc.Effect.Stays
import BeeRpc.Split

namespace BeeRpc

open Wire Effect

-- Blocks are added, and none is changed.
def Adds (s s' : Splitting) : Prop := s.registry.Grows s'.registry

instance : IsPreorder Splitting Adds where
  refl s := .refl s.registry
  trans _ _ _ h h' := h.trans h'

theorem adds_modify {f : Splitting → Splitting} (h : ∀ s, (f s).registry = s.registry) :
    Stays Adds (modify f : SplitM Unit) :=
  Stays.modifyGet fun s => by
    show s.registry.Grows (f s).registry
    rw [h]
    exact .refl s.registry

section Reader

theorem fillLoop_adds (raised : Option Err) (items : List (Bytes ⊕ Block)) :
    Stays Adds (SplitM.fillLoop raised items) := by
  induction items with
  | nil =>
      unfold SplitM.fillLoop
      refine Stays.bind (adds_modify fun _ => rfl) fun _ => ?_
      cases raised with
      | some e => exact .throw e
      | none => exact .pure false
  | cons item rest ih =>
      cases item with
      | inr block => exact ih
      | inl chunk =>
          unfold SplitM.fillLoop
          split
          · exact ih
          · exact Stays.bind (adds_modify fun _ => rfl) fun _ => .pure true

theorem atEnd_adds : Stays Adds SplitM.atEnd := by
  refine Stays.get.bind fun s => ?_
  split
  · exact .pure false
  · refine .bind ?_ fun filled => .pure (!filled)
    exact Stays.get.bind fun s => fillLoop_adds _ _

theorem takeSlice_adds (n : Nat) : Stays Adds (SplitM.takeSlice n) :=
  Stays.modifyGet fun s => .refl s.registry

theorem readLoop_adds (n fuel : Nat) (out : Bytes) : Stays Adds (SplitM.readLoop n fuel out) := by
  induction fuel generalizing out with
  | zero => exact .throw _
  | succ fuel ih =>
      unfold SplitM.readLoop
      split
      · refine atEnd_adds.bind fun ended => ?_
        cases ended with
        | true => exact Stays.bind (.throw _) fun _ => (takeSlice_adds _).bind fun take => ih _
        | false => exact (takeSlice_adds _).bind fun take => ih _
      · exact .pure out

theorem read_adds (n : Nat) : Stays Adds (SplitM.read n) := by
  refine (readLoop_adds n (n + 1) []).bind fun out => ?_
  exact Stays.bind (adds_modify fun _ => rfl) fun _ => .pure out

theorem copy_adds {write : Bytes → SplitM Unit} (hwrite : ∀ data, Stays Adds (write data))
    (n : Nat) : Stays Adds (SplitM.copy n write) := by
  have hloop : ∀ fuel n, Stays Adds (SplitM.copyLoop write fuel n) := by
    intro fuel
    induction fuel with
    | zero => exact fun n => .throw _
    | succ fuel ih =>
        intro n
        have hround : Stays Adds (do
            let take ← SplitM.takeSlice (min n CHUNK_SIZE)
            SplitM.setReader fun r => { r with position := r.position + take.length }
            write take
            SplitM.copyLoop write fuel (n - take.length)) := by
          refine (takeSlice_adds _).bind fun take => ?_
          refine Stays.bind (adds_modify fun _ => rfl) fun _ => ?_
          exact (hwrite take).bind fun _ => ih _
        unfold SplitM.copyLoop
        split
        · exact .pure ()
        · refine atEnd_adds.bind fun ended => ?_
          cases ended with
          | true => exact Stays.bind (.throw _) fun _ => hround
          | false => exact hround
  exact hloop (n + 1) n

theorem varint_adds : Stays Adds SplitM.varint := by
  have hloop : ∀ left raw value shift, Stays Adds (SplitM.varintLoop left raw value shift) := by
    intro left
    induction left with
    | zero => exact fun _ _ _ => .throw _
    | succ left ih =>
        intro raw value shift
        refine (read_adds 1).bind fun out => ?_
        dsimp only
        split
        · exact .pure _
        · exact ih _ _ _
  exact hloop 10 [] 0 0

end Reader

section Writer

variable {env : Enviroment} {faults : SplitStep → Option Err} {δ φ : Type}
  {types : Descriptors δ φ} {shouldSplit : φ → Nat → Bool}

theorem attempt_adds (step : SplitStep) : Stays Adds (attempt faults step) := by
  unfold attempt
  split
  · exact .throw _
  · exact .pure ()

theorem write_adds (data : Bytes) : Stays Adds (SplitWriter.write faults data) := by
  refine Stays.get.bind fun s => ?_
  exact (attempt_adds _).bind fun _ => adds_modify fun _ => rfl

theorem openPart_adds : Stays Adds (SplitWriter.openPart faults) := by
  refine Stays.get.bind fun s => ?_
  dsimp only
  refine Stays.bind (adds_modify fun _ => rfl) fun _ => ?_
  exact (attempt_adds _).bind fun _ => adds_modify fun _ => rfl

theorem close_adds : Stays Adds (SplitWriter.close faults) :=
  (attempt_adds _).bind fun _ => adds_modify fun _ => rfl

theorem writePayload_adds (data : Bytes) : Stays Adds (writePayload faults data) := by
  refine Stays.get.bind fun s => ?_
  exact (attempt_adds _).bind fun _ => adds_modify fun _ => rfl

-- A payload is stored where nothing is stored under its name.
theorem storePayload_adds (length : Nat) : Stays Adds (storePayload env faults length) := by
  refine Stays.tryCatch ?_ fun e => Stays.bind (adds_modify fun _ => rfl) fun _ => Stays.throw e
  refine Stays.get.bind fun s₀ => ?_
  generalize s₀.reader.position = position
  refine (attempt_adds _).bind fun _ => ?_
  refine Stays.bind (adds_modify fun _ => rfl) fun _ => ?_
  refine (copy_adds writePayload_adds length).bind fun _ => ?_
  intro s
  simp only [ends_bind, ends_get]
  by_cases hexists : s.registry.blockExists (env.hashFactory (s.payload.getD [])) = true
  · rw [if_pos hexists]
    have hadds : Stays Adds (do
        attempt faults (.removePayload position)
        modify fun s => { s with payload := none }
        pure (env.hashFactory (s.payload.getD []))) := by
      refine (attempt_adds _).bind fun _ => ?_
      exact Stays.bind (adds_modify fun _ => rfl) fun _ => .pure _
    exact hadds s
  · rw [if_neg hexists]
    have hnew := Registry.blockExists_eq_false.mp (Bool.eq_false_of_not_eq_true hexists)
    unfold attempt
    cases faults (.publishPayload position) with
    | some e => exact .refl s.registry
    | none => exact Registry.Grows.store _ hnew

theorem walkDelimited_adds {inner : δ → Nat → List Nat → SplitM Unit}
    (hinner : ∀ message last chain, Stays Adds (inner message last chain)) (descriptor : Option δ)
    (number : Nat) (chain : List Nat) :
    Stays Adds (walkDelimited env faults types shouldSplit inner descriptor number chain) := by
  have hcopy : ∀ length, Stays Adds (SplitM.copy length (SplitWriter.write faults)) :=
    fun length => copy_adds write_adds length
  refine Stays.get.bind fun s => ?_
  refine varint_adds.bind fun result => ?_
  refine (write_adds _).bind fun _ => ?_
  split
  · exact hcopy _
  · split
    · exact Stays.get.bind fun s => hinner _ _ _
    · refine Stays.get.bind fun s => ?_
      refine (attempt_adds _).bind fun _ => ?_
      split
      · refine (storePayload_adds _).bind fun id => ?_
        exact Stays.bind (adds_modify fun _ => rfl) fun _ => openPart_adds
      · exact hcopy _

theorem walkField_adds {inner : δ → Nat → List Nat → SplitM Unit}
    (hinner : ∀ message last chain, Stays Adds (inner message last chain)) (descriptor : Option δ)
    (chain : List Nat) :
    Stays Adds (walkField env faults types shouldSplit inner descriptor chain) := by
  refine varint_adds.bind fun result => ?_
  refine (write_adds _).bind fun _ => ?_
  dsimp only
  split
  · exact varint_adds.bind fun value => write_adds _
  · split
    · exact (read_adds 8).bind fun raw => write_adds _
    · split
      · exact (read_adds 4).bind fun raw => write_adds _
      · split
        · exact walkDelimited_adds hinner _ _ _
        · exact .throw _

theorem walk_adds (fuel : Nat) (descriptor : Option δ) (stop : Option Nat) (chain : List Nat) :
    Stays Adds (walk env faults types shouldSplit fuel descriptor stop chain) := by
  induction fuel generalizing descriptor stop chain with
  | zero => exact .throw _
  | succ fuel ih =>
      unfold walk
      refine .bind ?_ fun goesOn => ?_
      · unfold walkGoesOn
        split
        · exact Stays.get.bind fun s => .pure _
        · exact atEnd_adds.bind fun ended => .pure _
      · split
        · exact (walkField_adds (fun _ _ _ => ih _ _ _) _ _).bind fun _ => ih _ _ _
        · split
          · exact .pure ()
          · refine Stays.get.bind fun s => ?_
            split
            · exact .throw _
            · exact .pure ()

-- Whichever way it ends, up to the swap nothing that was stored is lost.
theorem rewrite_adds (stream : Yielded (Bytes ⊕ Block)) (id : BlockId) (descriptor : δ)
    (inherited : Option (List Bytes)) (limit : Int) :
    Stays Adds (walkBlock env faults types shouldSplit stream descriptor >>= fun _ =>
      finishSplit env faults id inherited limit) := by
  have hexcept : ∀ {α : Type} (x : Except Err α), Stays Adds (SplitM.ofExcept x) := by
    intro α x
    cases x with
    | ok a => exact .pure a
    | error e => exact .throw e
  refine .bind ?_ fun _ => ?_
  · refine Stays.bind (adds_modify fun _ => rfl) fun _ => ?_
    refine openPart_adds.bind fun _ => ?_
    refine .bind (.tryCatch (walk_adds _ _ _ _) fun e => ?_) fun _ => close_adds
    exact close_adds.bind fun _ => .throw e
  · refine Stays.get.bind fun s => ?_
    dsimp only
    split
    · exact .throw _
    · refine (attempt_adds _).bind fun _ => (hexcept _).bind fun remaining => ?_
      split
      · exact .throw _
      · refine (attempt_adds _).bind fun _ => (hexcept _).bind fun finished => ?_
        exact adds_modify fun _ => rfl

end Writer

section Failure

variable {env : Enviroment} {faults : SplitStep → Option Err} {δ φ : Type}
  {types : Descriptors δ φ} {shouldSplit : φ → Nat → Bool} {stream : Yielded (Bytes ⊕ Block)}
  {registry : Registry} {id : BlockId} {descriptor : δ} {inherited : Option (List Bytes)} {limit : Int}

-- All steps up to the first rename are taken without an exception, and that one too.
def ComesToInstall (env : Enviroment) (faults : SplitStep → Option Err) (types : Descriptors δ φ)
    (shouldSplit : φ → Nat → Bool) (stream : Yielded (Bytes ⊕ Block)) (registry : Registry)
    (id : BlockId) (descriptor : δ) (inherited : Option (List Bytes)) (limit : Int) : Prop :=
  faults .measure = none ∧
    (∃ size, directContentSize registry id = .ok size ∧ limit < size) ∧ faults .makedirs = none ∧
    (∃ s, (walkBlock env faults types shouldSplit stream descriptor >>= fun _ =>
      finishSplit env faults id inherited limit)
        { registry := registry, tmp := some { parts := [], json := [] } } = .ok () s) ∧
    faults .retire = none

theorem attempt_of_none {step : SplitStep} (h : faults step = none) (s : Splitting) :
    attempt faults step s = .ok () s := by
  rw [attempt, h]
  rfl

theorem attempt_of_some {step : SplitStep} {e : Err} (h : faults step = some e) (s : Splitting) :
    attempt faults step s = .error e s := by
  rw [attempt, h]
  rfl

-- A step that fails leaves everything as it is.
theorem attempt_tells (step : SplitStep) (s : Splitting) :
    Ends (attempt faults step) s (fun _ s' => faults step = none ∧ s' = s)
      fun _ s' => faults step ≠ none ∧ s' = s := by
  unfold attempt
  cases faults step with
  | none => exact ⟨rfl, rfl⟩
  | some e => exact ⟨Option.some_ne_none e, rfl⟩

theorem ofExcept_tells {α : Type} (x : Except Err α) (s : Splitting) :
    Ends (SplitM.ofExcept x) s (fun a s' => x = .ok a ∧ s' = s) fun _ s' => s' = s := by
  cases x with
  | ok a => exact ⟨rfl, rfl⟩
  | error e => exact rfl

-- What an exception leaves behind.
theorem splitBlockFrom_raises :
    Ends (splitBlockFrom env faults types shouldSplit stream id descriptor inherited limit)
      { registry := registry } (fun _ _ => True)
      (fun _ w => w.tmp = none ∧ (registry.Grows w.registry ∨
        (ComesToInstall env faults types shouldSplit stream registry id descriptor inherited limit ∧
          faults .install ≠ none) ∨
        (faults .discard ≠ none ∧ ∃ (fields : Fields φ) (s : Splitting) (directory : Directory),
          contentOf stream.items = fields.render ∧ env.hashFactory fields.render = id ∧
            Rewritten env types shouldSplit fields descriptor inherited limit registry s directory ∧
            w.registry = swapped s id directory))) := by
  have hsame : registry.Grows registry := .refl registry
  unfold splitBlockFrom
  simp only [ends_bind, ends_get]
  refine (attempt_tells _ _).mono (fun _ s₀ h => ?_) fun _ s₀ h => ?_
  · obtain ⟨hmeasure, rfl⟩ := h
    refine (ofExcept_tells _ _).mono (fun size s₁ h => ?_) fun _ s₁ h => ?_
    · obtain ⟨hsize, rfl⟩ := h
      by_cases hlimit : (size : Int) ≤ limit
      · rw [if_pos hlimit]
        exact trivial
      · rw [if_neg hlimit]
        simp only [ends_bind, ends_modify]
        refine (attempt_tells _ _).mono (fun _ s₂ h => ?_) fun _ s₂ h => ?_
        · obtain ⟨hmakedirs, rfl⟩ := h
          rw [ends_tryCatch, ← bind_assoc, ends_bind]
          have hrewrite := @rewrite_ends env faults δ φ types shouldSplit stream id descriptor
            inherited limit { registry := registry, tmp := some { parts := [], json := [] } } rfl
          have hadds := @rewrite_adds env faults δ φ types shouldSplit stream id descriptor inherited
            limit { registry := registry, tmp := some { parts := [], json := [] } }
          cases hrun : (walkBlock env faults types shouldSplit stream descriptor >>= fun _ =>
              finishSplit env faults id inherited limit)
              { registry := registry, tmp := some { parts := [], json := [] } } with
          | error e s₃ =>
              have hgrows : registry.Grows s₃.registry := hadds.of_error hrun
              exact ends_of_error hrun ⟨rfl, Or.inl hgrows⟩
          | ok done s₃ =>
              obtain ⟨fields, directory, hcontent, hid, hrewritten⟩ := hrewrite.of_ok hrun
              have hgrows : registry.Grows s₃.registry := hadds.of_ok hrun
              obtain ⟨stored, hstored⟩ := exists_lookup_of_size hsize
              refine ends_of_ok hrun ?_
              rw [ends_bind]
              refine (swapBlock_ends id s₃ hrewritten.tmp (hgrows id stored hstored)).mono
                (fun _ _ _ => trivial) fun e s₄ h => ?_
              rcases h with ⟨-, rfl⟩ | ⟨hretire, hinstall, -⟩ | ⟨-, -, hdiscard, hregistry⟩
              · exact ⟨rfl, Or.inl hgrows⟩
              · refine ⟨rfl, Or.inr (Or.inl ⟨⟨hmeasure, ⟨size, hsize, Int.not_le.mp hlimit⟩,
                  hmakedirs, ⟨s₃, hrun⟩, hretire⟩, hinstall⟩)⟩
              · exact ⟨rfl, Or.inr (Or.inr ⟨hdiscard, fields, s₃, directory, hcontent, hid, hrewritten,
                  hregistry⟩)⟩
        · obtain ⟨-, rfl⟩ := h
          exact ⟨rfl, Or.inl hsame⟩
    · subst h
      exact ⟨rfl, Or.inl hsame⟩
  · obtain ⟨-, rfl⟩ := h
    exact ⟨rfl, Or.inl hsame⟩

-- Between the renames the block has no entry, and an exception there leaves none.
theorem splitBlockFrom_loses (hstored : ∃ content, registry.expansion id = some content)
    (hcomes : ComesToInstall env faults types shouldSplit stream registry id descriptor inherited limit)
    (hinstall : faults .install ≠ none) :
    ∃ e w, splitBlockFrom env faults types shouldSplit stream id descriptor inherited limit
      { registry := registry } = .error e w ∧ w.registry.lookup id = none := by
  obtain ⟨hmeasure, ⟨size, hsize, hlimit⟩, hmakedirs, ⟨s, hrun⟩, hretire⟩ := hcomes
  obtain ⟨e, hfails⟩ := Option.ne_none_iff_exists'.mp hinstall
  have hadds := @rewrite_adds env faults δ φ types shouldSplit stream id descriptor inherited limit
    { registry := registry, tmp := some { parts := [], json := [] } }
  have hgrows : registry.Grows s.registry := hadds.of_ok hrun
  obtain ⟨content, hcontent⟩ := hstored
  obtain ⟨stored, hlookup⟩ := Registry.exists_lookup_of_expansion hcontent
  have hold := hgrows id stored hlookup
  have hswap : swapBlock faults id s =
      .error e { s with registry := s.registry.remove id, old := some stored } := by
    rw [swapBlock, bind_of_ok (attempt_of_none hretire s), bind_of_ok (m := get) rfl, hold]
    simp only
    rw [bind_of_ok (m := modify _) rfl]
    exact bind_of_error (attempt_of_some hfails _)
  refine ⟨e, { s with registry := s.registry.remove id, old := some stored, tmp := none }, ?_,
    Registry.lookup_remove_self ..⟩
  have hover : ¬ (size : Int) ≤ limit := Int.not_le.mpr hlimit
  rw [splitBlockFrom, bind_of_ok (attempt_of_none hmeasure _), bind_of_ok (m := get) rfl, hsize,
    bind_of_ok (m := SplitM.ofExcept _) rfl, if_neg hover, bind_of_ok (attempt_of_none hmakedirs _),
    bind_of_ok (m := modify _) rfl]
  have hraises : (do
      walkBlock env faults types shouldSplit stream descriptor
      finishSplit env faults id inherited limit
      swapBlock faults id
      return true)
      ({ registry := registry, tmp := some { parts := [], json := [] } } : Splitting) =
      .error e { s with registry := s.registry.remove id, old := some stored } := by
    rw [← bind_assoc, bind_of_ok hrun]
    exact bind_of_error hswap
  exact tryCatch_of_error hraises

end Failure

-- An exception leaves the block and no '.tmp-' directory exactly if the second rename does not fail
-- where split_block comes to it.
theorem splitBlock_resilient_iff (env : Enviroment) (faults : SplitStep → Option Err) {δ φ : Type}
    (types : Descriptors δ φ) (shouldSplit : φ → Nat → Bool) (registry : Registry) (id : BlockId)
    (descriptor : δ) (inherited : Option (List Bytes)) (limit : Int) (content : Bytes)
    (stream : Yielded (Bytes ⊕ Block)) (hcontent : registry.expansion id = some content)
    (hstream : contentOf stream.items <+: content)
    (hdiscard : faults .discard = none ∨ (registry.ContentAddressed env ∧
      Set.InjOn env.hashFactory (registry.involved content))) :
    (∀ e w, splitBlockFrom env faults types shouldSplit stream id descriptor inherited limit
        { registry := registry } = .error e w →
      w.registry.expansion id = some content ∧ w.tmp = none) ↔
      (faults .install = none ∨ ¬ ComesToInstall env faults types shouldSplit stream registry id
        descriptor inherited limit) := by
  constructor
  · intro h
    by_contra hnot
    rw [not_or, not_not] at hnot
    obtain ⟨hinstall, hcomes⟩ := hnot
    obtain ⟨e, w, hrun, hlost⟩ := splitBlockFrom_loses ⟨content, hcontent⟩ hcomes hinstall
    obtain ⟨stored, hstored⟩ := Registry.exists_lookup_of_expansion (h e w hrun).1
    rw [hlost] at hstored
    cases hstored
  · intro h e w hrun
    obtain ⟨htmp, hleft⟩ := (@splitBlockFrom_raises env faults δ φ types shouldSplit stream registry id
      descriptor inherited limit).of_error hrun
    refine ⟨?_, htmp⟩
    rcases hleft with hgrows | ⟨hcomes, hinstall⟩ | ⟨hfails, fields, s, directory, hread, hid,
      hrewritten, hregistry⟩
    · exact hgrows.expansion hcontent
    · exact (h.resolve_right (not_not.mpr hcomes) |> hinstall).elim
    · obtain ⟨haddressed, hinjective⟩ := hdiscard.resolve_left hfails
      have hsame : fields.render = content := by
        obtain ⟨stored, hstored⟩ := Registry.exists_lookup_of_expansion hcontent
        obtain ⟨found, hfound, hname⟩ := haddressed id stored hstored
        rw [hcontent] at hfound
        obtain rfl := Option.some.inj hfound
        exact hinjective (Or.inr (hread ▸ hstream.isInfix)) (Or.inl ⟨id, hcontent⟩)
          (hid.trans hname.symm)
      subst hsame
      rw [hregistry]
      exact (swapped_expansion haddressed hcontent hinjective hrewritten).1 id _ hcontent

theorem splitBlock_resilient_iff_sample :
    let faults : SplitStep → Option Err := fun step => if step = .install then some .fileNotFound else none
    let shouldSplit : Bool → Nat → Bool := fun _ length => decide (3 ≤ length)
    let id : BlockId := 1 :: Fields.sample.render
    let stream := readBlock .sample .flat id
    (∀ e w, splitBlockFrom .sample faults .sample shouldSplit stream id () none 8
        { registry := .flat } = .error e w →
      w.registry.expansion id = some Fields.sample.render ∧ w.tmp = none) ↔
      (faults .install = none ∨ ¬ ComesToInstall .sample faults .sample shouldSplit stream .flat
        id () none 8) := by
  exact splitBlock_resilient_iff .sample
    (fun step => if step = .install then some .fileNotFound else none) .sample
    (fun _ length => decide (3 ≤ length)) .flat (1 :: Fields.sample.render) () none 8
    Fields.sample.render (readBlock .sample .flat (1 :: Fields.sample.render)) (by decide)
    (by decide) (.inl rfl)

-- A file block whose second rename fails: its content is left under the '.old-' name alone.
theorem splitBlock_loses_block :
    let faults : SplitStep → Option Err := fun step => if step = .install then some .fileNotFound else none
    let content := Fields.sample.render
    let w : Splitting :=
      { registry := [([1, 7, 8, 9], .file [7, 8, 9])]
        old := some (.file content)
        reader := { chunks := .pure [], hashed := content, buffer := content, offset := 9, position := 9 }
        writer := { entries := [.part 1, .block [1, 7, 8, 9] [1, 3], .part 2], blocks := 1 } }
    Registry.flat.expansion (1 :: content) = some content ∧
      splitBlock .sample faults .sample (fun _ length => decide (3 ≤ length)) (1 :: content) () none 8
        { registry := .flat } = .error .fileNotFound w ∧
      w.registry.expansion (1 :: content) = none := by
  intro faults content w
  exact ⟨by decide, by decide +kernel, by decide⟩

end BeeRpc
