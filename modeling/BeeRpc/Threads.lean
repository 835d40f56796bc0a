import BeeRpc.Races

namespace BeeRpc

open Wire Naming Interleaving

section Splits

variable (env : Enviroment) (contents : Set Bytes)

-- A new form of a block is made of payloads that are shorter than it is, each in the place of its
-- name.
structure Form.Fits (payloads : List Bytes) (form : Form) : Prop where
  digest : env.hashFactory form.content = form.id
  expands : ∀ sub : BlockId → Option Bytes,
    (∀ content ∈ payloads, sub (env.hashFactory content) = some content) →
      form.directory.expandWith sub = some form.content
  blocks : ∀ id ∈ (Stored.dir form.directory).blocks, ∃ content ∈ payloads,
    id = env.hashFactory content ∧ content.length < form.content.length

structure Rewriting.Sound (payloads : List Bytes) (form : Form) (d : Disk) (r : Rewriting) :
    Prop where
  -- the payloads are still to come, or there
  stored : ∀ content ∈ payloads, content ∈ r.payloads ∨
    content ∈ d.hashed ∧ d.Present (env.hashFactory content)
  swapped : r.form = some form ∨ r.form = none ∧ d.Present form.id
  missing : r.stage = .missing → ∃ content ∈ r.payloads.head?, content ∈ d.hashed
  between : r.stage = .between → r.payloads = [] ∧ r.form = some form ∧ form.content ∈ d.hashed
  refused : r.stage = .refused → (∃ content ∈ r.payloads.head?, d.Present (env.hashFactory content)) ∨
    r.payloads = [] ∧ r.form = some form ∧ d.Present form.id

variable {env contents} {d d' : Disk} {payloads : List Bytes} {form : Form} {r : Rewriting}

theorem Rewriting.Sound.moves (h : r.Sound env payloads form d) (hmoves : d.Moves d') :
    r.Sound env payloads form d' where
  stored content hmem := (h.stored content hmem).imp_right fun hold =>
    ⟨hmoves.hashed content hold.1, hmoves.present _ hold.2⟩
  swapped := h.swapped.imp_right fun hold => ⟨hold.1, hmoves.present _ hold.2⟩
  missing hstage :=
    let ⟨content, hhead, hmem⟩ := h.missing hstage
    ⟨content, hhead, hmoves.hashed content hmem⟩
  between hstage := (h.between hstage).imp_right (And.imp_right (hmoves.hashed _))
  refused hstage := (h.refused hstage).imp
    (fun ⟨content, hhead, hpresent⟩ => ⟨content, hhead, hmoves.present _ hpresent⟩)
    (And.imp_right (And.imp_right (hmoves.present _)))

-- The first payload is there.
theorem Rewriting.Sound.next (h : r.Sound env payloads form d) {content : Bytes} {rest : List Bytes}
    (hpayloads : r.payloads = content :: rest) (hhashed : content ∈ d.hashed)
    (hpresent : d.Present (env.hashFactory content)) :
    Rewriting.Sound env payloads form d { r with payloads := rest, stage := .next } where
  stored other hother := by
    rcases h.stored other hother with hold | hold
    · rw [hpayloads] at hold
      rcases List.mem_cons.mp hold with rfl | hold
      · exact Or.inr ⟨hhashed, hpresent⟩
      · exact Or.inl hold
    · exact Or.inr hold
  swapped := h.swapped
  missing hstage := by cases hstage
  between hstage := by cases hstage
  refused hstage := by cases hstage

theorem hash_moves (d : Disk) (content : Bytes) :
    d.Moves { d with hashed := content :: d.hashed } :=
  ⟨fun _ h => h, fun _ hmem => List.mem_cons_of_mem _ hmem⟩

-- What a file or directory does not take the place of is there.
theorem present_of_replaces {stored : Stored} {id : BlockId}
    (h : ¬ stored.replaces (d.registry.lookup id) = true) : d.registry.blockExists id = true := by
  cases hl : d.registry.lookup id with
  | none =>
      rw [hl] at h
      cases stored <;> exact absurd rfl h
  | some entry => exact Registry.blockExists_eq_true.mpr ⟨entry, hl⟩

theorem storeNext_sound (hd : d.Sound env contents) (h : r.Sound env payloads form d)
    {content : Bytes} {rest : List Bytes} (hpayloads : r.payloads = content :: rest)
    (hstage : r.stage = .next) {after : Disk × Rewriting}
    (hact : r.storeNext env d content rest = after) :
    after.1.Sound env contents ∧ after.2.Sound env payloads form after.1 := by
  have hmoves := hash_moves d content
  have hkept := h.moves hmoves
  simp only [Rewriting.storeNext] at hact
  split at hact
  · rename_i hexists
    subst hact
    refine ⟨hd.moves hmoves rfl, ?_⟩
    have hnext := hkept.next hpayloads (List.mem_cons_self ..) (Or.inl hexists)
    rwa [← hstage] at hnext
  · subst hact
    exact ⟨hd.moves hmoves rfl, hkept.stored, hkept.swapped,
      fun _ => ⟨content, by rw [hpayloads]; rfl, List.mem_cons_self ..⟩,
      (fun hstage => by cases hstage), fun hstage => by cases hstage⟩

theorem storeMissing_sound (hinj : Set.InjOn env.hashFactory contents)
    (hd : d.Sound env contents) (h : r.Sound env payloads form d)
    {content : Bytes} {rest : List Bytes} (hpayloads : r.payloads = content :: rest)
    (hstage : r.stage = .missing) {after : Disk × Rewriting}
    (hact : r.storeMissing env d content rest = after) (hchecked : after.1.Checked contents) :
    after.1.Sound env contents ∧ after.2.Sound env payloads form after.1 := by
  obtain ⟨other, hhead, hhashed⟩ := h.missing hstage
  rw [hpayloads] at hhead
  obtain rfl := Option.some.inj hhead
  simp only [Rewriting.storeMissing] at hact
  split at hact
  · subst hact
    have hmoves := present_store d (env.hashFactory content) (.file content) d.aside
      fun _ hother => Or.inr hother
    have hcontent : meaning env contents (env.hashFactory content) = some content :=
      (meaning_eq_some hinj).mpr ⟨hchecked content hhashed, rfl⟩
    refine ⟨hd.store hcontent ⟨rfl, fun sub hsub => absurd hsub List.not_mem_nil⟩ d.aside
      fun _ hother => Or.inr hother, (h.moves hmoves).next hpayloads hhashed (Or.inl ?_)⟩
    exact Registry.blockExists_eq_true.mpr ⟨_, Registry.lookup_store_self ..⟩
  · rename_i hreplaces
    subst hact
    exact ⟨hd, h.stored, h.swapped, (fun hstage => by cases hstage), (fun hstage => by cases hstage),
      fun _ => Or.inl ⟨content, by rw [hpayloads]; rfl, Or.inl (present_of_replaces hreplaces)⟩⟩

-- The old form is moved away, and the block counts as there for as long as the new one is to come.
theorem retire_leaves (d : Disk) (id : BlockId) (content : Bytes) :
    d.Leaves (some id)
      { d with
        registry := d.registry.remove id
        aside := id :: d.aside
        hashed := content :: d.hashed } := by
  refine ⟨⟨fun other h => ?_, fun _ hmem => List.mem_cons_of_mem _ hmem⟩, fun other hother stored hl => ?_⟩
  · by_cases hother : other = id
    · subst hother
      exact Or.inr (List.mem_cons_self ..)
    · refine h.imp (fun hexists => ?_) (List.mem_cons_of_mem _)
      rwa [Registry.blockExists, Registry.lookup_remove_ne _ hother]
  · have hne : other ≠ id := fun heq => hother (heq ▸ rfl)
    exact Or.inl ((Registry.lookup_remove_ne _ hne).trans hl)

theorem retire_sound (hd : d.Sound env contents) (h : r.Sound env payloads form d)
    (hpayloads : r.payloads = []) (hform : r.form = some form)
    {after : Disk × Rewriting} (hact : r.retire d form = after) :
    after.1.Sound env contents ∧ after.2.Sound env payloads form after.1 := by
  simp only [Rewriting.retire] at hact
  split at hact
  · subst hact
    have hmoves := hash_moves d form.content
    have hkept := h.moves hmoves
    exact ⟨hd.moves hmoves rfl, hkept.stored, hkept.swapped, (fun hstage => by cases hstage),
      (fun hstage => by cases hstage), fun hstage => by cases hstage⟩
  · subst hact
    have hmoves := (retire_leaves d form.id form.content).toMoves
    have hkept := h.moves hmoves
    refine ⟨fun id stored hl => ?_, hkept.stored, hkept.swapped, (fun hstage => by cases hstage),
      (fun _ => ⟨hpayloads, hform, List.mem_cons_self ..⟩), fun hstage => by cases hstage⟩
    have hl' : (d.registry.remove form.id).lookup id = some stored := hl
    have hne : id ≠ form.id := by
      rintro rfl
      rw [Registry.lookup_remove_self] at hl'
      cases hl'
    rw [Registry.lookup_remove_ne _ hne] at hl'
    obtain ⟨content, hcontent, hstored⟩ := hd id stored hl'
    exact ⟨content, hcontent, hstored.moves hmoves⟩

theorem filter_aside (aside : List BlockId) (id : BlockId) :
    ∀ other ∈ aside, other = id ∨ other ∈ aside.filter (· ≠ id) := by
  intro other hother
  by_cases heq : other = id
  · exact Or.inl heq
  · exact Or.inr (List.mem_filter.mpr ⟨hother, decide_eq_true heq⟩)

-- Where another form has come in the meantime, there is no need for the one at hand.
theorem unaside_moves {id : BlockId} (h : d.registry.blockExists id = true) :
    d.Moves { d with aside := d.aside.filter (· ≠ id) } := by
  refine ⟨fun other hother => ?_, fun _ hmem => hmem⟩
  rcases hother with hother | hother
  · exact Or.inl hother
  · rcases filter_aside d.aside id other hother with rfl | hmem
    · exact Or.inl h
    · exact Or.inr hmem

theorem install_sound (hinj : Set.InjOn env.hashFactory contents) (hfits : form.Fits env payloads)
    (hd : d.Sound env contents) (h : r.Sound env payloads form d) (hstage : r.stage = .between)
    {after : Disk × Rewriting} (hact : r.install d form = after)
    (hchecked : after.1.Checked contents) :
    after.1.Sound env contents ∧ after.2.Sound env payloads form after.1 := by
  obtain ⟨hpayloads, hform, hhashed⟩ := h.between hstage
  simp only [Rewriting.install] at hact
  split at hact
  · subst hact
    have hmem : ∀ content ∈ d.hashed, content ∈ contents := hchecked
    have hcontent : meaning env contents form.id = some form.content :=
      (meaning_eq_some hinj).mpr ⟨hmem _ hhashed, hfits.digest⟩
    have hstored : ∀ content ∈ payloads,
        content ∈ d.hashed ∧ d.Present (env.hashFactory content) := by
      intro content hcontent
      refine (h.stored content hcontent).resolve_left fun hleft => ?_
      rw [hpayloads] at hleft
      cases hleft
    have hnew : (Stored.dir form.directory).FormOf env contents d form.id form.content := by
      refine ⟨hfits.expands _ fun content hcontent => ?_, fun sub hsub => ?_⟩
      · exact (meaning_eq_some hinj).mpr ⟨hmem _ (hstored content hcontent).1, rfl⟩
      · obtain ⟨content, hpayload, rfl, hshorter⟩ := hfits.blocks sub hsub
        refine ⟨fun heq => ?_, (hstored content hpayload).2⟩
        have hsame := hinj (hmem _ (hstored content hpayload).1) (hmem _ hhashed)
          (heq.trans hfits.digest.symm)
        rw [hsame] at hshorter
        exact Nat.lt_irrefl _ hshorter
    have haside := filter_aside d.aside form.id
    have hmoves := present_store d form.id (.dir form.directory) _ haside
    have hkept := h.moves hmoves
    refine ⟨hd.store hcontent hnew _ haside, hkept.stored, Or.inr ⟨rfl, Or.inl ?_⟩,
      (fun hstage => by cases hstage), (fun hstage => by cases hstage), fun hstage => by cases hstage⟩
    exact Registry.blockExists_eq_true.mpr ⟨_, Registry.lookup_store_self ..⟩
  · rename_i hreplaces
    subst hact
    have hexists := present_of_replaces hreplaces
    have hmoves := unaside_moves hexists
    have hkept := h.moves hmoves
    exact ⟨hd.moves hmoves rfl, hkept.stored, hkept.swapped, (fun hstage => by cases hstage),
      (fun hstage => by cases hstage), fun _ => Or.inr ⟨hpayloads, hform, Or.inl hexists⟩⟩

theorem rewriting_turn (hinj : Set.InjOn env.hashFactory contents) (hfits : form.Fits env payloads)
    (hd : d.Sound env contents) (h : r.Sound env payloads form d) {after : Disk × Rewriting}
    (hact : r.step env d = some after) (hchecked : after.1.Checked contents) :
    after.1.Sound env contents ∧ after.2.Sound env payloads form after.1 := by
  unfold Rewriting.step at hact
  split at hact
  · rename_i content rest hpayloads
    split at hact
    · rename_i hstage
      exact storeNext_sound hd h hpayloads hstage (Option.some.inj hact)
    · rename_i hstage
      exact storeMissing_sound hinj hd h hpayloads hstage (Option.some.inj hact) hchecked
    · cases hact
  · rename_i hpayloads
    split at hact
    · cases hact
    · rename_i own hown
      obtain rfl : own = form := by
        rcases h.swapped with hform | ⟨hform, -⟩
        · exact Option.some.inj (hown.symm.trans hform)
        · rw [hform] at hown
          cases hown
      split at hact
      · exact retire_sound hd h hpayloads hown (Option.some.inj hact)
      · rename_i hstage
        exact install_sound hinj hfits hd h hstage (Option.some.inj hact) hchecked
      · cases hact

end Splits

section Creations

variable (env : Enviroment)

def Creating.Sound (content : Bytes) (d : Disk) (c : Creating) : Prop :=
  c.content = content ∧
    match c.stage with
    | .hashing => True
    | .asked => content ∈ d.hashed
    | .missing => content ∈ d.hashed
    | .created => d.Present (env.hashFactory content)
    | .unmoved => d.Present (env.hashFactory content)
    | .refused => d.Present (env.hashFactory content)

variable {env} {contents : Set Bytes} {d d' : Disk} {content : Bytes} {c : Creating}

theorem Creating.Sound.moves (h : c.Sound env content d) (hmoves : d.Moves d') :
    c.Sound env content d' := by
  obtain ⟨own, stage⟩ := c
  cases stage with
  | hashing => exact h
  | asked => exact h.imp_right (hmoves.hashed _)
  | missing => exact h.imp_right (hmoves.hashed _)
  | created => exact h.imp_right (hmoves.present _)
  | unmoved => exact h.imp_right (hmoves.present _)
  | refused => exact h.imp_right (hmoves.present _)

theorem creating_turn (hinj : Set.InjOn env.hashFactory contents) (hd : d.Sound env contents)
    (h : c.Sound env content d) {after : Disk × Creating} (hact : c.step env d = some after)
    (hchecked : after.1.Checked contents) :
    after.1.Sound env contents ∧ after.2.Sound env content after.1 := by
  obtain ⟨own, stage⟩ := c
  obtain ⟨rfl, hstage⟩ := h
  cases stage with
  | hashing =>
      obtain rfl := Option.some.inj hact
      refine ⟨hd.moves (hash_moves d own) rfl, ?_⟩
      cases hexists : d.registry.blockExists (env.hashFactory own) with
      | true => exact ⟨rfl, Or.inl hexists⟩
      | false => exact ⟨rfl, List.mem_cons_self ..⟩
  | asked =>
      obtain rfl := Option.some.inj hact
      refine ⟨hd, ?_⟩
      cases hexists : d.registry.blockExists (env.hashFactory own) with
      | true => exact ⟨rfl, Or.inl hexists⟩
      | false => exact ⟨rfl, hstage⟩
  | missing =>
      simp only [Creating.step] at hact
      split at hact
      · obtain rfl := Option.some.inj hact
        have hcontent : meaning env contents (env.hashFactory own) = some own :=
          (meaning_eq_some hinj).mpr ⟨hchecked own hstage, rfl⟩
        refine ⟨hd.store hcontent ⟨rfl, fun sub hsub => absurd hsub List.not_mem_nil⟩ d.aside
          fun _ hother => Or.inr hother, rfl, Or.inl ?_⟩
        exact Registry.blockExists_eq_true.mpr ⟨_, Registry.lookup_store_self ..⟩
      · rename_i hreplaces
        obtain rfl := Option.some.inj hact
        exact ⟨hd, rfl, Or.inl (present_of_replaces hreplaces)⟩
  | created => cases hact
  | unmoved => cases hact
  | refused => cases hact

theorem creating_leaves {after : Disk × Creating} (hact : c.step env d = some after) :
    d.Leaves none after.1 ∧ after.1.aside = d.aside := by
  obtain ⟨own, stage⟩ := c
  cases stage with
  | hashing =>
      obtain rfl := Option.some.inj hact
      exact ⟨leaves_registry (hash_moves d own) rfl, rfl⟩
  | asked =>
      obtain rfl := Option.some.inj hact
      exact ⟨.refl d, rfl⟩
  | missing =>
      simp only [Creating.step] at hact
      split at hact
      · rename_i hreplaces
        obtain rfl := Option.some.inj hact
        exact ⟨leaves_store hreplaces d.aside fun _ hother => Or.inr hother, rfl⟩
      · obtain rfl := Option.some.inj hact
        exact ⟨.refl d, rfl⟩
  | created => cases hact
  | unmoved => cases hact
  | refused => cases hact

end Creations

section Turns

variable {env : Enviroment} {d : Disk}

-- Whatever a thread does, every block stays there or aside, and one that saves a stream moves
-- nothing aside.
theorem receiving_leaves {r : Receiving} {after : Disk × Receiving}
    (hact : r.step env d = some after) : d.Leaves none after.1 ∧ after.1.aside = d.aside := by
  unfold Receiving.step at hact
  split at hact
  · split at hact
    · unfold Receiving.readOuter at hact
      split at hact
      · cases hact
      · obtain rfl := Option.some.inj hact
        exact ⟨.refl d, rfl⟩
      · split at hact
        · obtain rfl := Option.some.inj hact
          exact ⟨.refl d, rfl⟩
        · obtain rfl := Option.some.inj hact
          exact ⟨.refl d, rfl⟩
    · cases hact
  · rename_i f fs _
    split at hact
    · obtain rfl := Option.some.inj hact
      unfold Receiving.readInner
      split
      · simp only
        split
        · exact ⟨leaves_registry (hash_moves d f.part.content) rfl, rfl⟩
        · exact ⟨leaves_registry (hash_moves d f.part.content) rfl, rfl⟩
      · exact ⟨.refl d, rfl⟩
      · split
        · exact ⟨.refl d, rfl⟩
        · exact ⟨.refl d, rfl⟩
    · obtain rfl := Option.some.inj hact
      exact ⟨.refl d, rfl⟩
    · split at hact
      · obtain rfl := Option.some.inj hact
        exact ⟨.refl d, rfl⟩
      · obtain rfl := Option.some.inj hact
        exact ⟨.refl d, rfl⟩
    · rename_i stored _
      split at hact
      · rename_i hreplaces
        obtain rfl := Option.some.inj hact
        exact ⟨leaves_store hreplaces d.aside fun _ hother => Or.inr hother, rfl⟩
      · obtain rfl := Option.some.inj hact
        exact ⟨.refl d, rfl⟩
    · cases hact
    · cases hact

-- The block whose old form a split has moved away.
def Rewriting.between (r : Rewriting) : Option BlockId :=
  match r.stage with
  | .between => r.form.map Form.id
  | _ => none

theorem storeNext_leaves {away : Option BlockId} (r : Rewriting) (content : Bytes)
    (rest : List Bytes) : d.Leaves away (r.storeNext env d content rest).1 ∧
      (r.storeNext env d content rest).1.aside = d.aside := by
  simp only [Rewriting.storeNext]
  split
  · exact ⟨leaves_registry (hash_moves d content) rfl, rfl⟩
  · exact ⟨leaves_registry (hash_moves d content) rfl, rfl⟩

theorem storeMissing_leaves {away : Option BlockId} (r : Rewriting) (content : Bytes)
    (rest : List Bytes) : d.Leaves away (r.storeMissing env d content rest).1 ∧
      (r.storeMissing env d content rest).1.aside = d.aside := by
  simp only [Rewriting.storeMissing]
  split
  · rename_i hreplaces
    exact ⟨leaves_store hreplaces d.aside fun _ hother => Or.inr hother, rfl⟩
  · exact ⟨.refl d, rfl⟩

theorem install_leaves {away : Option BlockId} (r : Rewriting) (form : Form) :
    d.Leaves away (r.install d form).1 ∧
      (r.install d form).1.aside = d.aside.filter (· ≠ form.id) := by
  simp only [Rewriting.install]
  split
  · rename_i hreplaces
    exact ⟨leaves_store hreplaces _ (filter_aside d.aside form.id), rfl⟩
  · rename_i hreplaces
    exact ⟨leaves_registry (unaside_moves (present_of_replaces hreplaces)) rfl, rfl⟩

theorem rewriting_leaves {r : Rewriting} {after : Disk × Rewriting}
    (hact : r.step env d = some after) : d.Leaves (Worker.retires (.rewriting r)) after.1 ∧
      ∀ id ∈ after.1.aside, after.2.between = some id ∨ id ∈ d.aside ∧ r.between ≠ some id := by
  have hquiet : r.stage ≠ .between → ∀ id ∈ d.aside, id ∈ d.aside ∧ r.between ≠ some id := by
    intro hstage id hid
    refine ⟨hid, fun hbetween => ?_⟩
    unfold Rewriting.between at hbetween
    split at hbetween
    · exact hstage ‹_›
    · cases hbetween
  unfold Rewriting.step at hact
  split at hact
  · rename_i content rest _
    split at hact
    · rename_i hstage
      have hold := hquiet (hstage ▸ (by simp))
      obtain rfl := Option.some.inj hact
      obtain ⟨hleaves, haside⟩ := storeNext_leaves r content rest
      exact ⟨hleaves, fun id hid => Or.inr (hold id (haside ▸ hid))⟩
    · rename_i hstage
      have hold := hquiet (hstage ▸ (by simp))
      obtain rfl := Option.some.inj hact
      obtain ⟨hleaves, haside⟩ := storeMissing_leaves r content rest
      exact ⟨hleaves, fun id hid => Or.inr (hold id (haside ▸ hid))⟩
    · cases hact
  · rename_i hpayloads
    split at hact
    · cases hact
    · rename_i form hform
      split at hact
      · rename_i hstage
        have hold := hquiet (hstage ▸ (by simp))
        obtain rfl := Option.some.inj hact
        simp only [Rewriting.retire]
        split
        · exact ⟨leaves_registry (hash_moves d form.content) rfl, fun id hid => Or.inr (hold id hid)⟩
        · have hretires : Worker.retires (.rewriting r) = some form.id := by
            obtain ⟨payloads, own, stage⟩ := r
            obtain rfl : payloads = [] := hpayloads
            obtain rfl : own = some form := hform
            obtain rfl : stage = .next := hstage
            rfl
          refine ⟨hretires ▸ retire_leaves d form.id form.content, fun id hid => ?_⟩
          rcases List.mem_cons.mp hid with rfl | hid
          · exact Or.inl (by simp [Rewriting.between, hform])
          · exact Or.inr (hold id hid)
      · rename_i hstage
        have hbetween : r.between = some form.id := by simp [Rewriting.between, hstage, hform]
        obtain rfl := Option.some.inj hact
        obtain ⟨hleaves, haside⟩ := install_leaves r form
        refine ⟨hleaves, fun id hid => Or.inr ?_⟩
        rw [haside] at hid
        obtain ⟨hmem, hne⟩ := List.mem_filter.mp hid
        refine ⟨hmem, fun hsame => of_decide_eq_true hne ?_⟩
        exact Option.some.inj (hsame.symm.trans hbetween)
      · cases hact

end Turns

section Start

variable {env : Enviroment} {contents : Set Bytes} {registry : Registry}

-- What expands has no block in it that is itself.
theorem not_inside_itself {id : BlockId} {content : Bytes}
    (h : registry.expansion id = some content) :
    ∀ directory, registry.lookup id = some (.dir directory) → id ∉ (Stored.dir directory).blocks := by
  refine registry.contents.value_induction
    (P := fun id _ => ∀ directory, registry.lookup id = some (.dir directory) →
      id ∉ (Stored.dir directory).blocks) ?_ id content h
  intro id content sub hsub hrule directory hl hmem
  have hexpand : registry.expandRule id sub = some content := hrule
  rw [Registry.expandRule, hl] at hexpand
  have hform : (Stored.dir directory).expandWith sub = some content := hexpand
  obtain ⟨bytes, hbytes, -⟩ := Stored.expandWith_inside hform hmem
  exact (hsub id bytes hbytes).2 directory hl hmem

theorem start_sound (hinj : Set.InjOn env.hashFactory contents)
    (haddressed : registry.ContentAddressed env)
    (hcontents : ∀ id content, registry.expansion id = some content → content ∈ contents) :
    Disk.Sound env contents { registry } := by
  have hmeaning : ∀ id content, registry.expansion id = some content →
      meaning env contents id = some content := by
    intro id content hexpansion
    obtain ⟨stored, hl⟩ := Registry.exists_lookup_of_expansion hexpansion
    obtain ⟨found, hfound, hid⟩ := haddressed id stored hl
    obtain rfl := Option.some.inj (hexpansion.symm.trans hfound)
    exact (meaning_eq_some hinj).mpr ⟨hcontents id content hexpansion, hid⟩
  intro id stored hl
  have hlookup : registry.lookup id = some stored := hl
  obtain ⟨content, hexpansion, -⟩ := haddressed id stored hlookup
  have hexpands : stored.expandWith registry.expansion = some content := by
    rw [Registry.expansion_eq, Registry.expandRule, hlookup] at hexpansion
    cases stored with
    | file bytes => exact hexpansion
    | dir directory => exact hexpansion
  refine ⟨content, hmeaning id content hexpansion,
    Stored.expandWith_of_sub hmeaning hexpands, fun sub hsub => ⟨?_, Or.inl ?_⟩⟩
  · rintro rfl
    cases stored with
    | file bytes => cases hsub
    | dir directory => exact not_inside_itself hexpansion directory hlookup hsub
  · obtain ⟨bytes, hbytes, -⟩ := Stored.expandWith_inside hexpands hsub
    exact Registry.blockExists_eq_true.mpr (Registry.exists_lookup_of_expansion hbytes)

end Start

section Threads

variable (env : Enviroment) (contents : Set Bytes)

-- What is promised of a job: the stream is one that parser_iterator passes on, the new form of a
-- block is one that split_block makes.
def Job.Fit : Job → Prop
  | .read _ => True
  | .receive forest => forest.Nests []
  | .split payloads form => form.Fits env payloads
  | .create _ => True

-- What is there when the job is done.
def Job.blocks : Job → List BlockId
  | .read id => [id]
  | .receive forest => forest.blocks.map Prod.fst
  | .split payloads form => form.id :: payloads.map env.hashFactory
  | .create content => [env.hashFactory content]

-- A reader that has not raised has not begun, or is at a block that is there.
def BlockRead.Reads (d : Disk) (id : BlockId) (r : BlockRead) : Prop :=
  r.raised = none → r = .start id ∨ d.Present id ∧
    ∃ content, meaning env contents id = some content ∧ r.Sound env contents d.registry content

namespace Worker

inductive Sound (d : Disk) : Job → Worker → Prop
  | reading {id : BlockId} {r : BlockRead} (h : r.Reads env contents d id) :
      Sound d (.read id) (.reading r)
  | receiving {forest : Forest} {r : Receiving} (h : r.Sound env contents forest d) :
      Sound d (.receive forest) (.receiving r)
  | rewriting {payloads : List Bytes} {form : Form} {r : Rewriting}
      (hfits : form.Fits env payloads) (h : r.Sound env payloads form d) :
      Sound d (.split payloads form) (.rewriting r)
  | creating {content : Bytes} {c : Creating} (h : c.Sound env content d) :
      Sound d (.create content) (.creating c)

-- The job is done.
def Ended : Worker → Prop
  | .reading r => r.tasks = [] ∧ r.raised = none
  | .receiving r => r.frames = [] ∧ r.outer = .nil
  | .rewriting r => r.payloads = [] ∧ r.form = none
  | .creating c => c.stage = .created

def stopped : Worker → Bool
  | .reading r => r.raised.isSome
  | .receiving { stage := .raised _, .. } => true
  | .receiving { stage := .refused, .. } => true
  | .rewriting { stage := .raised _, .. } => true
  | .rewriting { stage := .refused, .. } => true
  | .creating { stage := .unmoved, .. } => true
  | .creating { stage := .refused, .. } => true
  | _ => false

-- The block that another thread has stored in the meantime, where os.replace has found another
-- form of it or create_block does not move its file any more.
def refusedAt : Worker → Option BlockId
  | .receiving { stage := .refused, frames, .. } => frames.head?.map Writing.id
  | .rewriting { stage := .refused, payloads, form } =>
      match payloads with
      | content :: _ => some (env.hashFactory content)
      | [] => form.map Form.id
  | .creating { stage := .unmoved, content } => some (env.hashFactory content)
  | .creating { stage := .refused, content } => some (env.hashFactory content)
  | _ => none

def between : Worker → Option BlockId
  | .rewriting r => r.between
  | _ => none

end Worker

variable {env contents} {d : Disk} {job : Job} {w : Worker}

theorem BlockRead.Reads.step {id : BlockId} {r next : BlockRead} (hd : d.Sound env contents)
    (h : r.Reads env contents d id) (hact : r.step env d.registry = some next) :
    next.Reads env contents d id := by
  intro hraised
  have hbefore : r.raised = none := by
    unfold BlockRead.step at hact
    split at hact
    · rename_i hnone _
      exact hnone
    · cases hact
  rcases h hbefore with rfl | ⟨hpresent, content, hcontent, hread⟩
  · cases hl : d.registry.lookup id with
    | none =>
        simp only [BlockRead.step, BlockRead.start, BlockRead.Task.access, hl] at hact
        obtain rfl := Option.some.inj hact
        cases hraised
    | some stored =>
        obtain ⟨content, hcontent, -⟩ := hd id stored hl
        exact Or.inr ⟨Or.inl (Registry.blockExists_eq_true.mpr ⟨stored, hl⟩), content, hcontent,
          (BlockRead.start_sound d.registry hcontent).step hd hact⟩
  · exact Or.inr ⟨hpresent, content, hcontent, hread.step hd hact⟩

theorem worker_turn (hinj : Set.InjOn env.hashFactory contents) (hd : d.Sound env contents)
    (h : w.Sound env contents d job) {after : Disk × Worker} (hact : w.step env d = some after)
    (hchecked : after.1.Checked contents) :
    after.1.Sound env contents ∧ after.2.Sound env contents after.1 job := by
  cases h with
  | reading h =>
      obtain ⟨next, hnext, rfl⟩ := Option.map_eq_some_iff.mp hact
      exact ⟨hd, .reading (h.step hd hnext)⟩
  | receiving h =>
      obtain ⟨next, hnext, rfl⟩ := Option.map_eq_some_iff.mp hact
      exact (receiving_turn hinj hd h hnext hchecked).imp_right .receiving
  | rewriting hfits h =>
      obtain ⟨next, hnext, rfl⟩ := Option.map_eq_some_iff.mp hact
      exact (rewriting_turn hinj hfits hd h hnext hchecked).imp_right (.rewriting hfits)
  | creating h =>
      obtain ⟨next, hnext, rfl⟩ := Option.map_eq_some_iff.mp hact
      exact (creating_turn hinj hd h hnext hchecked).imp_right .creating

-- Another thread that spares what is open.
theorem Worker.Sound.moves {d' : Disk} (h : w.Sound env contents d job) (hmoves : d.Moves d')
    (hsame : ∀ id ∈ w.opened, ∀ stored, d.registry.lookup id = some stored →
      d'.registry.lookup id = some stored) : w.Sound env contents d' job := by
  cases h with
  | reading h =>
      refine .reading fun hraised => (h hraised).imp_right ?_
      rintro ⟨hpresent, content, hcontent, hread⟩
      exact ⟨hmoves.present _ hpresent, content, hcontent, hread.keeps hsame⟩
  | receiving h => exact .receiving (h.moves hmoves hsame)
  | rewriting hfits h => exact .rewriting hfits (h.moves hmoves)
  | creating h => exact .creating (h.moves hmoves)

-- A block is aside only while a split is between its renames.
theorem worker_leaves {after : Disk × Worker} (hact : w.step env d = some after) :
    d.Leaves w.retires after.1 ∧
      ∀ id ∈ after.1.aside, after.2.between = some id ∨ id ∈ d.aside ∧ w.between ≠ some id := by
  cases w with
  | reading r =>
      obtain ⟨next, hnext, rfl⟩ := Option.map_eq_some_iff.mp hact
      exact ⟨.refl d, fun id hid => Or.inr ⟨hid, fun hbetween => by cases hbetween⟩⟩
  | receiving r =>
      obtain ⟨next, hnext, rfl⟩ := Option.map_eq_some_iff.mp hact
      obtain ⟨hleaves, haside⟩ := receiving_leaves hnext
      exact ⟨hleaves, fun id hid => Or.inr ⟨haside ▸ hid, fun hbetween => by cases hbetween⟩⟩
  | rewriting r =>
      obtain ⟨next, hnext, rfl⟩ := Option.map_eq_some_iff.mp hact
      exact rewriting_leaves hnext
  | creating c =>
      obtain ⟨next, hnext, rfl⟩ := Option.map_eq_some_iff.mp hact
      obtain ⟨hleaves, haside⟩ := creating_leaves hnext
      exact ⟨hleaves, fun id hid => Or.inr ⟨haside ▸ hid, fun hbetween => by cases hbetween⟩⟩

-- What the threads do is right as long as all they hash is among the contents.
theorem workers_rely (hinj : Set.InjOn env.hashFactory contents) {ι : Type} (jobs : ι → Job) :
    RelyGuarantee (Worker.step env) (fun d => d.Checked contents → d.Sound env contents)
      (fun i d w => d.Checked contents → w.Sound env contents d (jobs i))
      (fun w d d' => d.Leaves w.retires d') (fun _ => True)
      fun w other => ∀ id ∈ w.retires, id ∉ other.opened where
  turn i d w d' w' hinv hown _ hact := by
    have hleaves := (worker_leaves hact).1
    have hboth : d'.Checked contents →
        d'.Sound env contents ∧ w'.Sound env contents d' (jobs i) := by
      intro hchecked
      have hbefore := hleaves.toMoves.checked hchecked
      exact worker_turn hinj (hinv hbefore) (hown hbefore) hact hchecked
    exact ⟨fun hchecked => (hboth hchecked).1, fun hchecked => (hboth hchecked).2, hleaves⟩
  rely i d d' w other hinv hinv' hown hleaves hspares hchecked := by
    have hbefore := hleaves.toMoves.checked hchecked
    refine (hown hbefore).moves hleaves.toMoves fun id hid stored hl => ?_
    have hkept : w.retires ≠ some id := fun hretires => hspares id hretires hid
    exact (hleaves.keeps id hkept).same (hinv hbefore) (hinv' hchecked) hl

theorem job_sound (hfit : job.Fit env) : job.start.Sound env contents d job := by
  cases job with
  | read id => exact .reading fun _ => Or.inl rfl
  | receive forest =>
      exact .receiving ⟨fun f hf => absurd hf List.not_mem_nil, trivial, hfit,
        fun id hid => Or.inl hid, fun _ => rfl, fun f hf => by cases hf⟩
  | split payloads form =>
      exact .rewriting hfit ⟨fun content hmem => Or.inl hmem, Or.inl rfl, (fun h => by cases h),
        (fun h => by cases h), fun h => by cases h⟩
  | create content => exact .creating ⟨rfl, trivial⟩

theorem receiving_none {forest : Forest} {r : Receiving} (h : r.Sound env contents forest d)
    (hnone : r.step env d = none) :
    (Worker.receiving r).Ended ∨ (Worker.receiving r).stopped = true := by
  obtain ⟨frames, outer, stage⟩ := r
  cases frames with
  | nil =>
      obtain rfl : stage = .reading := h.outside rfl
      cases outer with
      | nil => exact Or.inl ⟨rfl, rfl⟩
      | chunk skip content rest => cases hnone
      | block id positions body rest =>
          simp only [Receiving.step, Receiving.readOuter] at hnone
          split at hnone <;> cases hnone
  | cons f fs =>
      cases stage with
      | reading => cases hnone
      | held id positions reading => cases hnone
      | ready stored =>
          simp only [Receiving.step] at hnone
          split at hnone <;> cases hnone
      | missing stored =>
          simp only [Receiving.step] at hnone
          split at hnone <;> cases hnone
      | raised e => exact Or.inr rfl
      | refused => exact Or.inr rfl

theorem rewriting_none {payloads : List Bytes} {form : Form} {r : Rewriting}
    (h : r.Sound env payloads form d) (hnone : r.step env d = none) :
    (Worker.rewriting r).Ended ∨ (Worker.rewriting r).stopped = true := by
  obtain ⟨left, own, stage⟩ := r
  cases stage with
  | raised e => exact Or.inr rfl
  | refused => exact Or.inr rfl
  | next =>
      cases left with
      | cons content rest => cases hnone
      | nil =>
          cases own with
          | none => exact Or.inl ⟨rfl, rfl⟩
          | some form => cases hnone
  | missing =>
      obtain ⟨content, hhead, -⟩ := h.missing rfl
      cases left with
      | nil => cases hhead
      | cons content rest => cases hnone
  | between =>
      obtain ⟨hleft, hown, -⟩ := h.between rfl
      obtain rfl : left = [] := hleft
      obtain rfl : own = some form := hown
      cases hnone

-- A thread that takes no turn is done, or has raised.
theorem step_none (h : w.Sound env contents d job) (hact : w.step env d = none) :
    w.Ended ∨ w.stopped = true := by
  cases h with
  | @reading _ r h =>
      have hnone : r.step env d.registry = none := Option.map_eq_none_iff.mp hact
      obtain ⟨tasks, given, raised⟩ := r
      cases raised with
      | some e => exact Or.inr rfl
      | none =>
          cases tasks with
          | nil => exact Or.inl ⟨rfl, rfl⟩
          | cons task tasks =>
              simp only [BlockRead.step] at hnone
              split at hnone <;> cases hnone
  | receiving h => exact receiving_none h (Option.map_eq_none_iff.mp hact)
  | rewriting _ h => exact rewriting_none h (Option.map_eq_none_iff.mp hact)
  | @creating _ c h =>
      have hnone : c.step env d = none := Option.map_eq_none_iff.mp hact
      obtain ⟨own, stage⟩ := c
      cases stage with
      | hashing => cases hnone
      | asked => cases hnone
      | missing =>
          simp only [Creating.step] at hnone
          split at hnone <;> cases hnone
      | created => exact Or.inl rfl
      | unmoved => exact Or.inr rfl
      | refused => exact Or.inr rfl

-- What is done is there, and so is what has been there already.
theorem ended_present (h : w.Sound env contents d job) (hended : w.Ended) :
    ∀ id ∈ job.blocks env, d.Present id := by
  intro id hid
  cases h with
  | reading h =>
      obtain ⟨htasks, hraised⟩ := hended
      obtain rfl := List.mem_singleton.mp hid
      rcases h hraised with rfl | ⟨hpresent, -⟩
      · cases htasks
      · exact hpresent
  | receiving h =>
      obtain ⟨hframes, houter⟩ := hended
      have hdone := h.done id hid
      rw [hframes, houter] at hdone
      rcases hdone with hleft | hthere | hopen
      · cases hleft
      · exact hthere
      · cases hopen
  | rewriting hfits h =>
      obtain ⟨hpayloads, hform⟩ := hended
      rcases List.mem_cons.mp hid with rfl | hid
      · rcases h.swapped with hleft | hthere
        · rw [hform] at hleft
          cases hleft
        · exact hthere.2
      · obtain ⟨content, hcontent, rfl⟩ := List.mem_map.mp hid
        rcases h.stored content hcontent with hleft | hthere
        · rw [hpayloads] at hleft
          cases hleft
        · exact hthere.2
  | @creating _ c h =>
      obtain ⟨own, stage⟩ := c
      obtain rfl : stage = .created := hended
      obtain ⟨rfl, hthere⟩ := h
      obtain rfl := List.mem_singleton.mp hid
      exact hthere

theorem refused_present (h : w.Sound env contents d job) {id : BlockId}
    (hrefused : w.refusedAt env = some id) : d.Present id := by
  cases h with
  | reading h => cases hrefused
  | @receiving _ r h =>
      obtain ⟨frames, outer, stage⟩ := r
      cases stage with
      | refused =>
          cases frames with
          | nil => cases hrefused
          | cons f fs =>
              obtain rfl := Option.some.inj hrefused
              exact h.knows f rfl
      | reading => cases hrefused
      | held id positions reading => cases hrefused
      | ready stored => cases hrefused
      | missing stored => cases hrefused
      | raised e => cases hrefused
  | @rewriting _ form r _ h =>
      obtain ⟨left, own, stage⟩ := r
      cases stage with
      | refused =>
          rcases h.refused rfl with ⟨content, hhead, hthere⟩ | ⟨hleft, hown, hthere⟩
          · cases left with
            | nil => cases hhead
            | cons first rest =>
                obtain rfl := Option.some.inj hhead
                obtain rfl := Option.some.inj hrefused
                exact hthere
          · obtain rfl : left = [] := hleft
            obtain rfl : own = some form := hown
            obtain rfl := Option.some.inj hrefused
            exact hthere
      | next => cases hrefused
      | missing => cases hrefused
      | between => cases hrefused
      | raised e => cases hrefused
  | @creating _ c h =>
      obtain ⟨own, stage⟩ := c
      obtain ⟨rfl, hthere⟩ := h
      cases stage with
      | unmoved =>
          obtain rfl := Option.some.inj hrefused
          exact hthere
      | refused =>
          obtain rfl := Option.some.inj hrefused
          exact hthere
      | hashing => cases hrefused
      | asked => cases hrefused
      | missing => cases hrefused
      | created => cases hrefused

-- A thread that has read a block has read what its name stands for.
theorem read_meaning {id : BlockId} {given : Bytes}
    (h : Worker.Sound env contents d (.read id) (.reading { tasks := [], given })) :
    meaning env contents id = some given := by
  cases h with
  | reading h =>
      rcases h rfl with hstart | ⟨-, content, hcontent, hread⟩
      · cases hstart
      · obtain rfl : given = content := hread.ended rfl rfl
        exact hcontent

theorem aside_run {ι : Type} [DecidableEq ι] (schedule : List ι) {s s' : Workers ι}
    (h : ∀ id ∈ s.shared.aside, ∃ i, (s.agents i).between = some id)
    (hrun : Interleaving.run (Crew.step (Worker.step env)) s schedule = some s') :
    ∀ id ∈ s'.shared.aside, ∃ i, (s'.agents i).between = some id := by
  have hkeeps : ∀ (s : Workers ι) (i : ι) (s' : Workers ι),
      (∀ id ∈ s.shared.aside, ∃ i, (s.agents i).between = some id) →
        s.step (Worker.step env) i = some s' →
          ∀ id ∈ s'.shared.aside, ∃ i, (s'.agents i).between = some id := by
    intro s i s' h hstep id hid
    obtain ⟨shared, agent, hact, rfl⟩ := crew_step hstep
    rcases (worker_leaves hact).2 id hid with hown | ⟨hold, hother⟩
    · exact ⟨i, by simpa only [Function.update_self] using hown⟩
    · obtain ⟨j, hj⟩ := h id hold
      have hne : j ≠ i := by
        rintro rfl
        exact hother hj
      exact ⟨j, by simpa only [Function.update_of_ne hne] using hj⟩
  exact invariant_run_all hkeeps schedule h hrun

-- Wherever a run has come to, all is sound among the contents that were there or hashed.
theorem workers_sound (hinj : Set.InjOn env.hashFactory contents) {ι : Type} [DecidableEq ι]
    {jobs : ι → Job} {registry : Registry} {schedule : List ι} {s : Workers ι}
    (haddressed : registry.ContentAddressed env) (hfit : ∀ i, (jobs i).Fit env)
    (hspares : Along (Crew.step (Worker.step env)) Workers.Spares (Workers.start registry jobs)
      schedule)
    (hrun : Interleaving.run (Crew.step (Worker.step env)) (Workers.start registry jobs) schedule =
      some s)
    (hstart : ∀ id content, registry.expansion id = some content → content ∈ contents)
    (hchecked : s.shared.Checked contents) :
    s.shared.Sound env contents ∧ ∀ i, (s.agents i).Sound env contents s.shared (jobs i) := by
  have hsound₀ : Disk.Sound env contents { registry } := start_sound hinj haddressed hstart
  obtain ⟨hsound, hown⟩ := (workers_rely hinj jobs).run schedule (fun _ => hsound₀)
    (fun i _ => job_sound (hfit i)) (along_mono (fun _ _ h => ⟨trivial, h⟩) schedule hspares) hrun
  exact ⟨hsound hchecked, fun i => hown i hchecked⟩

-- Threads that read blocks, save streams, split blocks and create them in one block directory, in
-- any number and however they take turns, as long as no two contents that they hash or find there
-- have one digest and no split moves a block away that another thread has opened. What is there or
-- read is always the content of its name, and the one from before. While no split is between its
-- two renames everything that was there is there, complete and as it was, and so is every block of
-- a thread that is done. No thread waits for another one, and one that os.replace refuses, or whose
-- file create_block does not move, leaves the block to the one that came first.
theorem workers_share {ι : Type} [DecidableEq ι] (env : Enviroment) (jobs : ι → Job)
    (registry : Registry) (schedule : List ι) (s : Workers ι)
    (haddressed : registry.ContentAddressed env) (hfit : ∀ i, (jobs i).Fit env)
    (hspares : Along (Crew.step (Worker.step env)) Workers.Spares (Workers.start registry jobs)
      schedule)
    (hrun : Interleaving.run (Crew.step (Worker.step env)) (Workers.start registry jobs) schedule =
      some s)
    (hinjective : Set.InjOn env.hashFactory
      { content | content ∈ s.shared.hashed ∨ ∃ id, registry.expansion id = some content }) :
    (∀ id content, (s.shared.registry.expansion id = some content ∨
        ∃ i, jobs i = .read id ∧ s.agents i = .reading { tasks := [], given := content }) →
      env.hashFactory content = id ∧
        ∀ before, registry.expansion id = some before → content = before) ∧
    ((∀ i, (s.agents i).between = none) →
      s.shared.registry.ContentAddressed env ∧
      (∀ id content, registry.expansion id = some content →
        s.shared.registry.expansion id = some content) ∧
      (∀ i, (s.agents i).Ended → ∀ id ∈ (jobs i).blocks env,
        s.shared.registry.blockExists id = true) ∧
      ∀ i id, (s.agents i).refusedAt env = some id → s.shared.registry.blockExists id = true) ∧
    ∀ i, (s.agents i).step env s.shared = none → (s.agents i).Ended ∨ (s.agents i).stopped = true := by
  generalize hcontents :
    { content | content ∈ s.shared.hashed ∨ ∃ id, registry.expansion id = some content } =
      contents at hinjective
  have hstart : ∀ id content, registry.expansion id = some content → content ∈ contents :=
    fun id content hexpansion => hcontents ▸ Or.inr ⟨id, hexpansion⟩
  have hsound₀ : Disk.Sound env contents { registry } := start_sound hinjective haddressed hstart
  obtain ⟨hsound, hown⟩ := workers_sound hinjective haddressed hfit hspares hrun hstart
    fun content hmem => hcontents ▸ Or.inl hmem
  have hmoved : Disk.Moves { registry } s.shared :=
    shared_run Disk.Moves.refl (fun _ _ _ => Disk.Moves.trans)
      (fun _ _ _ _ hact => (worker_leaves hact).1.toMoves) schedule hrun
  have hbefore : ∀ id content, registry.expansion id = some content →
      meaning env contents id = some content := fun id content h => hsound₀.expansion h
  refine ⟨fun id content hread => ?_, fun hbetween => ?_, fun i hact => step_none (hown i) hact⟩
  · have hcontent : meaning env contents id = some content := by
      rcases hread with hexpansion | ⟨i, hjob, hagent⟩
      · exact hsound.expansion hexpansion
      · have howni := hown i
        rw [hjob, hagent] at howni
        exact read_meaning howni
    refine ⟨(meaning_digest hcontent).2, fun before hold => ?_⟩
    exact Option.some.inj (hcontent.symm.trans (hbefore id before hold))
  · have haside : s.shared.aside = [] := by
      refine List.eq_nil_iff_forall_not_mem.mpr fun id hid => ?_
      obtain ⟨i, hi⟩ := aside_run schedule (fun _ h => absurd h List.not_mem_nil) hrun id hid
      rw [hbetween i] at hi
      cases hi
    have hthere : ∀ id, s.shared.Present id → s.shared.registry.blockExists id = true := by
      intro id hpresent
      rw [Disk.Present, haside] at hpresent
      exact hpresent.resolve_right List.not_mem_nil
    refine ⟨fun id stored hl => ?_, fun id content hexpansion => ?_, fun i hended id hid => ?_,
      fun i id hrefused => hthere id (refused_present (hown i) hrefused)⟩
    · obtain ⟨content, hcontent, -⟩ := hsound id stored hl
      exact ⟨content, hsound.complete haside _ id content hcontent (Nat.lt_succ_self _)
        (Or.inl (Registry.blockExists_eq_true.mpr ⟨stored, hl⟩)), (meaning_digest hcontent).2⟩
    · exact hsound.complete haside _ id content (hbefore id content hexpansion) (Nat.lt_succ_self _)
        (hmoved.present id (Or.inl (Registry.blockExists_eq_true.mpr
          (Registry.exists_lookup_of_expansion hexpansion))))
    · exact hthere id (ended_present (hown i) hended id hid)

end Threads

def Form.sample : Form where
  id := 1 :: Fields.sample.render
  directory := {
    parts := [(1, [10, 5, 18, 3]), (2, [24, 5])]
    json := [.part 1, .block [1, 7, 8, 9] [1, 3], .part 2]
    wbp := some [10, 13, 18, 11, 10, 9, 10, 1, 1, 18, 4, 1, 7, 8, 9, 24, 5] }
  content := Fields.sample.render

-- One thread is sent the payload that another one takes out of the block and two create, and the
-- last one reads the block.
def Job.sample (thread : Fin 5) : Job :=
  if thread = 0 then .receive (.block [1, 7, 8, 9] [1] (.chunk none [7, 8, 9] .nil) .nil)
  else if thread = 1 then .split [[7, 8, 9]] .sample
  else if thread = 4 then .read (1 :: Fields.sample.render)
  else .create [7, 8, 9]

theorem Form.sample_fits : Form.sample.Fits .sample [[7, 8, 9]] where
  digest := rfl
  expands sub hsub := by
    have hpayload : sub [1, 7, 8, 9] = some [7, 8, 9] := hsub [7, 8, 9] (List.mem_singleton_self _)
    simp [Form.sample, Directory.expandWith, Directory.expandEntries, Directory.part, hpayload,
      Fields.sample, Fields.render, List.lookup_cons]
  blocks id hid := by
    obtain rfl : id = [1, 7, 8, 9] := List.mem_singleton.mp hid
    exact ⟨[7, 8, 9], List.mem_singleton_self _, rfl, by decide⟩

theorem Job.sample_fit (thread : Fin 5) : (Job.sample thread).Fit .sample := by
  unfold Job.sample
  split
  · exact ⟨by decide, by decide, by decide, trivial, trivial⟩
  · split
    · exact Form.sample_fits
    · split
      · trivial
      · trivial

-- All of them ask for the payload before any of them has stored it.
theorem workers_share_sample :
    let schedule : List (Fin 5) := [4, 0, 1, 2, 3, 0, 4, 3, 0, 0, 1, 0, 2, 3, 4, 1, 1]
    let start := Workers.start .flat Job.sample
    let s := (Interleaving.run (Crew.step (Worker.step .sample)) start schedule).getD start
    (∀ id content, (s.shared.registry.expansion id = some content ∨
        ∃ i, Job.sample i = .read id ∧ s.agents i = .reading { tasks := [], given := content }) →
      Enviroment.sample.hashFactory content = id ∧
        ∀ before, Registry.flat.expansion id = some before → content = before) ∧
    ((∀ i, (s.agents i).between = none) →
      s.shared.registry.ContentAddressed .sample ∧
      (∀ id content, Registry.flat.expansion id = some content →
        s.shared.registry.expansion id = some content) ∧
      (∀ i, (s.agents i).Ended → ∀ id ∈ (Job.sample i).blocks .sample,
        s.shared.registry.blockExists id = true) ∧
      ∀ i id, (s.agents i).refusedAt .sample = some id → s.shared.registry.blockExists id = true) ∧
    ∀ i, (s.agents i).step .sample s.shared = none →
      (s.agents i).Ended ∨ (s.agents i).stopped = true := by
  have hsome : (Interleaving.run (Crew.step (Worker.step .sample)) (Workers.start .flat Job.sample)
      [4, 0, 1, 2, 3, 0, 4, 3, 0, 0, 1, 0, 2, 3, 4, 1, 1]).isSome = true := by
    decide +kernel
  exact workers_share .sample Job.sample .flat [4, 0, 1, 2, 3, 0, 4, 3, 0, 0, 1, 0, 2, 3, 4, 1, 1] _
    flat_contentAddressed Job.sample_fit (by decide +kernel)
    ((Option.eq_some_of_isSome hsome).trans (congrArg some (Option.get_eq_getD _)))
    (sample_injective _)

-- A reader whose block is moved away goes on in the new form with the `_.json` of the old one, and
-- nothing is raised.
example :
    let form : Form := { Form.sample with directory := {
      parts := [(1, [10, 5]), (2, [24, 5])]
      json := [.part 1, .block [1, 18, 3, 7, 8, 9] [1], .part 2] } }
    let jobs : Fin 2 → Job := fun i => if i = 0 then .read form.id else .split [[18, 3, 7, 8, 9]] form
    let schedule : List (Fin 2) := [0, 0, 1, 1, 1, 1, 0, 0, 0, 0, 0]
    (Interleaving.run (Crew.step (Worker.step .sample)) (Workers.start .split jobs) schedule).map
      (fun s => s.agents 0) = some (.reading { tasks := [], given := [10, 5, 7, 8, 9, 24, 5] }) := by
  rfl

end BeeRpc
