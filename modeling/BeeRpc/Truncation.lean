import BeeRpc.Agreement
import Mathlib.Data.List.DropRight

namespace BeeRpc

open Wire Effect Naming

-- No proper beginning of a stored block's content goes by the block's name.
def Registry.Distinct (env : Enviroment) (registry : Registry) : Prop :=
  ∀ id content, registry.expansion id = some content → ∀ other, other <+: content →
    env.hashFactory other = id → other = content

-- Of one of the blocks that are open at the end, and are not drained, there is not enough for
-- its name.
def Cut.Unfinished (env : Enviroment) (sender : Registry) (held : List BlockId) : Cut → Prop
  | last _ => False
  | inside before id _ inner =>
      id ∉ before.taken held ∧
        (inner.Unfinished env sender (before.taken held) ∨
          env.hashFactory (inner.close.expand sender.content) ≠ id)

section Absorbed

variable {env : Enviroment} {sender : Registry}

theorem append_taken (forest more : Forest) (held : List BlockId) :
    (forest.append more).taken held = more.taken (forest.taken held) := by
  induction forest generalizing held with
  | nil => rfl
  | chunk skip content rest ih => exact ih held
  | block id positions body rest ihBody ihRest =>
      simp only [Forest.append, Forest.taken]
      by_cases hheld : id ∈ held
      · rw [if_pos hheld, if_pos hheld, ihRest]
      · rw [if_neg hheld, if_neg hheld, ihRest]

theorem append_expand (fill : BlockId → Bytes) (forest more : Forest) :
    (forest.append more).expand fill = forest.expand fill ++ more.expand fill := by
  induction forest with
  | nil => rfl
  | chunk skip content rest ih => rw [Forest.append, Forest.expand, ih, Forest.expand, List.append_assoc]
  | block id positions body rest ihBody ihRest =>
      rw [Forest.append, Forest.expand, ihRest, Forest.expand, List.append_assoc]

theorem append_faithful (forest more : Forest) :
    (forest.append more).Faithful sender ↔ forest.Faithful sender ∧ more.Faithful sender := by
  induction forest with
  | nil => exact ⟨fun h => ⟨trivial, h⟩, And.right⟩
  | chunk skip content rest ih => exact ih
  | block id positions body rest ihBody ihRest =>
      simp only [Forest.append, Forest.Faithful, ihRest, and_assoc]

theorem Cut.Begins.expand {cut : Cut} {forest : Forest} (h : cut.Begins forest)
    (fill : BlockId → Bytes) : cut.close.expand fill <+: forest.expand fill := by
  cases cut with
  | last nearer =>
      obtain ⟨more, rfl⟩ := h
      rw [append_expand]
      exact List.prefix_append _ _
  | inside before id positions inner =>
      obtain ⟨body, more, rfl, -⟩ := h
      rw [Cut.close, append_expand, append_expand, Forest.expand, Forest.expand, Forest.expand,
        List.append_nil, ← List.append_assoc]
      exact List.prefix_append _ _

theorem Cut.Begins.blocks {cut : Cut} {forest : Forest} (h : cut.Begins forest) :
    cut.close.blocks <+: forest.blocks := by
  cases cut with
  | last nearer =>
      obtain ⟨more, rfl⟩ := h
      rw [append_blocks]
      exact List.prefix_append _ _
  | inside before id positions inner =>
      obtain ⟨body, more, rfl, -⟩ := h
      rw [Cut.close, append_blocks, append_blocks, Forest.blocks, Forest.blocks, Forest.blocks]
      exact (List.prefix_append_right_inj _).mpr (List.prefix_append [(id, positions)] _)

variable (control : Bool)

-- What has come of a forest is absorbed, unless one of its open blocks is refused.
theorem absorb_begins (hsender : sender.ContentAddressed env) (hdistinct : sender.Distinct env)
    (cut : Cut) {forest : Forest} (hbegins : cut.Begins forest) (around : List BlockId)
    (hnests : forest.Nests around) (hfaithful : forest.Faithful sender) (k : Known) (p : Part)
    (hgood : k.Good env sender) (held : List BlockId) (hheld : k.Holds held) :
    (cut.Unfinished env sender held ∧
        ∃ failure, absorb env control k p cut.close = .error failure) ∨
      (¬ cut.Unfinished env sender held ∧
        ∃ k' q, absorb env control k p cut.close = .ok (k', q) ∧ k'.Good env sender ∧
          k'.Holds (cut.close.taken held) ∧
            q.content = p.content ++ cut.close.expand sender.content) := by
  induction cut generalizing forest around k p held with
  | last nearer =>
      obtain ⟨more, rfl⟩ := hbegins
      obtain ⟨k', q, habsorb, hgood', -, hheld', hcontent⟩ := absorb_faithful control hsender nearer
        around ((append_nests ..).mp hnests).1 ((append_faithful ..).mp hfaithful).1 k p hgood held hheld
      exact Or.inr ⟨not_false, k', q, habsorb, hgood', hheld', hcontent⟩
  | inside before id positions inner ih =>
      obtain ⟨body, more, rfl, hinner⟩ := hbegins
      obtain ⟨hbefore, hid, hnew, -, hbody, -⟩ := (append_nests ..).mp hnests
      obtain ⟨hfaithfulBefore, hexpansion, hlaid, hfaithfulBody, -⟩ := (append_faithful ..).mp hfaithful
      obtain ⟨k₁, p₁, habsorb₁, hgood₁, -, hheld₁, hcontent₁⟩ := absorb_faithful control hsender before
        around hbefore hfaithfulBefore k p hgood held hheld
      have hasked : (k₁.ask control id).registry = k₁.registry := ask_registry control k₁ id
      have hfill : sender.content id = body.expand sender.content := by
        rw [Registry.content, hexpansion, Option.getD_some]
      have hclose : ∀ content, (p₁.block id positions content).content =
          p.content ++ before.expand sender.content ++ content := by
        intro content
        rw [← hcontent₁]
        simp [Part.block, Part.content]
      have hwhole : (Cut.inside before id positions inner).close.expand sender.content =
          before.expand sender.content ++ sender.content id := by
        rw [Cut.close, append_expand, Forest.expand, Forest.expand, List.append_nil]
      have htaken : (Cut.inside before id positions inner).close.taken held =
          if id ∈ before.taken held then before.taken held
          else id :: inner.close.taken (before.taken held) := by
        rw [Cut.close, append_taken]
        rfl
      have hthere : absorb env control k p (Cut.inside before id positions inner).close =
          (absorbBody env control (k₁.ask control id) id inner.close).bind fun result =>
            .ok (result.1, p₁.block id positions result.2) := by
        rw [Cut.close, absorb_append, habsorb₁]
        simp only [Except.bind, absorb_block]
        rfl
      rw [hthere, htaken, hwhole]
      by_cases hexists : k₁.registry.blockExists id = true
      · have hmem := (hheld₁ id).mp hexists
        have hsame : k₁.registry.content id = sender.content id := by
          rw [Registry.content, hgood₁.expansion hexpansion hexists, hfill, Option.getD_some]
        have hdrained : ((k₁.ask control id).drain control inner.close).registry = k₁.registry :=
          (drain_registry control inner.close _).trans hasked
        refine Or.inr ⟨fun h => h.1 hmem, (k₁.ask control id).drain control inner.close,
          p₁.block id positions (sender.content id), ?_, hgood₁.of_registry hdrained, ?_, ?_⟩
        · rw [absorbBody, hasked, if_pos hexists, hsame]
          rfl
        · intro other
          rw [if_pos hmem, hdrained]
          exact hheld₁ other
        · rw [hclose, List.append_assoc]
      · have hmem : id ∉ before.taken held := mt (hheld₁ id).mpr hexists
        have hbodyOf : absorbBody env control (k₁.ask control id) id inner.close =
            (absorb env control (k₁.ask control id) {} inner.close).bind fun result =>
              (result.1.storeBlock env id result.2).bind fun k => .ok (k, result.2.content) := by
          rw [absorbBody, hasked, if_neg hexists]
          rfl
        rw [hbodyOf, if_neg hmem]
        rcases ih hinner (id :: around) hbody hfaithfulBody (k₁.ask control id) {}
            (hgood₁.of_registry hasked) (before.taken held)
            (fun other => by rw [hasked]; exact hheld₁ other) with
          ⟨hunfinished, failure, hfailure⟩ | ⟨hfinished, k₂, q₂, habsorb₂, hgood₂, hheld₂, hcontent₂⟩
        · exact Or.inl ⟨⟨hmem, Or.inl hunfinished⟩, failure, by rw [hfailure]; rfl⟩
        have hcontent₂ : q₂.content = inner.close.expand sender.content := hcontent₂
        rw [habsorb₂]
        by_cases hdigest : env.hashFactory (inner.close.expand sender.content) = id
        · have hall : inner.close.expand sender.content = body.expand sender.content :=
            hdistinct id _ hexpansion _ (hinner.expand sender.content) hdigest
          have hsenders : ∀ other ∈ inner.close.blocks.map Prod.fst,
              ∃ content, sender.expansion other = some content := by
            intro other hother
            exact hfaithfulBody.holds other (List.map_subset _ hinner.blocks.subset hother)
          obtain ⟨k₃, hblock, hgood₃, -, hheld₃⟩ := store_absorbed control habsorb₂ hgood₂
            (hinner.opens hlaid) hsenders hheld₂ (close_nests (hinner.nests hbody)) hmem
            (hall ▸ hexpansion) hdigest hcontent₂
          refine Or.inr ⟨?_, k₃, p₁.block id positions q₂.content, ?_, hgood₃, hheld₃, ?_⟩
          · rintro ⟨-, h | h⟩
            · exact hfinished h
            · exact h hdigest
          · simp only [Except.bind, hblock]
          · rw [hclose, hcontent₂, hall, ← hfill, List.append_assoc]
        · refine Or.inl ⟨⟨hmem, Or.inr hdigest⟩, ?_⟩
          refine ⟨⟨.blockIdMismatch id (env.hashFactory q₂.content), k₂.asked⟩, ?_⟩
          have hblock : k₂.storeBlock env id q₂ =
              .error ⟨.blockIdMismatch id (env.hashFactory q₂.content), k₂.asked⟩ := by
            rw [Known.storeBlock, Part.storedBlock, if_pos (hcontent₂ ▸ hdigest)]
          simp only [Except.bind, hblock]

theorem absorbDir_begins (hsender : sender.ContentAddressed env) (hdistinct : sender.Distinct env)
    {cut : Cut} {stored : Stored} {forest : Forest} (hbegins : cut.Begins forest)
    (hframed : stored.FramedBy sender forest) (k : Known) (hgood : k.Good env sender)
    (held : List BlockId) (hheld : k.Holds held) :
    (cut.Unfinished env sender held ∧
        ∃ failure, absorbDir env control k cut.close = .error failure) ∨
      (¬ cut.Unfinished env sender held ∧ ∃ result, absorbDir env control k cut.close = .ok result) := by
  rcases absorb_begins control hsender hdistinct cut hbegins [] hframed.nests hframed.faithful k {}
      hgood held hheld with ⟨hunfinished, failure, hfailure⟩ | ⟨hfinished, k', q, habsorb, hgood', hheld', -⟩
  · refine Or.inl ⟨hunfinished, failure, ?_⟩
    rw [absorbDir, hfailure]
    rfl
  · have hsenders : ∀ id ∈ cut.close.blocks.map Prod.fst,
        ∃ content, sender.expansion id = some content := by
      intro id hid
      exact hframed.faithful.holds id (List.map_subset _ hbegins.blocks.subset hid)
    obtain ⟨received, hreceived, -⟩ := stored_mirrors control habsorb hgood'
      (hbegins.opens hframed.laid) hsenders
      (fun id hid => (hheld' id).mpr (cut.close.blocks_taken held id hid)) none
    refine Or.inr ⟨hfinished, (k', received), ?_⟩
    rw [absorbDir, habsorb]
    simp only [ok_bind, hreceived]

end Absorbed

-- The pieces of a stream that comes to its end.
def Forest.arrived : Forest → List Forest
  | .nil => [.nil]
  | .chunk skip content rest =>
      match rest.arrived with
      | [] => []
      | piece :: pieces => .chunk skip content piece :: pieces
  | .block id positions body rest =>
      .block id positions body .nil :: if rest = .nil then [] else rest.arrived

section Memory

variable {env : Enviroment}

theorem arrived_ne_nil (forest : Forest) : forest.arrived ≠ [] := by
  induction forest with
  | nil => exact List.cons_ne_nil _ _
  | chunk skip content rest ih =>
      obtain ⟨piece, pieces, h⟩ := List.exists_cons_of_ne_nil ih
      simp only [Forest.arrived, h]
      exact List.cons_ne_nil _ _
  | block id positions body rest ihBody ihRest => exact List.cons_ne_nil _ _

theorem arrived_chunk (skip : Option Block) (content : Bytes) {rest : Forest} {requests : List Buffer}
    (h : Torn env [] false requests rest.arrived) :
    Torn env [] false (chunkBuffer skip content :: requests) (Forest.chunk skip content rest).arrived := by
  obtain ⟨piece, pieces, harrived⟩ := List.exists_cons_of_ne_nil (arrived_ne_nil rest)
  simp only [Forest.arrived, harrived]
  rw [harrived] at h
  exact h.chunk skip content

-- What is in front of the last pieces is torn behind every block outside all others.
theorem arrived_append (before : Forest) (hnests : before.Nests []) {behind : Forest}
    {requests : List Buffer} (hne : behind ≠ .nil) (h : Torn env [] false requests behind.arrived) :
    Torn env [] false (before.stream env ++ requests) (before.append behind).arrived := by
  induction before with
  | nil => exact h
  | chunk skip content rest ih => exact arrived_chunk skip content (ih hnests)
  | block id positions body rest ihBody ihRest =>
      obtain ⟨hid, -, -, hbody, hrest⟩ := hnests
      have hmore : rest.append behind ≠ .nil := by
        cases rest with
        | nil => exact hne
        | chunk => exact fun h => by cases h
        | block => exact fun h => by cases h
      simp only [Forest.stream, List.append_assoc, List.cons_append, Forest.append, Forest.arrived,
        if_neg hmore]
      have hblock := @Stretches.block env _ positions _ (rest.stream env ++ requests) hid hbody
      exact .piece (List.cons_ne_nil _ _) hblock (ihRest hrest)

theorem arrived_last (forest : Forest) (hnests : forest.Nests []) (hne : forest ≠ .nil) :
    Torn env [] false (forest.stream env) forest.arrived := by
  induction forest with
  | nil => exact absurd rfl hne
  | chunk skip content rest ih =>
      by_cases hrest : rest = .nil
      · subst hrest
        exact .last (List.cons_ne_nil _ _) (.chunk skip content .ended)
      · exact arrived_chunk skip content (ih hnests hrest)
  | block id positions body rest ihBody ihRest =>
      obtain ⟨hid, -, -, hbody, hrest⟩ := hnests
      by_cases hlast : rest = .nil
      · subst hlast
        exact .last (List.cons_ne_nil _ _) (.block positions [] hid hbody)
      · have hblock := @Stretches.block env _ positions _ (rest.stream env) hid hbody
        simp only [Forest.stream, List.cons_append, Forest.arrived, if_neg hlast]
        exact .piece (List.cons_ne_nil _ _) hblock (ihRest hrest hlast)

theorem arrived_cut (cut : Cut) (hnests : cut.Nests []) (head : Head) :
    Torn env [] true ({ head := some head } :: cut.stream env) cut.close.arrived := by
  cases cut with
  | last forest =>
      by_cases hforest : forest = .nil
      · subst hforest
        exact .last (List.cons_ne_nil _ _) (.head head .ended)
      · exact (arrived_last forest hnests hforest).head head
  | inside before id positions inner =>
      obtain ⟨hbefore, hid, -, -, hinner⟩ := hnests
      have hopen : Torn env [] false (marker env id positions :: inner.stream env)
          (Forest.block id positions inner.close .nil).arrived := by
        exact .last (List.cons_ne_nil _ _) (.cut positions hid hinner)
      exact (arrived_append before hbefore (fun h => by cases h) hopen).head head

theorem Cut.Begins.names {cut : Cut} {forest : Forest} (h : cut.Begins forest) :
    cut.close.names ⊆ forest.names := by
  induction cut generalizing forest with
  | last nearer =>
      obtain ⟨more, rfl⟩ := h
      rw [names_append]
      exact List.subset_append_left _ _
  | inside before id positions inner ih =>
      obtain ⟨body, more, rfl, hinner⟩ := h
      intro other hother
      simp only [Cut.close, names_append, Forest.names, List.mem_append, List.mem_cons,
        List.not_mem_nil, or_false] at hother ⊢
      rcases hother with hother | hother | hother
      · exact Or.inl hother
      · exact Or.inr (Or.inl (Or.inl hother))
      · exact Or.inr (Or.inl (Or.inr (ih hinner hother)))

theorem arrived_names (forest : Forest) : ∀ piece ∈ forest.arrived, piece.names ⊆ forest.names := by
  induction forest with
  | nil =>
      intro piece hpiece
      rw [List.mem_singleton.mp hpiece]
      exact List.Subset.refl _
  | chunk skip content rest ih =>
      intro piece hpiece
      obtain ⟨first, pieces, harrived⟩ := List.exists_cons_of_ne_nil (arrived_ne_nil rest)
      simp only [Forest.arrived, harrived] at hpiece
      rw [harrived] at ih
      rcases List.mem_cons.mp hpiece with rfl | hpiece
      · exact ih first (List.mem_cons_self ..)
      · exact ih piece (List.mem_cons_of_mem _ hpiece)
  | block id positions body rest ihBody ihRest =>
      intro piece hpiece
      rcases List.mem_cons.mp hpiece with rfl | hpiece
      · intro other hother
        simp only [Forest.names, List.append_nil] at hother ⊢
        exact List.mem_append_left _ hother
      · by_cases hrest : rest = .nil
        · rw [if_pos hrest] at hpiece
          cases hpiece
        · rw [if_neg hrest] at hpiece
          intro other hother
          have := ihRest piece hpiece hother
          exact List.mem_append_right _ this

end Memory

namespace Receiver

variable (receiver : Receiver)

def Decodes (field : Field) (content : Bytes) : Prop :=
  ∃ value, receiver.convert field content = .ok value

-- The first of the contents that is not passed over cannot be yielded.
def Rejects (field : Field) (first : Bytes) (rest : List Bytes) : Prop :=
  if first = [] then
    match receiver.allIndices.lookup 1 with
    | none => True
    | some one => one ≠ .empty ∧
        ∃ content, rest.find? (· ≠ []) = some content ∧ ¬ receiver.Decodes one content
  else ¬ receiver.Decodes field first

-- What has come of a message is refused, as what it would be yielded as.
def Stops (sender : Registry) (w : World) (head : Head) (cut : Cut) : Prop :=
  match receiver.allIndices.lookup head.index with
  | none => True
  | some field =>
      if receiver.mode head.index then
        ∃ first rest, cut.close.arrived.map (Forest.bytes w.registry) = first :: rest ∧
          receiver.Rejects field first rest
      else cut.Unfinished receiver.env sender (w.registry.map Prod.fst)

-- Nothing is yielded but what came before this part, and where there is a part it raises.
def Withholds (start : World) (part : List Buffer) : Prop :=
  ∃ earlier w, receiver.Reaches start earlier w ∧ part.length ≤ w.requests.length ∧
    (parseFromBuffer receiver start).1.items = earlier ∧
      (part ≠ [] → (parseFromBuffer receiver start).1.raised.isSome = true)

end Receiver

-- What comes behind the last separator.
def unfinished (items : List Buffer) : List Buffer := items.rtakeWhile fun b => !b.isSeparator

section Rejected

variable {receiver : Receiver}

theorem turns_raises (first : Except Err (Option Result)) (rest : List (Except Err (Option Result))) :
    (∃ e, turns (first :: rest) = ⟨[], some e⟩) ↔
      (∃ e, first = .error e) ∨ (first = .ok none ∧ ∃ e, turns rest = ⟨[], some e⟩) := by
  cases first with
  | error e => simp [turns, Yielded.raise]
  | ok result =>
      cases result with
      | none =>
          cases hrest : turns rest
          simp [turns, hrest, Yielded.andThen, Yielded.pure]
      | some result => simp [turns, Yielded.andThen, Yielded.pure]

theorem turn_raises (b : Buffer) (field : Field) {content : Bytes} (h : content ≠ []) :
    (∃ e, receiver.turn b field content = .error e) ↔ ¬ receiver.Decodes field content := by
  rw [turn_content b field h, Receiver.Decodes]
  cases receiver.convert field content with
  | error e => simp [Except.map]
  | ok value => simp [Except.map]

-- The pieces behind the first are read as index 1 stands for.
theorem turns_find {one : Field} (hone : receiver.allIndices.lookup 1 = some one)
    (hempty : one ≠ .empty) (contents : List Bytes) :
    (∃ e, turns (contents.map (receiver.turn {} one)) = ⟨[], some e⟩) ↔
      ∃ content, contents.find? (· ≠ []) = some content ∧ ¬ receiver.Decodes one content := by
  have hdefault : receiver.allIndices.lookup receiver.defaultIndex = some one := by
    rw [Receiver.defaultIndex, hone]
    exact hone
  have hskip : receiver.turn {} one [] = .ok none := by
    apply turn_default _ hdefault
    rw [hone]
    exact fun h => hempty (Option.some.inj h)
  induction contents with
  | nil => simp [turns, Yielded.pure]
  | cons content contents ih =>
      rw [List.map_cons, turns_raises]
      by_cases h : content = []
      · subst h
        rw [hskip, List.find?_cons_of_neg (by simp)]
        exact Iff.trans (by simp) ih
      · rw [turn_raises _ _ h, List.find?_cons_of_pos (by simpa using h)]
        have hnone := @turn_ne_none receiver {} one _ h
        simp [hnone]

theorem turns_rejects {head : Head} {field default : Field}
    (hdefault : receiver.allIndices.lookup receiver.defaultIndex = some default) (first : Bytes)
    (rest : List Bytes) :
    (∃ e, turns (receiver.turn { head := some head } field first ::
        rest.map (receiver.turn {} default)) = ⟨[], some e⟩) ↔ receiver.Rejects field first rest := by
  rw [turns_raises, Receiver.Rejects]
  by_cases hfirst : first = []
  · rw [if_pos hfirst, Receiver.turn, if_pos hfirst]
    cases hone : receiver.allIndices.lookup 1 with
    | none => simp [Receiver.onEmpty, hone]
    | some one =>
        obtain rfl : one = default := by
          rw [Receiver.defaultIndex, hone] at hdefault
          exact Option.some.inj (hone.symm.trans hdefault)
        simp only [Receiver.onEmpty, hone]
        by_cases hempty : one = .empty
        · simp [Receiver.emptyResult, hempty]
        · rw [turns_find hone hempty]
          simp [Receiver.emptyResult, hempty]
  · rw [if_neg hfirst, turn_raises _ _ hfirst]
    have hnone := @turn_ne_none receiver { head := some head } field _ hfirst
    simp [hnone]

-- To the end of the stream.
theorem torn_run (hd : receiver.env.Digests) {headed : Bool} {first : Forest}
    {forests : List Forest} {b : Buffer} {field default : Field} (w : World)
    (hw : w.Sound receiver.env) (hb : w.requests.head? = some b)
    (h : Torn receiver.env [] headed w.requests (first :: forests))
    (hreads : ∀ forest ∈ first :: forests, ∀ id ∈ forest.names, w.registry.Reads receiver.env id)
    (hfield : receiver.allIndices.lookup (receiver.indexOf b) = some field)
    (hdefault : receiver.allIndices.lookup receiver.defaultIndex = some default)
    (hmode : ∀ index, receiver.mode index = true) :
    (receiver.run w).1 = turns (receiver.turn b field (first.bytes w.registry) ::
      forests.map fun forest => receiver.turn {} default (forest.bytes w.registry)) := by
  obtain ⟨results, w', hreaches, hsound, -, ⟨hturns, hleft⟩ | ⟨b', e, w₂, hturns, -, hb', hraises⟩⟩ :=
    torn_turns hd w hw hb h hreads hfield hdefault (hmode _) fun _ => hmode _
  · rw [hturns, hreaches.run hw, run_nil w' hleft, pure_andThen_pure, List.append_nil]
  · rw [hturns]
    exact hreaches.raises hw hsound hb' hraises

theorem run_stops (hd : receiver.env.Digests) {sender : Registry}
    (hsender : sender.ContentAddressed receiver.env) (hdistinct : sender.Distinct receiver.env)
    {stored : Stored} {forest : Forest} (hframed : stored.FramedBy sender forest) {cut : Cut}
    (hbegins : cut.Begins forest) (hmode : ∃ mode, receiver.partitionsMessageMode = .inl mode)
    (w : World) (hw : w.Sound receiver.env) (hgood : w.known.Good receiver.env sender) {head : Head}
    (hrequests : w.requests = { head := some head } :: cut.stream receiver.env) :
    (∃ e, (receiver.run w).1 = ⟨[], some e⟩) ↔ receiver.Stops sender w head cut := by
  obtain ⟨mode, hmode⟩ := hmode
  have hmodes : ∀ index, receiver.mode index = mode := fun index => by simp only [Receiver.mode, hmode]
  have hb : w.requests.head? = some { head := some head } := by rw [hrequests]; rfl
  have hindexOf : receiver.indexOf { head := some head } = head.index := rfl
  unfold Receiver.Stops
  cases hfield : receiver.allIndices.lookup head.index with
  | none =>
      obtain ⟨e, hraises⟩ := receive_unknown { head := some head } w (hindexOf ▸ hfield)
      exact iff_of_true ⟨e, (Receiver.Reaches.start w).raises hw hw hb hraises⟩ trivial
  | some field =>
      have hnests := hbegins.nests hframed.nests
      simp only [hmodes]
      cases mode with
      | false =>
          rw [if_neg Bool.false_ne_true]
          have hcarries : Carries receiver.env true w.requests cut.close [] := by
            rw [hrequests]
            exact (carries_cut cut hnests).head head
          have hreceive := receive_dir hd { head := some head } w hw hcarries hfield (hmodes _)
          have hrun := run_cons w hw hrequests
          rcases absorbDir_begins receiver.control hsender hdistinct hbegins hframed w.known hgood
              (w.registry.map Prod.fst) (fun id => Registry.blockExists_iff_mem) with
            ⟨hunfinished, failure, hfailure⟩ | ⟨hfinished, ⟨k, received⟩, hresult⟩
          · rw [hfailure] at hreceive
            obtain ⟨w', hraises, -⟩ := hreceive
            rw [hraises] at hrun
            exact iff_of_true ⟨failure.error, by rw [hrun]; rfl⟩ hunfinished
          · rw [hresult] at hreceive
            obtain ⟨path, w', hyields, -⟩ := hreceive
            rw [hyields] at hrun
            refine iff_of_false ?_ hfinished
            rintro ⟨e, he⟩
            rw [hrun] at he
            have hitems := congrArg Yielded.items he
            cases hitems
      | true =>
          rw [if_pos rfl]
          obtain ⟨default, hdefault⟩ := @lookup_defaultIndex receiver
          obtain ⟨first, rest, harrived⟩ := List.exists_cons_of_ne_nil (arrived_ne_nil cut.close)
          have htorn : Torn receiver.env [] true w.requests (first :: rest) := by
            rw [hrequests, ← harrived]
            exact arrived_cut cut hnests head
          have hreads : ∀ piece ∈ first :: rest, ∀ id ∈ piece.names,
              w.registry.Reads receiver.env id := by
            intro piece hpiece id hid
            rw [← harrived] at hpiece
            exact hgood.reads hframed.faithful id (hbegins.names (arrived_names _ piece hpiece hid))
          have hrun := torn_run hd w hw hb htorn hreads hfield hdefault hmodes
          have hrest : (rest.map fun piece => receiver.turn {} default (piece.bytes w.registry)) =
              (rest.map (Forest.bytes w.registry)).map (receiver.turn {} default) := by
            rw [List.map_map]
            rfl
          rw [hrun, hrest, turns_rejects hdefault, harrived, List.map_cons]
          constructor
          · exact fun h => ⟨_, _, rfl, h⟩
          · rintro ⟨_, _, hsame, h⟩
            obtain ⟨rfl, rfl⟩ := List.cons.inj hsame
            exact h

-- A message that has come whole is taken, or raises before what comes behind it.
theorem reaches_sent (hd : receiver.env.Digests) {sender : Registry}
    (hsender : sender.ContentAddressed receiver.env) {stored : Stored} {sent : Sent}
    (hframed : stored.FramedBy sender sent.forest)
    (hmode : ∃ mode, receiver.partitionsMessageMode = .inl mode) (w : World)
    (hw : w.Sound receiver.env) (hgood : w.known.Good receiver.env sender) (more : List Buffer)
    (hrequests : w.requests = sent.stream receiver.env ++ more) :
    ∃ results w', receiver.Reaches w results w' ∧ w'.Sound receiver.env ∧
      w'.known.Good receiver.env sender ∧
      (w'.requests = more ∨ ∃ b e w'', more.length < w'.requests.length ∧
        w'.requests.head? = some b ∧ receiver.receive b w' = .error e w'') := by
  obtain ⟨mode, hmode⟩ := hmode
  have hmodes : ∀ index, receiver.mode index = mode := fun index => by simp only [Receiver.mode, hmode]
  obtain ⟨b, hb, hhead⟩ : ∃ b, w.requests.head? = some b ∧ b.head = some sent.head := by
    rw [hrequests]
    cases sent with
    | framed head forest => exact ⟨_, rfl, rfl⟩
    | single head content => exact ⟨_, rfl, rfl⟩
  have hless : more.length < w.requests.length := by
    rw [hrequests, List.length_append]
    cases sent with
    | framed head forest =>
        simp only [Sent.stream, List.cons_append, List.length_cons]
        omega
    | single head content =>
        simp only [Sent.stream, List.length_cons]
        omega
  cases hfield : receiver.allIndices.lookup (receiver.indexOf b) with
  | none =>
      obtain ⟨e, hraises⟩ := receive_unknown b w hfield
      exact ⟨[], w, .start w, hw, hgood, Or.inr ⟨b, e, w, hless, hb, hraises⟩⟩
  | some field =>
      cases mode with
      | false =>
          have hcarries := @Sent.carries receiver.env sent hframed.nests more
          obtain ⟨k, received, habsorb, hgood', -⟩ := absorbDir_faithful receiver.control hsender
            hframed w.known hgood (w.registry.map Prod.fst) fun id => Registry.blockExists_iff_mem
          have hreceive := receive_dir hd b w hw (hrequests ▸ hcarries) hfield (hmodes _)
          rw [habsorb] at hreceive
          obtain ⟨path, w', hw', hknown, hmore, hkeeps⟩ := hreceive
          exact ⟨_, w', .turn hb hw' (.start w'), hw.keeps hkeeps, hknown ▸ hgood', Or.inl hmore⟩
      | true =>
          obtain ⟨default, hdefault⟩ := @lookup_defaultIndex receiver
          obtain ⟨first, rest, htorn, hfaithful⟩ : ∃ first rest,
              Torn receiver.env more true w.requests (first :: rest) ∧
                ∀ piece ∈ first :: rest, piece.Faithful sender := by
            rw [hrequests]
            cases sent with
            | framed head forest =>
                obtain ⟨first, rest, htorn⟩ := List.exists_cons_of_ne_nil (torn_ne_nil forest)
                refine ⟨first, rest, ?_, htorn ▸ hframed.faithful.torn⟩
                rw [← htorn]
                simp only [Sent.stream, List.cons_append, List.append_assoc, List.nil_append]
                exact (torn_separator forest hframed.nests more).head head
            | single head content =>
                refine ⟨_, [], .last (List.cons_ne_nil _ _) (.single head content more), ?_⟩
                intro piece hpiece
                rw [List.mem_singleton.mp hpiece]
                trivial
          obtain ⟨results, w', hreaches, hsound, hregistry, hends⟩ := torn_turns hd w hw hb htorn
            (fun piece hpiece => hgood.reads (hfaithful piece hpiece)) hfield hdefault (hmodes _)
            fun _ => hmodes _
          refine ⟨results, w', hreaches, hsound, hgood.of_registry hregistry, ?_⟩
          rcases hends with ⟨-, hleft⟩ | ⟨b', e, w'', -, hraises⟩
          · exact Or.inl hleft
          · exact Or.inr ⟨b', e, w'', hraises⟩

theorem reaches_sents (hd : receiver.env.Digests) {sender : Registry}
    (hsender : sender.ContentAddressed receiver.env) (sents : List Sent)
    (hframed : ∀ sent ∈ sents, ∃ stored : Stored, stored.FramedBy sender sent.forest)
    (hmode : ∃ mode, receiver.partitionsMessageMode = .inl mode) (w : World)
    (hw : w.Sound receiver.env) (hgood : w.known.Good receiver.env sender) (more : List Buffer)
    (hrequests : w.requests = sents.flatMap (Sent.stream receiver.env) ++ more) :
    ∃ results w', receiver.Reaches w results w' ∧ w'.Sound receiver.env ∧
      w'.known.Good receiver.env sender ∧
      (w'.requests = more ∨ ∃ b e w'', more.length < w'.requests.length ∧
        w'.requests.head? = some b ∧ receiver.receive b w' = .error e w'') := by
  induction sents generalizing w with
  | nil => exact ⟨[], w, .start w, hw, hgood, Or.inl hrequests⟩
  | cons sent sents ih =>
      obtain ⟨stored, hstored⟩ := hframed sent (List.mem_cons_self ..)
      rw [List.flatMap_cons, List.append_assoc] at hrequests
      obtain ⟨results, w₁, hreaches, hsound, hgood₁, hleft | ⟨b, e, w'', hless, hraises⟩⟩ :=
        reaches_sent hd hsender hstored hmode w hw hgood _ hrequests
      · obtain ⟨results', w', hreaches', h⟩ := ih
          (fun other hother => hframed other (List.mem_cons_of_mem _ hother)) w₁ hsound hgood₁ hleft
        exact ⟨results ++ results', w', hreaches.trans hreaches', h⟩
      · rw [List.length_append] at hless
        exact ⟨results, w₁, hreaches, hsound, hgood₁, Or.inr ⟨b, e, w'', by omega, hraises⟩⟩

theorem unfinished_append (done part : List Buffer)
    (hdone : ∀ b ∈ done.getLast?, b.isSeparator = true) (hpart : ∀ b ∈ part, b.isSeparator = false) :
    unfinished (done ++ part) = part := by
  have hall : ∀ b ∈ part.reverse, (!b.isSeparator) = true := by
    intro b hb
    rw [hpart b (List.mem_reverse.mp hb)]
    rfl
  have hnone : done.reverse.takeWhile (fun b => !b.isSeparator) = [] := by
    cases hlast : done.reverse with
    | nil => rfl
    | cons b rest =>
        have hb : b ∈ done.getLast? := by
          rw [← List.head?_reverse, hlast]
          rfl
        rw [List.takeWhile_cons, hdone b hb]
        rfl
  rw [unfinished, List.rtakeWhile, List.reverse_append, List.takeWhile_append_of_pos hall, hnone,
    List.append_nil, List.reverse_reverse]

-- A stream that is cut between two buffers: whole messages, and the beginning of one.
theorem prefix_sents {env : Enviroment} (sents : List Sent) {pre : List Buffer}
    (h : pre <+: sents.flatMap (Sent.stream env)) :
    ∃ done part, done ⊆ sents ∧ pre = done.flatMap (Sent.stream env) ++ part ∧
      (part = [] ∨ ∃ head forest rest, .framed head forest ∈ sents ∧ rest <+: forest.stream env ∧
        part = { head := some head } :: rest) := by
  induction sents generalizing pre with
  | nil => exact ⟨[], [], List.Subset.refl _, List.prefix_nil.mp h, Or.inl rfl⟩
  | cons sent sents ih =>
      rw [List.flatMap_cons] at h
      rcases prefix_append_cases h with hinside | ⟨behind, hbehind, rfl⟩
      · by_cases hwhole : pre = sent.stream env
        · exact ⟨[sent], [], by simp, by simp [hwhole], Or.inl rfl⟩
        · refine ⟨[], pre, List.nil_subset _, rfl, ?_⟩
          cases sent with
          | single head content =>
              rcases List.prefix_cons_iff.mp hinside with rfl | ⟨rest, rfl, hrest⟩
              · exact Or.inl rfl
              · rw [List.prefix_nil.mp hrest] at hwhole
                exact absurd rfl hwhole
          | framed head forest =>
              rcases List.prefix_cons_iff.mp hinside with rfl | ⟨rest, rfl, hrest⟩
              · exact Or.inl rfl
              rcases List.prefix_concat_iff.mp hrest with rfl | hrest
              · exact absurd rfl hwhole
              · exact Or.inr ⟨head, forest, rest, List.mem_cons_self .., hrest, rfl⟩
      · obtain ⟨done, part, hdone, rfl, hpart⟩ := ih hbehind
        refine ⟨sent :: done, part, List.cons_subset_cons _ hdone, ?_, ?_⟩
        · rw [List.flatMap_cons, List.append_assoc]
        · refine hpart.imp_right ?_
          rintro ⟨head, forest, rest, hmem, hrest⟩
          exact ⟨head, forest, rest, List.mem_cons_of_mem _ hmem, hrest⟩

theorem sents_getLast {env : Enviroment} (sents : List Sent) :
    ∀ b ∈ (sents.flatMap (Sent.stream env)).getLast?, b.isSeparator = true := by
  induction sents with
  | nil => exact fun b hb => by cases hb
  | cons sent sents ih =>
      intro b hb
      rw [List.flatMap_cons, List.getLast?_append] at hb
      cases hlast : (sents.flatMap (Sent.stream env)).getLast? with
      | some last =>
          rw [hlast, Option.some_or, Option.mem_some_iff] at hb
          exact ih b (by rw [hlast, hb]; rfl)
      | none =>
          rw [hlast, Option.none_or] at hb
          cases sent with
          | framed head forest =>
              rw [Sent.stream, List.getLast?_concat] at hb
              rw [← Option.mem_some_iff.mp hb]
              rfl
          | single head content =>
              rw [Sent.stream, List.getLast?_singleton] at hb
              rw [← Option.mem_some_iff.mp hb]
              rfl

end Rejected

section Withheld

variable {receiver : Receiver}

-- There is one state in which the loop has as many requests left.
theorem Receiver.Reaches.unique {start w w' : World} {left right : List Result}
    (h : receiver.Reaches start left w) (h' : receiver.Reaches start right w')
    (hw : start.Sound receiver.env) (hsound : w.Sound receiver.env)
    (hlength : w'.requests.length = w.requests.length) : w' = w := by
  obtain ⟨more, -, hmore⟩ := h.linear h' hw (Nat.le_of_eq hlength)
  rcases hmore.length hsound with ⟨hsame, -⟩ | hless
  · exact hsame
  · omega

theorem withholds_iff {start w : World} {results : List Result}
    (hrun : parseFromBuffer receiver start = receiver.run start) (hstart : start.Sound receiver.env)
    (hreaches : receiver.Reaches start results w) :
    receiver.Withholds start w.requests ↔ (receiver.run w).1.items = [] ∧
      (w.requests ≠ [] → (receiver.run w).1.raised.isSome = true) := by
  have houtcome : (parseFromBuffer receiver start).1 =
      ⟨results ++ (receiver.run w).1.items, (receiver.run w).1.raised⟩ := by
    rw [hrun, hreaches.run hstart]
    rfl
  unfold Receiver.Withholds
  rw [houtcome]
  constructor
  · rintro ⟨earlier, w', hreaches', hlength, hitems, hraised⟩
    obtain ⟨more, rfl, -⟩ := hreaches'.linear hreaches hstart hlength
    simp only [List.append_assoc, List.append_right_eq_self, List.append_eq_nil_iff] at hitems
    exact ⟨hitems.2, hraised⟩
  · rintro ⟨hitems, hraised⟩
    refine ⟨results, w, hreaches, Nat.le_refl _, ?_, hraised⟩
    simp only [hitems, List.append_nil]

-- The state in which what is unfinished begins is reached once.
theorem reaches_once {start w : World} {results : List Result} (hstart : start.Sound receiver.env)
    (hreaches : receiver.Reaches start results w) (hsound : w.Sound receiver.env) :
    ∀ earlier w', receiver.Reaches start earlier w' → w'.requests = w.requests → w' = w :=
  fun _ _ hreaches' hrequests =>
    hreaches.unique hreaches' hstart hsound (congrArg List.length hrequests)

-- Where it begins, it is withheld just if it stops.
theorem withholds_part (hd : receiver.env.Digests) {sender : Registry}
    (hsender : sender.ContentAddressed receiver.env) (hdistinct : sender.Distinct receiver.env)
    (hmode : ∃ mode, receiver.partitionsMessageMode = .inl mode) {start w : World}
    {results : List Result} (hrun : parseFromBuffer receiver start = receiver.run start)
    (hstart : start.Sound receiver.env) (hreaches : receiver.Reaches start results w)
    (hsound : w.Sound receiver.env) (hgood : w.known.Good receiver.env sender)
    (hpart : w.requests = [] ∨ ∃ head forest behind, (∃ stored : Stored, stored.FramedBy sender forest) ∧
      behind <+: forest.stream receiver.env ∧ w.requests = { head := some head } :: behind) :
    receiver.Withholds start w.requests ↔
      ∀ earlier w₁, receiver.Reaches start earlier w₁ → w₁.requests = w.requests →
        w.requests = [] ∨ ∃ (stored : Stored) (forest : Forest) (head : Head) (cut : Cut),
          stored.FramedBy sender forest ∧ cut.Begins forest ∧
            w.requests = { head := some head } :: cut.stream receiver.env ∧
              receiver.Stops sender w₁ head cut := by
  rw [withholds_iff hrun hstart hreaches]
  rcases hpart with hnil | ⟨head, forest, behind, ⟨stored, hstored⟩, hbehind, hrequests⟩
  · rw [run_nil w hnil]
    exact iff_of_true ⟨rfl, fun h => absurd hnil h⟩ fun _ _ _ _ => Or.inl hnil
  · obtain ⟨cut, hbegins, rfl⟩ := exists_begins forest hbehind
    have hne : w.requests ≠ [] := by
      rw [hrequests]
      exact List.cons_ne_nil _ _
    have hraises : ((receiver.run w).1.items = [] ∧
        (w.requests ≠ [] → (receiver.run w).1.raised.isSome = true)) ↔
          ∃ e, (receiver.run w).1 = ⟨[], some e⟩ := by
      constructor
      · rintro ⟨hitems, hraised⟩
        obtain ⟨e, he⟩ := Option.isSome_iff_exists.mp (hraised hne)
        refine ⟨e, ?_⟩
        rw [← hitems, ← he]
      · rintro ⟨e, he⟩
        rw [he]
        exact ⟨rfl, fun _ => rfl⟩
    rw [hraises]
    constructor
    · intro h earlier w' hreaches' hsame
      obtain rfl := reaches_once hstart hreaches hsound earlier w' hreaches' hsame
      exact Or.inr ⟨stored, forest, head, cut, hstored, hbegins, hrequests,
        (run_stops hd hsender hdistinct hstored hbegins hmode _ hsound hgood hrequests).mp h⟩
    · intro h
      obtain ⟨stored', forest', head', cut', hstored', hbegins', hsame', hstops⟩ :=
        (h results w hreaches rfl).resolve_left hne
      exact (run_stops hd hsender hdistinct hstored' hbegins' hmode _ hsound hgood hsame').mpr hstops

-- Where something in front of it is refused, nothing begins there.
theorem withholds_refused {start w w₁ : World} {results : List Result} {part : List Buffer} {b : Buffer}
    {e : Err} (hrun : parseFromBuffer receiver start = receiver.run start)
    (hstart : start.Sound receiver.env) (hreaches : receiver.Reaches start results w)
    (hsound : w.Sound receiver.env) (hless : part.length < w.requests.length)
    (hb : w.requests.head? = some b) (hraises : receiver.receive b w = .error e w₁) :
    receiver.Withholds start part ∧
      ∀ earlier w', receiver.Reaches start earlier w' → w'.requests ≠ part := by
  have hraised := hreaches.raises hstart hsound hb hraises
  constructor
  · refine ⟨results, w, hreaches, Nat.le_of_lt hless, ?_, fun _ => ?_⟩
    · rw [hrun, hraised]
    · rw [hrun, hraised]
      rfl
  · rintro earlier w' hreaches' rfl
    obtain ⟨more, -, hmore⟩ := hreaches.linear hreaches' hstart (Nat.le_of_lt hless)
    cases hmore with
    | start => exact absurd hless (Nat.lt_irrefl _)
    | turn hb' hreceive _ =>
        obtain rfl := Option.some.inj (hb.symm.trans hb')
        rw [hraises] at hreceive
        cases hreceive

-- What is left behind whole messages is what is unfinished.
theorem unfinished_sents {env : Enviroment} (done : List Sent) {rest : List Buffer}
    (hrest : rest = [] ∨ ∃ head forest, rest = { head := some head } :: forest ∧
      ∀ b ∈ forest, b.isSeparator = false) :
    unfinished (done.flatMap (Sent.stream env) ++ rest) = rest := by
  apply unfinished_append _ rest (sents_getLast done)
  rcases hrest with rfl | ⟨head, forest, rfl, hforest⟩
  · exact fun b hb => absurd hb List.not_mem_nil
  · intro b hb
    rcases List.mem_cons.mp hb with rfl | hb
    · rfl
    · exact hforest b hb

end Withheld

-- The receiver withholds a message that has not come whole exactly where what has come of it is
-- refused by itself: the separator is not missed.
theorem parseFromBuffer_withholds_iff (sender : Sender) (receiver : Receiver)
    (messages : List Outgoing) (w : World)
    (hd : sender.env.Digests) (hsame : sender.env.hashFactory = receiver.env.hashFactory)
    (hdepth : 1 ≤ sender.env.blockDepth ∧ sender.env.blockDepth ≤ MAX_BLOCK_NESTING)
    (hskips : sender.skips = none) (hsender : sender.registry.Correct sender.env)
    (hdistinct : sender.registry.Distinct sender.env)
    (hready : messages ≠ [] ∨ 1 < (Dict.set 0 .bytes sender.indices).length)
    (hcomplete : ∀ message ∈ messages, message.stored.Complete sender.registry)
    (hindices : ∀ message ∈ messages, ∃ index, sender.indexOf messages message.type = some index)
    (hmode : receiver.indices ≠ [] ∧ ∃ mode, receiver.partitionsMessageMode = .inl mode)
    (hreceiver : w.registry.ContentAddressed receiver.env)
    (hagrees : sender.registry.Agrees w.registry) (hscratch : w.scratch = []) :
    let stream := serializeToBuffer sender messages
    stream.raised = none ∧ ∀ pre, pre <+: stream.items →
      let start : World := { w with requests := pre }
      let part := unfinished pre
      receiver.Withholds start part ↔
        ∀ earlier w₁, receiver.Reaches start earlier w₁ → w₁.requests = part →
          part = [] ∨ ∃ (stored : Stored) (forest : Forest) (head : Head) (cut : Cut),
            stored.FramedBy sender.registry forest ∧ cut.Begins forest ∧
              part = { head := some head } :: cut.stream receiver.env ∧
                receiver.Stops sender.registry w₁ head cut := by
  intro stream
  obtain ⟨sents, hsents, hall⟩ := serializeToBuffer_sent hd hsender hdepth.2 hskips messages
    hready hcomplete hindices
  have hitems : stream.items = sents.flatMap (Sent.stream receiver.env) := by
    rw [show stream = _ from hsents]
    exact List.flatMap_congr fun sent _ => sent_stream_congr hsame sent
  refine ⟨by rw [show stream = _ from hsents]; rfl, ?_⟩
  intro pre hpre start part
  have hskip : ∀ b ∈ pre, b.skip = none := fun b hb =>
    serializeToBuffer_skip messages b (hpre.subset hb)
  have hdr : receiver.env.Digests := fun content => hsame ▸ hd content
  have hcontents : sender.registry.ContentAddressed receiver.env := by
    intro id stored hl
    rw [← hsame]
    exact hsender.addressed id stored hl
  have hdistinct : sender.registry.Distinct receiver.env := by
    unfold Registry.Distinct at hdistinct ⊢
    rwa [← hsame]
  obtain ⟨hne, hinl⟩ := hmode
  have hstart : start.Sound receiver.env :=
    ⟨hreceiver, fun path hpath => by simp [start, hscratch] at hpath⟩
  have hgood : start.known.Good receiver.env sender.registry := ⟨hreceiver, hagrees⟩
  have hcorrect : receiver.isCorrect = true := by
    obtain ⟨mode, hinl⟩ := hinl
    simp [Receiver.isCorrect, hinl, hne]
  have hrun : parseFromBuffer receiver start = receiver.run start :=
    parseFromBuffer_run hcorrect start hskip
  have hframed := framed_of_sent hall
  obtain ⟨done, rest, hdone, hsplit, hrest⟩ := prefix_sents sents (hitems ▸ hpre)
  have hpart : part = rest := by
    rw [show part = unfinished pre from rfl, hsplit]
    refine unfinished_sents done (hrest.imp_right ?_)
    rintro ⟨head, forest, behind, -, hbehind, hrest⟩
    exact ⟨head, behind, hrest, fun b hb => stream_separates receiver.env forest b (hbehind.subset hb)⟩
  clear_value part
  subst hpart
  obtain ⟨results, w₁, hreaches, hsound, hgood₁, hleft | ⟨b, e, w₂, hless, hb, hraises⟩⟩ :=
    reaches_sents hdr hcontents done (fun sent hsent => hframed sent (hdone hsent)) hinl start hstart
      hgood part hsplit
  · rw [← hleft]
    apply withholds_part hdr hcontents hdistinct hinl hrun hstart hreaches hsound hgood₁
    rw [hleft]
    refine hrest.imp_right ?_
    rintro ⟨head, forest, behind, hmem, hbehind, hpart⟩
    exact ⟨head, forest, behind, hframed _ hmem, hbehind, hpart⟩
  · obtain ⟨hwithholds, hnever⟩ :=
      withholds_refused hrun hstart hreaches hsound hless hb hraises
    exact iff_of_true hwithholds fun earlier w' hreaches' hrequests =>
      absurd hrequests (hnever earlier w' hreaches')

theorem sample_distinct : Registry.sample.Distinct Sender.sample.env := by
  intro id content hcontent other _ hother
  obtain ⟨stored, hl⟩ := Registry.exists_lookup_of_expansion hcontent
  obtain ⟨bytes, hbytes, hid⟩ := sample_correct.addressed id stored hl
  rw [hcontent] at hbytes
  obtain rfl := Option.some.inj hbytes
  have hsame : (1 :: other : Bytes) = 1 :: content := hother.trans hid.symm
  exact (List.cons.inj hsame).2

theorem parseFromBuffer_withholds_iff_sample :
    let sender : Sender := .sample
    let receiver : Receiver := .onDisk
    let messages : List Outgoing := [.dir (.dir .around) .bytes, .bytes [9]]
    let w : World := { requests := [], registry := [] }
    let stream := serializeToBuffer sender messages
    stream.raised = none ∧ ∀ pre, pre <+: stream.items →
      let start : World := { w with requests := pre }
      let part := unfinished pre
      receiver.Withholds start part ↔
        ∀ earlier w₁, receiver.Reaches start earlier w₁ → w₁.requests = part →
          part = [] ∨ ∃ (stored : Stored) (forest : Forest) (head : Head) (cut : Cut),
            stored.FramedBy sender.registry forest ∧ cut.Begins forest ∧
              part = { head := some head } :: cut.stream receiver.env ∧
                receiver.Stops sender.registry w₁ head cut := by
  exact parseFromBuffer_withholds_iff .sample .onDisk
    [.dir (.dir .around) .bytes, .bytes [9]] { requests := [], registry := [] }
    (fun _ => List.cons_ne_nil _ _) rfl ⟨by decide, by decide⟩ rfl sample_correct sample_distinct
    (.inl (List.cons_ne_nil _ _))
    (fun message hmessage => by
      simp only [List.mem_cons, List.not_mem_nil, or_false] at hmessage
      rcases hmessage with rfl | rfl
      · exact around_complete
      · trivial)
    (fun message hmessage => by
      simp only [List.mem_cons, List.not_mem_nil, or_false] at hmessage
      rcases hmessage with rfl | rfl
      · exact ⟨0, by decide⟩
      · exact ⟨0, by decide⟩)
    ⟨List.cons_ne_nil _ _, false, rfl⟩ (fun id stored hl => by cases hl)
    (fun id x y _ hy => by
      obtain ⟨stored, hl⟩ := Registry.exists_lookup_of_expansion hy
      cases hl)
    rfl

-- A connection that is lost after the first part of an object: it is yielded in both modes as if
-- it were all of it.
theorem parseFromBuffer_delivers_unfinished :
    let object : Directory := .around
    let stream := serializeToBuffer .sample [.dir (.dir object) .bytes]
    let start : World := { requests := stream.items.take 2, registry := [] }
    let memory : Receiver := { Receiver.onDisk with partitionsMessageMode := .inl true }
    stream.raised = none ∧ unfinished start.requests = start.requests ∧
      (parseFromBuffer memory start).1 = .pure [.value (.bytes [5, 10, 4])] ∧
      (parseFromBuffer .onDisk start).1 =
        .pure [.dir { dir := 1, stored := .file [5, 10, 4], type := .bytes }] ∧
      ¬ memory.Withholds start (unfinished start.requests) ∧
      ¬ Receiver.onDisk.Withholds start (unfinished start.requests) := by
  intro object stream start memory
  have hpart : unfinished start.requests = start.requests := by decide
  have hmemory : (parseFromBuffer memory start).1 = .pure [.value (.bytes [5, 10, 4])] := by decide
  have hdisk : (parseFromBuffer .onDisk start).1 =
      .pure [.dir { dir := 1, stored := .file [5, 10, 4], type := .bytes }] := by decide
  have hne : start.requests ≠ [] := by decide
  refine ⟨by decide, hpart, hmemory, hdisk, ?_, ?_⟩
  · rintro ⟨earlier, w, -, -, -, hraised⟩
    rw [hmemory, hpart] at hraised
    cases hraised hne
  · rintro ⟨earlier, w, -, -, -, hraised⟩
    rw [hdisk, hpart] at hraised
    cases hraised hne

end BeeRpc
