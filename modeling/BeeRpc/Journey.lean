import BeeRpc.BuildMultiblock
import BeeRpc.Network

namespace BeeRpc

open Wire Naming Interleaving

section Pointing

-- A directory reads the same where its parts do.
theorem runs_congr {left right : Directory} (entries : List JsonEntry)
    (h : ∀ index, .part index ∈ entries → left.part index = right.part index) :
    left.runs entries = right.runs entries := by
  induction entries with
  | nil => rfl
  | cons entry entries ih =>
      have hrest := ih fun index hindex => h index (List.mem_cons_of_mem _ hindex)
      cases entry with
      | part index => simp only [Directory.runs, h index (List.mem_cons_self ..), hrest]
      | block id positions => simp only [Directory.runs, hrest]

-- The pointer form of an object: it can be made from the layout at any time, and stands in the
-- `wbp.bin` unless the settings leave that out. A flat file is its own pointer form.
def Stored.Points (env : Enviroment) (registry : Registry) (pointer : Bytes) : Stored → Prop
  | .file content => content = pointer
  | .dir directory => wbpBytes env registry directory none = .ok pointer ∧
      (directory.wbp = some pointer ∨ env.skipWbpGeneration = true ∧ directory.wbp = none)

variable {env env' : Enviroment}

theorem Stored.Points.grows {before after : Registry} (hgrows : before.Grows after)
    {stored : Stored} {pointer : Bytes} (hcomplete : stored.Complete before)
    (h : stored.Points env before pointer) : stored.Points env after pointer := by
  cases stored with
  | file content => exact h
  | dir directory =>
      have hsame := @wbpBytes_same env env rfl before after directory directory hcomplete rfl rfl
        (fun id hid => by
          obtain ⟨chain, hchain, rfl⟩ := List.mem_map.mp hid
          obtain ⟨content, hcontent⟩ := Directory.Complete.holds hcomplete chain hchain
          rw [hcontent, hgrows.expansion hcontent]) none
      exact ⟨hsame.trans h.1, h.2⟩

-- Without blocks the pointer form is the object itself.
theorem Stored.Points.flat {registry : Registry} {stored : Stored} {pointer content : Bytes}
    (hcomplete : stored.Complete registry) (h : stored.Points env registry pointer)
    (hblocks : stored.blocks = []) (hexpands : stored.expandWith registry.expansion = some content) :
    content = pointer := by
  cases stored with
  | file bytes =>
      obtain rfl := Option.some.inj hexpands
      exact h
  | dir directory =>
      obtain ⟨doc, hdoc, hholes⟩ := hcomplete.described
      have hfill : ∀ id ∈ doc.holes, registry.expansion id = some (registry.content id) :=
        fun id hid => Registry.content_eq (hholes id hid)
      have hnone : doc.holes = [] := hdoc.blocks.symm.trans hblocks
      have hrender : content = doc.render registry.content :=
        Option.some.inj (hexpands.symm.trans (hdoc.expands _ hfill))
      have hpointer : pointer = doc.render fun id => blockPointerBytes env id :=
        Except.ok.inj (h.1.symm.trans (wbpBytes_describes env registry hdoc hfill none))
      rw [hrender, hpointer]
      refine Document.render_congr _ _ _ fun id hid => ?_
      rw [hnone] at hid
      exact absurd hid List.not_mem_nil

-- What arrives has the pointer form of what was sent.
theorem Relayed.points (hsettings : env'.hashFactory = env.hashFactory) {sender receiver : Registry}
    {message : Outgoing} {dir : Dir} {pointer : Bytes} (h : Relayed env' sender receiver message dir)
    (hagrees : sender.Agrees receiver) (hcomplete : message.stored.Complete sender)
    (hpoints : message.stored.Points env sender pointer) : dir.stored.Points env' receiver pointer := by
  by_cases hblocks : message.stored.blocks = []
  · obtain ⟨content, hflat⟩ := h.flat hblocks
    obtain ⟨bytes, hsent, hreceived⟩ := h.delivered.expands
    rw [hflat] at hreceived ⊢
    obtain rfl := Option.some.inj hreceived
    exact hpoints.flat hcomplete hblocks hsent
  · cases hstored : message.stored with
    | file content =>
        rw [hstored] at hblocks
        exact absurd rfl hblocks
    | dir directory =>
        rw [hstored] at hblocks hcomplete hpoints
        obtain ⟨copy, hcopy, hjson, hparts⟩ := h.delivered.same directory hstored
          fun hnone => hblocks (by rw [Stored.blocks, hnone, List.map_nil])
        have hreceived := h.complete
        have hwritten := h.written
        rw [hcopy] at hreceived hwritten ⊢
        have hown : copy.blocks = directory.blocks := by
          rw [Directory.blocks, Directory.blocks, hjson]
        have hruns : copy.runs copy.json = directory.runs directory.json := by
          rw [hjson]
          exact runs_congr directory.json hparts
        have hsame : ∀ id ∈ directory.blocks.map Prod.fst,
            receiver.expansion id = sender.expansion id := by
          intro id hid
          obtain ⟨chain, hchain, rfl⟩ := List.mem_map.mp hid
          obtain ⟨sent, hsent⟩ := Directory.Complete.holds hcomplete chain hchain
          obtain ⟨got, hgot⟩ := Directory.Complete.holds hreceived chain (hown ▸ hchain)
          rw [hsent, hgot, hagrees chain.1 sent got hsent hgot]
        have hpointer : wbpBytes env' receiver copy none = .ok pointer :=
          (wbpBytes_same hsettings hcomplete hjson hruns hsame none).trans hpoints.1
        refine ⟨hpointer, ?_⟩
        simp only [Stored.Written, hpointer] at hwritten
        by_cases hskip : env'.skipWbpGeneration = true
        · rw [if_pos hskip] at hwritten
          exact Or.inr ⟨hskip, hwritten⟩
        · rw [if_neg hskip] at hwritten
          exact Or.inl hwritten

end Pointing

section Building

variable {env : Enviroment} {registry : Registry}

-- A message with its blocks, as it is given to build_multiblock.
structure Draft where
  parse : ParseBlock
  message : Message
  blocks : List BlockId
  inherited : Option (List Bytes) := none

namespace Draft

variable (env : Enviroment) (registry : Registry) (draft : Draft)

def build : Except Err (Bytes × Directory) :=
  buildMultiblock env registry draft.parse draft.message draft.blocks draft.inherited

-- The message with every block in place of its pointer.
def object : Bytes :=
  (draft.message.replacePointers (pointerOf env draft.parse draft.blocks draft.inherited)
    registry.content).serializeToString

-- The pointers in the message are as block_pointer writes them, with their types.
structure Fit : Prop where
  plain : draft.message.Plain
  written : ∀ pointer ∈ (objectDocument env draft.parse draft.blocks draft.inherited
    draft.message).holes, IsWritten env draft.parse pointer.2 false

end Draft

-- What is built can be sent on, expands to the object, and has the message as its pointer form.
theorem Draft.Fit.built {draft : Draft} (h : draft.Fit env) {objectId : Bytes}
    {directory : Directory} (hbuilt : draft.build env registry = .ok (objectId, directory)) :
    (Stored.dir directory).Complete registry ∧
      (Stored.dir directory).expandWith registry.expansion = some (draft.object env registry) ∧
      (Stored.dir directory).Points env registry draft.message.serializeToString := by
  have hpointed := pointed_of_buildMultiblock env registry draft.parse draft.blocks draft.inherited
    h.plain (fun pointer hp => ⟨false, h.written pointer hp⟩) hbuilt
  obtain ⟨written, hjson, hwbp, hd, hbuild⟩ :=
    buildMultiblock_layout env registry draft.parse draft.blocks draft.inherited hpointed
  obtain rfl : written = directory := by
    rw [Draft.build, hbuild] at hbuilt
    obtain ⟨id, -, heq⟩ := bind_eq_ok.mp hbuilt
    exact (Prod.mk.inj (Except.ok.inj heq)).2
  have hholes : ∀ id ∈ ((objectDocument env draft.parse draft.blocks draft.inherited
      draft.message).map Prod.fst).holes, ∃ content, registry.expansion id = some content := by
    intro id hid
    rw [Document.holes_map] at hid
    obtain ⟨pointer, hpointer, rfl⟩ := List.mem_map.mp hid
    exact hpointed.complete pointer hpointer
  refine ⟨⟨?_, _, hd, hholes⟩, describes_expands env registry draft.parse draft.blocks
    draft.inherited hpointed hd, ?_, Or.inl hwbp⟩
  · rw [hjson, weave_blocks 1 _ written hjson]
  · rw [wbpBytes_describes env registry hd (fun id hid => Registry.content_eq (hholes id hid)),
      Document.render_map, ← Message.document_render (pointerOf env draft.parse draft.blocks
        draft.inherited) draft.message]
    refine congrArg Except.ok (Document.render_congr _ _ _ fun pointer hp => ?_)
    exact (pointerOf_written env draft.parse draft.blocks draft.inherited (h.written pointer hp)
      (pointerOf_holes draft.message _ pointer hp)).symm

end Building

section Travelling

variable {ι : Type}

-- What the peers do: build a message into an object with a number of its own, or send objects on.
inductive Deed (ι : Type) where
  | build (peer : ι) (number : Nat) (draft : Draft)
  | transfer (t : Transfer ι)

namespace Network

def add [DecidableEq ι] (s : Network ι) (i : ι) (object : Nat × Stored) : Network ι :=
  { s with
    peer := Function.update s.peer i { s.peer i with objects := (s.peer i).objects ++ [object] } }

-- A build that raises leaves nothing and is no deed.
def act [DecidableEq ι] (s : Network ι) : Deed ι → Option (Network ι)
  | .build i number draft =>
      match draft.build (s.peer i).env (s.peer i).registry with
      | .error _ => none
      | .ok (_, directory) => some (s.add i (number, .dir directory))
  | .transfer t => s.step t

-- What is built is fit to be, and numbered as the object and the message that it is.
def Numbers (contents pointers : Nat → Bytes) (s : Network ι) : Deed ι → Prop
  | .build i number draft => draft.Fit (s.peer i).env ∧
      contents number = draft.object (s.peer i).env (s.peer i).registry ∧
      pointers number = draft.message.serializeToString
  | .transfer _ => True

-- Every copy of an object has the object's pointer form.
def Points (pointers : Nat → Bytes) (s : Network ι) : Prop :=
  ∀ i, ∀ object ∈ (s.peer i).objects,
    object.2.Points (s.peer i).env (s.peer i).registry (pointers object.1)

end Network

variable {algorithm : Bytes → Bytes} {contents pointers : Nat → Bytes} [DecidableEq ι]
  {s s' : Network ι}

-- One more object at one of the peers.
theorem add_keeps (h : s.Sound algorithm contents) {i : ι} {object : Nat × Stored}
    (hcomplete : object.2.Complete (s.peer i).registry)
    (hexpands : object.2.expandWith (s.peer i).registry.expansion = some (contents object.1)) :
    (s.add i object).Sound algorithm contents ∧ s.Grows (s.add i object) := by
  have hregistry : ∀ j, ((s.add i object).peer j).registry = (s.peer j).registry :=
    forall_update (P := fun j peer => peer.registry = (s.peer j).registry) rfl fun _ => rfl
  have hsettings : ∀ j, ((s.add i object).peer j).env = (s.peer j).env :=
    forall_update (P := fun j peer => peer.env = (s.peer j).env) rfl fun _ => rfl
  have hmem : ∀ other ∈ (s.peer i).objects ++ [object], other ∈ (s.peer i).objects ∨ other = object :=
    fun other hother => (List.mem_append.mp hother).imp_right List.mem_singleton.mp
  refine ⟨⟨?_, ?_, ?_, ?_, ?_, ?_⟩, ⟨hsettings, ?_, ?_⟩⟩
  · intro j
    rw [hsettings]
    exact h.algorithm j
  · intro j
    rw [hsettings]
    exact h.depth j
  · intro j
    rw [hsettings, hregistry]
    exact h.correct j
  · refine forall_update (P := fun _ peer => ∀ other ∈ peer.objects, other.2.Complete peer.registry)
      (fun other hother => ?_) h.complete
    rcases hmem other hother with hold | rfl
    · exact h.complete i other hold
    · exact hcomplete
  · refine forall_update (P := fun _ peer => ∀ other ∈ peer.objects,
      other.2.expandWith peer.registry.expansion = some (contents other.1))
      (fun other hother => ?_) h.expands
    rcases hmem other hother with hold | rfl
    · exact h.expands i other hold
    · exact hexpands
  · intro j k
    rw [hregistry, hregistry]
    exact h.agrees j k
  · intro j
    rw [hregistry]
    exact .refl _
  · exact forall_update (P := fun j peer => (s.peer j).objects <+: peer.objects)
      (List.prefix_append _ _) fun _ => List.prefix_refl _

theorem build_keeps (h : s.Sound algorithm contents) (hpoints : s.Points pointers) {i : ι}
    {number : Nat} {draft : Draft}
    (hnumbers : s.Numbers contents pointers (.build i number draft))
    (hact : s.act (.build i number draft) = some s') :
    s'.Sound algorithm contents ∧ s'.Points pointers ∧ s.Grows s' ∧ s'.raised = s.raised := by
  obtain ⟨hfit, hobject, hmessage⟩ := hnumbers
  simp only [Network.act] at hact
  split at hact
  · cases hact
  · rename_i objectId directory hbuilt
    obtain rfl := Option.some.inj hact
    obtain ⟨hcomplete, hexpands, hpointer⟩ := hfit.built hbuilt
    obtain ⟨hsound, hgrows⟩ : (s.add i (number, .dir directory)).Sound algorithm contents ∧ _ :=
      add_keeps h hcomplete (hexpands.trans (congrArg some hobject.symm))
    refine ⟨hsound, ?_, hgrows, rfl⟩
    refine forall_update (P := fun _ peer => ∀ other ∈ peer.objects,
      other.2.Points peer.env peer.registry (pointers other.1)) (fun other hother => ?_) hpoints
    rcases List.mem_append.mp hother with hold | hnew
    · exact hpoints i other hold
    · rw [List.mem_singleton.mp hnew]
      exact hmessage ▸ hpointer

theorem transfer_points (hd : ∀ content, algorithm content ≠ []) (h : s.Sound algorithm contents)
    (hpoints : s.Points pointers) {t : Transfer ι} (hstep : s.step t = some s') :
    s'.Points pointers := by
  obtain ⟨after, harrives, rfl⟩ := step_arrives hd h hstep
  refine forall_update (P := fun _ peer => ∀ object ∈ peer.objects,
    object.2.Points peer.env peer.registry (pointers object.1)) (fun copy hcopy => ?_) hpoints
  rcases harrives.copies copy hcopy with hold | ⟨object, hobject, dir, rfl, hrelayed⟩
  · rw [harrives.settings]
    exact (hpoints t.target copy hold).grows harrives.grows (h.complete t.target copy hold)
  · have hsettings : after.env.hashFactory = (s.peer t.source).env.hashFactory := by
      rw [harrives.settings, h.algorithm, h.algorithm]
    refine hrelayed.points hsettings ?_ (h.complete t.source object hobject)
      (hpoints t.source object hobject)
    exact harrives.others _ (.refl _) (h.agrees t.source t.target)

theorem act_keeps (hd : ∀ content, algorithm content ≠ []) {deed : Deed ι}
    (h : s.Sound algorithm contents) (hpoints : s.Points pointers)
    (hnumbers : s.Numbers contents pointers deed) (hact : s.act deed = some s') :
    s'.Sound algorithm contents ∧ s'.Points pointers ∧ s.Grows s' ∧ s'.raised = s.raised := by
  cases deed with
  | build i number draft => exact build_keeps h hpoints hnumbers hact
  | transfer t =>
      obtain ⟨hsound, hgrows, hraised⟩ := transfer_keeps hd h hact
      exact ⟨hsound, transfer_points hd h hpoints hact, hgrows, hraised⟩

-- Messages are built and sent on in any order. Wherever a copy of one comes to, through however
-- many peers, it expands to the message with its blocks in place, and its pointer form is the
-- message itself, so that the receiver's `wbp.bin` can be read as what the builder was given.
theorem deeds_preserve (hd : ∀ content, algorithm content ≠ []) (s s' : Network ι)
    (deeds : List (Deed ι)) (h : s.Sound algorithm contents) (hpoints : s.Points pointers)
    (hnumbers : Along Network.act (Network.Numbers contents pointers) s deeds)
    (hrun : Interleaving.run Network.act s deeds = some s') :
    s'.Sound algorithm contents ∧ s'.Points pointers ∧ s.Grows s' ∧ s'.raised = s.raised := by
  have hkeeps : ∀ (now : Network ι) (deed : Deed ι) (next : Network ι),
      (now.Sound algorithm contents ∧ now.Points pointers ∧ s.Grows now ∧ now.raised = s.raised) →
      now.Numbers contents pointers deed → now.act deed = some next →
      next.Sound algorithm contents ∧ next.Points pointers ∧ s.Grows next ∧
        next.raised = s.raised := by
    rintro now deed next ⟨hsound, hpointed, hgrows, hraised⟩ hdeed hact
    obtain ⟨hsound', hpointed', hgrows', hraised'⟩ := act_keeps hd hsound hpointed hdeed hact
    exact ⟨hsound', hpointed', hgrows.trans hgrows', hraised'.trans hraised⟩
  exact invariant_run hkeeps deeds ⟨h, hpoints, .refl s, rfl⟩ hnumbers hrun

-- The peers before there are any objects, whatever these are to be.
def Network.bare (s : Network ι) : Network ι :=
  { s with peer := fun i => { s.peer i with objects := [] } }

omit [DecidableEq ι] in
theorem bare_sound (h : s.Sound algorithm contents) : s.bare.Sound algorithm pointers where
  algorithm := h.algorithm
  depth := h.depth
  correct := h.correct
  complete _ _ hobject := absurd hobject List.not_mem_nil
  expands _ _ hobject := absurd hobject List.not_mem_nil
  agrees := h.agrees

def Draft.sample : Draft where
  parse := .sample
  message := .sample
  blocks := Message.sampleBlocks

-- The message is built, and goes over a peer that leaves the pointer forms out.
def Deed.samples : List (Deed Station) :=
  [.build .origin 0 .sample, .transfer ⟨.origin, .relay, [0], .message 7, .stream⟩,
    .transfer ⟨.relay, .mirror, [0], .message 7, .stream⟩]

theorem deeds_preserve_sample :
    let s : Network Station := Network.sample.bare
    let s' := (Interleaving.run Network.act s Deed.samples).getD s
    s'.Sound Enviroment.sample.hashFactory (fun _ => Draft.sample.object .sample .sample) ∧
      s'.Points (fun _ => Message.sample.serializeToString) ∧ s.Grows s' ∧ s'.raised = s.raised := by
  have hsome : (Interleaving.run Network.act Network.sample.bare Deed.samples).isSome = true := by
    decide +kernel
  have hfit : Draft.sample.Fit Sender.sample.env := ⟨by decide, sample_written⟩
  exact deeds_preserve (fun _ => List.cons_ne_nil _ _) Network.sample.bare _ Deed.samples
    (bare_sound sample_sound) (fun _ _ hobject => absurd hobject List.not_mem_nil)
    ⟨⟨hfit, rfl, rfl⟩, fun _ _ => ⟨trivial, fun _ _ => ⟨trivial, fun _ _ => trivial⟩⟩⟩
    ((Option.eq_some_of_isSome hsome).trans (congrArg some (Option.get_eq_getD _)))

end Travelling

end BeeRpc
